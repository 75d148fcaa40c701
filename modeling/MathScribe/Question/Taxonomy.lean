/-
Types of questions.

Every stored question has one type out of a fixed taxonomy. A model is asked for the type, and its
answer is matched against the taxonomy: case, white space around it and trailing full stops do not
matter, and an answer that is not in the taxonomy stands for the default type.
-/
import MathScribe.Text.Case

set_option autoImplicit false

namespace MathScribe

namespace QuestionType

/-- The taxonomy. -/
def all : List String :=
  ["algebra", "calculus", "geometry", "trigonometry", "statistics", "arithmetic", "number theory",
   "combinatorics", "probability", "linear algebra", "differential equations", "real analysis",
   "complex analysis", "topology", "discrete mathematics", "set theory", "mathematical logic",
   "numerical analysis", "optimization", "abstract algebra", "game theory", "graph theory",
   "cryptography", "measure theory", "functional analysis", "dynamical systems", "fractals",
   "fuzzy logic", "mathematical modeling", "network theory", "operations research",
   "queueing theory", "information theory", "control theory", "computational mathematics",
   "mathematical physics", "biomathematics", "financial mathematics", "actuarial science",
   "mathematical statistics", "stochastic processes", "quantum mechanics", "relativity",
   "fluid dynamics", "nonlinear dynamics", "chaos theory"]

/-- The type of a question that the model does not place in the taxonomy. -/
def fallback : String :=
  "arithmetic"

/-- A text without the full stops at its back. -/
def dropStops (text : Text) : Text :=
  (text.reverse.dropWhile (· == '.')).reverse

/-- The words of an answer that are looked up in the taxonomy. -/
def candidate (answer : String) : String :=
  String.ofList (trim (dropStops (lower (trim answer.toList))))

/-- The type that an answer names (`match_question_type`). -/
def ofAnswer (answer : String) : String :=
  if candidate answer ∈ all then candidate answer else fallback

end QuestionType

end MathScribe

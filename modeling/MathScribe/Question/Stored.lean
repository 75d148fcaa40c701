/-
Questions in the store.

A solved question is what is written into the store; a similar question is what a search finds there.
Both are checked when they are made out of named values. A solved question takes no names but its
own. A similar question is read leniently: a value that is missing or says nothing counts as empty,
or as zero for the score, and other names are passed over.
-/
import MathScribe.Record.Check

set_option autoImplicit false

namespace MathScribe

/-- A question with its solution, as it is stored (`SolvedQuestion`). -/
structure SolvedQuestion where
  question : String
  solution : String
  questionType : String
  /-- The question with its formulas in ASCIIMath. -/
  questionAsciiMath : String
  /-- The solution with its formulas in ASCIIMath. -/
  solutionAsciiMath : String
  /-- The place of the question in the space of meanings. -/
  embedding : List Binary64
  deriving DecidableEq, Repr

/-- A stored question that is near to another one (`SimilarQuestion`). -/
structure SimilarQuestion where
  question : String
  solution : String
  /-- How near it is. -/
  score : Binary64
  questionType : String
  questionAsciiMath : String
  solutionAsciiMath : String
  deriving DecidableEq, Repr

/-- A check of a text field. -/
def checkText (value : Value) : Checked String :=
  .ofExcept value.toText

/-- No name is given but the known ones; every other name is a fault. -/
def checkNames (known : List String) (fields : Fields) : Checked Unit :=
  match fields.filter fun (name, _) => name ∉ known with
  | [] => .ok ()
  | unknown => .faulty (unknown.map fun (name, _) => ⟨[.field name], .unknown⟩)

namespace SolvedQuestion

/-- The names of the fields, in their order. -/
def names : List String :=
  ["question", "solution", "question_type", "question_notation", "solution_notation", "embedding"]

/-- A check of an embedding: a row of numbers. -/
def checkEmbedding (value : Value) : Checked (List Binary64) :=
  value.toReals

/-- The check of an embedding finds a fault exactly when a value is no number. -/
theorem checkEmbedding_faulty_iff (vector : List Value) :
    (∃ errors, (checkEmbedding (.list vector)).below (.field "embedding") = .faulty errors)
      ↔ ∃ value ∈ vector, ∃ fault, value.toReal = .error fault := by
  have hvalue : ∀ value : Value, (∃ errors, Checked.ofExcept value.toReal = .faulty errors)
      ↔ ∃ fault, value.toReal = .error fault := by
    intro value
    cases value.toReal <;> simp [Checked.ofExcept]
  simp only [← hvalue]
  exact (Checked.below_faulty_iff _ _).trans (Checked.each_faulty_iff vector 0)

/-- A solved question out of named values. The texts in ASCIIMath are empty and the embedding has no
numbers unless they are given. -/
def ofFields (fields : Fields) : Checked SolvedQuestion :=
  (fun question solution questionType questionAsciiMath solutionAsciiMath embedding _ =>
      ⟨question, solution, questionType, questionAsciiMath, solutionAsciiMath, embedding⟩)
    <$> checkField fields "question" none checkText
    <*> checkField fields "solution" none checkText
    <*> checkField fields "question_type" none checkText
    <*> checkField fields "question_notation" (some "") checkText
    <*> checkField fields "solution_notation" (some "") checkText
    <*> checkField fields "embedding" (some []) checkEmbedding
    <*> checkNames names fields

end SolvedQuestion

namespace SimilarQuestion

/-- The value of a record under a name, checked as the field it becomes. -/
def read {α : Type} (record : Fields) (name : String) (default : Value) (field : String)
    (check : Value → Checked α) : Checked α :=
  (check (Value.getOr record name default)).below (.field field)

/-- A similar question out of a record of the store (`from_record`). -/
def ofRecord (record : Fields) : Checked SimilarQuestion :=
  SimilarQuestion.mk
    <$> read record "question" (.text "") "question" checkText
    <*> read record "solution" (.text "") "solution" checkText
    <*> read record "score" (.real .zero) "score" (fun value => .ofExcept value.toReal)
    <*> read record "questionType" (.text "") "question_type" checkText
    <*> read record "questionNotation" (.text "") "question_notation" checkText
    <*> read record "solutionNotation" (.text "") "solution_notation" checkText

end SimilarQuestion

end MathScribe

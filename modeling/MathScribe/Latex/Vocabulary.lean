/-
The commands that are understood.

Every command of LaTeX is a macro name. Some stand for one symbol of ASCIIMath, some keep their name
as an ordinary word, some take arguments. This file lists them; a name that is in no list is unknown
and stays as it is written.
-/
import MathScribe.Text.Blank

set_option autoImplicit false

namespace MathScribe.Latex

/-- The macros that stand for a symbol, each with its symbol. -/
def symbolMacros : List (Text × Text) :=
  [("infty", "oo"), ("partial", "del"), ("cdot", "*"), ("times", "*"), ("div", "/"), ("pm", "+-"),
   ("le", "<="), ("leq", "<="), ("ge", ">="), ("geq", ">="), ("ne", "!="), ("neq", "!="),
   ("to", "->"), ("rightarrow", "->")].map fun (name, symbol) => (name.toList, symbol.toList)

/-- The macros that become their own name: functions and Greek letters. -/
def namedMacros : List Text :=
  ["sin", "cos", "tan", "cot", "sec", "csc", "log", "ln", "exp",
   "arcsin", "arccos", "arctan", "sinh", "cosh", "tanh", "min", "max",
   "alpha", "beta", "gamma", "delta", "epsilon", "varepsilon", "zeta", "eta",
   "theta", "vartheta", "iota", "kappa", "lambda", "mu", "nu", "xi", "pi",
   "rho", "sigma", "tau", "upsilon", "phi", "varphi", "chi", "psi", "omega",
   "Gamma", "Delta", "Theta", "Lambda", "Xi", "Pi", "Sigma", "Phi", "Psi", "Omega"].map
    String.toList

/-- The macros of a fraction: numerator and denominator follow in braces. -/
def fractionMacros : List Text :=
  ["frac", "dfrac", "tfrac"].map String.toList

/-- The big operators: a lower and an upper script may follow. -/
def bigOperatorMacros : List Text :=
  ["int", "sum", "prod"].map String.toList

/-- The macros that set the style of what stands in the braces behind them. -/
def styleMacros : List Text :=
  ["text", "mathrm", "operatorname", "mathit", "mathbf"].map String.toList

/-- The root macro. -/
def rootMacro : Text := "sqrt".toList

/-- The limit macro. -/
def limitMacro : Text := "lim".toList

/-- What a macro becomes that takes no arguments: its symbol, or its own name. -/
def wordOf? (name : Text) : Option Text :=
  match symbolMacros.lookup name with
  | some symbol => some symbol
  | none => if name ∈ namedMacros then some name else none

end MathScribe.Latex

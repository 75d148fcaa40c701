/-
The row of symbols that a tree is written with.

`Expr.row` follows the text of a tree (`Expr.render`) node by node and gives the symbols that the text is
meant to have: parentheses in the same places, and the name behind the `d` of an integral as its
differential. That the text does have these symbols, and that they are read as the tree again, is shown
elsewhere; this file says for which trees (`Unambiguous`).

Parentheses are written by the precedence of a part alone, and a text is read from the left, each phrase
taking whatever can go on with it. So a part without parentheses can come to be read otherwise in two ways.
The end of what stands on the left may take what comes behind it: a name takes a parenthesis for a call, a
function an operand, a big operator the whole term (`Expr.takes`). And what stands on the right may be looser
than the reader expects there (`Expr.tightness`). `Unambiguous` goes through the nodes and leaves out just these
cases, and those where two symbols run together, a plus and a minus (`Expr.gluesSign`) or two numbers
(`Expr.gluesDigit`). Trees that no formula contains are left out as well: names with other characters,
operators that are not among the fourteen, and calls of words that are written in a way of their own.
-/
import MathScribe.Proofs.Reading.Letters
import MathScribe.Proofs.Reading.Lookahead

set_option autoImplicit false

namespace MathScribe

/-! ## Parentheses -/

/-- Parentheses around a row, where they are needed. -/
def encloseIf (needed : Bool) (row : List Symbol) : List Symbol :=
  if needed then .openParen :: row ++ [Symbol.closeParen] else row

namespace Operator

/-- Whether the left operand of an operator is written in parentheses. -/
def enclosesLeft (op : Operator) (left : Expr) : Bool :=
  match op with
  | dividedBy => true
  | power => left.precedence < power.precedence || left.isPower
  | _ => left.precedence < op.precedence

/-- Whether the right operand of an operator is written in parentheses. -/
def enclosesRight (op : Operator) (right : Expr) : Bool :=
  match op with
  | dividedBy | power => true
  | _ =>
    if right.isUnary then true
    else if op.isNonAssociative then right.precedence ≤ op.precedence
    else right.precedence < op.precedence

/-- The symbol of an operator. One that no formula contains is taken for a name. -/
def symbol : Operator → Symbol
  | relation r => .relation r
  | plus => .plus
  | minus => .minus
  | plusMinus => .plusMinus
  | times => .star
  | dividedBy => .slash
  | power => .caret
  | subscript => .underscore
  | other text => .name text

end Operator

/-- An operator is written between its operands, each with the parentheses that it needs. -/
theorem binaryText_eq (op : Operator) (left right : Expr) (leftText rightText : Text) :
    binaryText op false left leftText right rightText
      = parenthesizeIf (op.enclosesLeft left) leftText
        ++ (op.text ++ parenthesizeIf (op.enclosesRight right) rightText) := by
  cases op <;>
    simp [binaryText, Operator.enclosesLeft, Operator.enclosesRight, rightOperand, Operator.text]

/-- The right side of a product without an operator sign. -/
def besideText (right : Expr) : Text :=
  parenthesizeIf (Operator.times.enclosesRight right) right.render

/-- An integrand, in parentheses where a term needs them. -/
def factorText (integrand : Expr) : Text :=
  parenthesizeIf (integrand.precedence < Operator.times.precedence) integrand.render

/-- The sides of a product without an operator sign have a space between them, unless the left one is a
number and the right one can be glued to it. -/
theorem Expr.render_juxtapose (left right : Expr) :
    (Expr.juxtapose left right).render
      = parenthesizeIf (Operator.times.enclosesLeft left) left.render
        ++ if left.isNumber && canGlue (besideText right) then besideText right
          else ' ' :: besideText right := by
  change (if (left.isNumber && canGlue (besideText right)) = true then _ else _) = _
  split <;> rfl

/-! ## Symbols that run together -/

namespace Expr

/-- A sum whose right side is written without parentheses and starts with a minus. The plus and the minus are
read as a plus-or-minus. -/
def gluesSign : Expr → Bool
  | binary .plus _ right _ => (rightOperand .plus right right.render).head? = some '-'
  | _ => false

/-- A number that is written close to a digit, which is one of another script. The digits are read as one
number. -/
def gluesDigit : Expr → Bool
  | binary .times (number _) right true =>
    canGlue (besideText right) && (besideText right).head?.any isDecimalDigit
  | _ => false

end Expr

/-! ## The row of a tree -/

/-- An integrand with the differential behind it. -/
def integrandRow (integrand : Expr) (row : List Symbol) (v : Text) : List Symbol :=
  encloseIf (integrand.precedence < Operator.times.precedence) row ++ [Symbol.differential v]

/-- A part that stands where only an atom can. -/
def scriptRow (e : Expr) (row : List Symbol) : List Symbol :=
  encloseIf (e.precedence < Expr.atomPrecedence) row

/-- Rows with commas between them. -/
def commaRow : List (List Symbol) → List Symbol
  | [] => []
  | [row] => row
  | row :: rows => row ++ Symbol.comma :: commaRow rows

/-- A call with its arguments, which are given with their rows. -/
def callRow (function : Text) (arguments : List Expr) (rows : List (List Symbol)) : List Symbol :=
  let plain := Symbol.ofWord function :: encloseIf true (commaRow rows)
  if function = integralWord then
    match arguments, rows with
    | [integrand, v], [row, _] => .integral :: integrandRow integrand row v.render
    | [integrand, v, lower, upper], [row, _, lowerRow, upperRow] =>
      .integral :: .underscore :: (scriptRow lower lowerRow
        ++ Symbol.caret :: (scriptRow upper upperRow ++ integrandRow integrand row v.render))
    | _, _ => plain
  else if function = rootWord then
    match rows with
    | [index, radicand] => .root :: (encloseIf true index ++ encloseIf true radicand)
    | _ => plain
  else plain

namespace Expr

mutual

/-- The symbols that a tree is written with. A ready-made text is taken for a name. -/
def row : Expr → List Symbol
  | number digits => [.number digits]
  | name text => [.ofWord text]
  | verbatim text => [.name text]
  | unary op operand =>
    op.symbol :: encloseIf (operand.precedence ≤ signPrecedence) operand.row
  | binary op left right implicit =>
    encloseIf (op.enclosesLeft left) left.row
      ++ ((if op = .times ∧ implicit = true then [] else [op.symbol])
        ++ encloseIf (op.enclosesRight right) right.row)
  | call function arguments => callRow function arguments (rowAll arguments)

/-- The symbols of each tree of a row of trees. -/
def rowAll : List Expr → List (List Symbol)
  | [] => []
  | e :: es => e.row :: rowAll es

end

/-- The rows of arguments are the rows of each; `rowAll` is there only for the recursion. -/
theorem rowAll_eq_map (es : List Expr) : rowAll es = es.map row := by
  induction es with
  | nil => rfl
  | cons e es ih => rw [rowAll, ih, List.map_cons]

/-- A sign in front of its operand, which stands in parentheses when it binds no tighter than a sign. -/
theorem row_unary (op : Operator) (operand : Expr) :
    (unary op operand).row
      = op.symbol :: encloseIf (operand.precedence ≤ signPrecedence) operand.row :=
  rfl

/-- An operator between its sides, each of them in parentheses where `_serialize_binary` writes some. -/
theorem row_binary (op : Operator) (left right : Expr) :
    (binary op left right false).row
      = encloseIf (op.enclosesLeft left) left.row
        ++ op.symbol :: encloseIf (op.enclosesRight right) right.row := by
  simp [row]

/-- A product without a sign leaves no symbol between its sides. -/
theorem row_juxtapose (left right : Expr) :
    (juxtapose left right).row
      = encloseIf (Operator.times.enclosesLeft left) left.row
        ++ encloseIf (Operator.times.enclosesRight right) right.row :=
  rfl

/-- A call of anything but a root or an integral. -/
theorem row_call {function : Text} (hi : function ≠ integralWord) (hr : function ≠ rootWord)
    (arguments : List Expr) :
    (call function arguments).row
      = Symbol.ofWord function :: encloseIf true (commaRow (arguments.map row)) := by
  rw [row, rowAll_eq_map]
  unfold callRow
  rw [if_neg hi, if_neg hr]

/-- A root without an index. -/
theorem row_rootOne (radicand : Expr) :
    (call rootWord [radicand]).row = .root :: encloseIf true radicand.row :=
  rfl

/-- A root with an index, which stands in the first parentheses. -/
theorem row_rootTwo (index radicand : Expr) :
    (call rootWord [index, radicand]).row
      = .root :: (encloseIf true index.row ++ encloseIf true radicand.row) :=
  rfl

/-- An integral without bounds. -/
theorem row_integral (integrand : Expr) (v : Text) :
    (call integralWord [integrand, name v]).row
      = .integral :: integrandRow integrand integrand.row v :=
  rfl

/-- An integral with bounds: the lower one first, although the tree has the integrand in front of both. -/
theorem row_integralBounds (integrand lower upper : Expr) (v : Text) :
    (call integralWord [integrand, name v, lower, upper]).row
      = .integral :: .underscore :: (scriptRow lower lower.row
        ++ Symbol.caret :: (scriptRow upper upper.row ++ integrandRow integrand integrand.row v)) :=
  rfl

end Expr

/-! ## Words -/

/-- The words that are not names. -/
def reservedWords : List Text :=
  integralWord :: rootWord :: (NamedFunction.all.map NamedFunction.text
    ++ BigOperator.all.map BigOperator.text)

/-- A letter with letters and digits behind it. -/
def IsWord (word : Text) : Prop :=
  ∃ c rest, word = c :: rest ∧ c.isAlpha = true ∧ ∀ d ∈ rest, d.isAlphanum = true

/-- A letter with letters and digits behind it that is not a word with a meaning of its own. -/
structure PlainName (text : Text) : Prop where
  word : ∃ c rest, text = c :: rest ∧ c.isAlpha = true ∧ ∀ d ∈ rest, d.isAlphanum = true
  unreserved : text ∉ reservedWords

theorem PlainName.isAlphanum {text : Text} (h : PlainName text) : ∀ c ∈ text, c.isAlphanum = true := by
  obtain ⟨first, rest, rfl, hfirst, hrest⟩ := h.word
  exact List.forall_mem_cons.mpr ⟨by simp [Char.isAlphanum, hfirst], hrest⟩

/-- A letter alone is a plain name. -/
theorem PlainName.letter {c : Char} (h : c.isAlpha = true) : PlainName [c] := by
  refine ⟨⟨c, [], rfl, h, nofun⟩, fun hmem => ?_⟩
  have hlength : ∀ word ∈ reservedWords, word.length ≠ 1 := by decide
  exact hlength [c] hmem rfl

/-- A name that calls: a plain one, or one of the functions that also take an operand without
parentheses. -/
inductive Callee : Text → Prop
  | plain {text : Text} : PlainName text → Callee text
  | function (f : NamedFunction) : Callee f.text

/-! ## What the end of a text takes -/

/-- The symbols that a word takes where they stand behind it: the parenthesis of a call, the operand of a
function, and the term of a big operator. -/
def Symbol.takes : Symbol → Symbol → Bool
  | name _, next | root, next => next.isOpen
  | function _, next => next.startsPowered
  | bigOperator _, next => next.startsTerm
  | _, _ => false

namespace Expr

/-- A big operator, with the scripts that are written behind it. -/
def isBig : Expr → Bool
  | name text => (Symbol.ofWord text).isBigOperator
  | binary .subscript head _ _ => head.isBig
  | binary .power head _ _ => !head.isPower && head.isBig
  | _ => false

/-- A big operator with the term that it takes. -/
def isBigTerm : Expr → Bool
  | binary .times head _ true => head.isBig
  | _ => false

/-- How tightly the text of a tree binds when it is read. A big operator stands where a sign can, also with
its term behind it, though the tree is a product. -/
def tightness (e : Expr) : Nat :=
  if e.isBig || e.isBigTerm then signPrecedence else e.precedence

/-- The symbols that the end of the text of a tree takes where they stand behind it. -/
def takes : Expr → Symbol → Bool
  | name text, next => (Symbol.ofWord text).takes next
  | unary _ operand, next => !decide (operand.precedence ≤ signPrecedence) && operand.takes next
  | binary op left right implicit, next =>
    (!op.enclosesRight right && right.takes next)
      -- The exponent goes on with scripts, a big operator with a term, and its term with factors.
      || op = .power && next.isScriptMark
      || (binary op left right implicit).isBig && next.startsTerm
      || (binary op left right implicit).isBigTerm && (next.isMultiplicative || next.startsPowered)
  | call function arguments, next => function = rootWord && arguments.length = 1 && next.isOpen
  | _, _ => false

/-- The symbols that the last script of a big operator takes where they stand behind it. -/
def scriptTakes : Expr → Symbol → Bool
  | binary op _ right _, next =>
    (!op.enclosesRight right && right.takes next) || op = .power && next.isScriptMark
  | _, _ => false

/-- The row of the right side of a product without an operator sign. -/
def besideRow (right : Expr) : List Symbol :=
  encloseIf (Operator.times.enclosesRight right) right.row

/-- The row of an integrand, in parentheses where a term needs them. -/
def factorRow (integrand : Expr) : List Symbol :=
  encloseIf (integrand.precedence < Operator.times.precedence) integrand.row

end Expr

/-! ## Trees that their texts tell from others -/

/-- The operands with which the text of an operator can be told from others. -/
structure Operator.Admits (op : Operator) (left right : Expr) : Prop where
  /-- A left operand without parentheses does not take the operator for itself. -/
  leaves : op.enclosesLeft left = false → left.takes op.symbol = false
  /-- A right operand without parentheses is tighter than the operator. -/
  tighter : op.enclosesRight right = false → op.precedence < right.tightness
  /-- A plus does not run into a minus. -/
  apart : (Expr.binary op left right false).gluesSign = false

/-- **The trees that their texts tell from others**, as far as one node and its neighbours decide it. What
the text of a tree is read as also depends on the names that stand inside its integrals and on how deeply its
parentheses lie inside each other; both are left to the theorems. -/
inductive Unambiguous : Expr → Prop
  | number {digits : Text} : digits ≠ [] → Symbol.NumberText digits → Unambiguous (.number digits)
  /-- A name, also one with a meaning of its own. Only the word of an integral cannot stand alone. -/
  | name {text : Text} : IsWord text → text ≠ integralWord → Unambiguous (.name text)
  | sign {op : Operator} {operand : Expr} :
      op = .minus ∨ op = .plusMinus → Unambiguous operand → Unambiguous (.unary op operand)
  | operator {op : Operator} {left right : Expr} :
      op ∈ Operator.all → op.Admits left right → Unambiguous left → Unambiguous right →
      Unambiguous (.binary op left right false)
  /-- A product without an operator sign: the left side does not take the right one, which is a power or
  tighter, and no digits run together. -/
  | beside {left right : Expr} :
      left.isBig = false →
      (Operator.times.enclosesLeft left = false → goesOn left.takes right.besideRow = false) →
      (Operator.times.enclosesRight right = false → Expr.signPrecedence < right.tightness) →
      (Expr.juxtapose left right).gluesDigit = false →
      Unambiguous left → Unambiguous right → Unambiguous (.juxtapose left right)
  /-- A big operator with its term, of which its last script takes nothing. -/
  | bigTerm {head operand : Expr} :
      head.isBig = true → goesOn head.scriptTakes operand.besideRow = false →
      Unambiguous head → Unambiguous operand → Unambiguous (.juxtapose head operand)
  | call {function : Text} {arguments : List Expr} :
      Callee function → (∀ argument ∈ arguments, Unambiguous argument) →
      Unambiguous (.call function arguments)
  | rootOne {radicand : Expr} : Unambiguous radicand → Unambiguous (.call rootWord [radicand])
  | rootTwo {index radicand : Expr} :
      Unambiguous index → Unambiguous radicand → Unambiguous (.call rootWord [index, radicand])
  | integral {integrand : Expr} {v : Text} :
      PlainName v → Unambiguous integrand → Unambiguous (.call integralWord [integrand, .name v])
  /-- An integral with bounds. A bound without parentheses is no big operator, and the upper one does not take
  the integrand. -/
  | integralBounds {integrand lower upper : Expr} {v : Text} :
      PlainName v → Unambiguous integrand → Unambiguous lower → Unambiguous upper →
      (lower.precedence = Expr.atomPrecedence → lower.isBig = false) →
      (upper.precedence = Expr.atomPrecedence →
        upper.isBig = false ∧ goesOn upper.takes integrand.factorRow = false) →
      Unambiguous (.call integralWord [integrand, .name v, lower, upper])

end MathScribe

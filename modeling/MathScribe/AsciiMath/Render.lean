/-
Writing expression trees.

A tree is written in ASCIIMath with parentheses only where the precedence of a part asks for them.
Some nodes have forms of their own: a quotient always has both sides in parentheses, an exponent is
always in parentheses, and integrals and indexed roots are written the way they are read. What the
form of a node is depends on its parts only through their texts and precedences.
-/
import MathScribe.AsciiMath.Expr

set_option autoImplicit false

namespace MathScribe

namespace Operator

/-- How tightly an operator binds; an operator that no formula contains binds least. -/
def precedence : Operator → Nat
  | relation _ => 1
  | plus | minus | plusMinus => 2
  | times | dividedBy => 3
  | power | subscript => 5
  | other _ => 0

/-- The operators whose right operand needs parentheses when it binds just as tightly. -/
def isNonAssociative : Operator → Bool
  | minus | plusMinus | subscript | relation _ => true
  | _ => false

end Operator

namespace Expr

/-- The precedence of a sign in front. -/
def signPrecedence : Nat := 4

/-- The precedence of what never needs parentheses. -/
def atomPrecedence : Nat := 6

/-- How tightly the root of a tree binds. -/
def precedence : Expr → Nat
  | binary op .. => op.precedence
  | unary .. => signPrecedence
  | _ => atomPrecedence

/-- A sign in front of an operand. -/
def isUnary : Expr → Bool
  | unary .. => true
  | _ => false

/-- A number. -/
def isNumber : Expr → Bool
  | number _ => true
  | _ => false

/-- A power. -/
def isPower : Expr → Bool
  | binary .power .. => true
  | _ => false

end Expr

/-- Parentheses around a text, where they are needed (`_wrap`). -/
def parenthesizeIf (needed : Bool) (text : Text) : Text :=
  if needed then '(' :: text ++ [')'] else text

/-- A number can be glued to a text that does not go on with a digit or a point. -/
def canGlue : Text → Bool
  | [] => false
  | c :: _ => !(c.isDigit || c == '.')

/-- The right operand of an operator. A sign in front is always in parentheses, as a sign behind an
operator would read as another operator. -/
def rightOperand (op : Operator) (right : Expr) (text : Text) : Text :=
  parenthesizeIf
    (if right.isUnary then true
     else if op.isNonAssociative then right.precedence ≤ op.precedence
     else right.precedence < op.precedence) text

/-- An operator with its operands, which are given with their texts (`_serialize_binary`). -/
def binaryText (op : Operator) (implicit : Bool) (left : Expr) (leftText : Text)
    (right : Expr) (rightText : Text) : Text :=
  match op with
  | .dividedBy => parenthesizeIf true leftText ++ '/' :: parenthesizeIf true rightText
  | .power =>
    parenthesizeIf (left.precedence < Operator.power.precedence || left.isPower) leftText
      ++ '^' :: parenthesizeIf true rightText
  | _ =>
    let leftText := parenthesizeIf (left.precedence < op.precedence) leftText
    let rightText := rightOperand op right rightText
    if op = .times ∧ implicit = true then
      if left.isNumber && canGlue rightText then leftText ++ rightText
      else leftText ++ ' ' :: rightText
    else leftText ++ op.text ++ rightText

/-- A part that stands where only an atom can (`_script`). -/
def scriptText (e : Expr) (text : Text) : Text :=
  parenthesizeIf (e.precedence < Expr.atomPrecedence) text

/-- Texts in a row, with a comma and a space between them. -/
def commaSeparated : List Text → Text
  | [] => []
  | [text] => text
  | text :: rest => text ++ ',' :: ' ' :: commaSeparated rest

/-- The integrand and the variable of an integral behind its head. -/
def integrandText (integrand : Expr) (text variableText : Text) : Text :=
  ' ' :: parenthesizeIf (integrand.precedence < Operator.times.precedence) text
    ++ ' ' :: 'd' :: ' ' :: variableText

/-- A call with its arguments, which are given with their texts (`_serialize_call`). The two words
of integrals and roots have forms of their own, which depend on how many arguments there are. -/
def callText (function : Text) (arguments : List Expr) (texts : List Text) : Text :=
  if function = integralWord then
    match arguments, texts with
    | [integrand, _], [text, v] => integralWord ++ integrandText integrand text v
    | [integrand, _, lower, upper], [text, v, lowerText, upperText] =>
      integralWord ++ '_' :: scriptText lower lowerText ++ '^' :: scriptText upper upperText
        ++ integrandText integrand text v
    | _, _ => function ++ parenthesizeIf true (commaSeparated texts)
  else if function = rootWord then
    match texts with
    | [index, radicand] => rootWord ++ parenthesizeIf true index ++ parenthesizeIf true radicand
    | _ => function ++ parenthesizeIf true (commaSeparated texts)
  else function ++ parenthesizeIf true (commaSeparated texts)

namespace Expr

mutual

/-- The text of a tree (`serialize`). -/
def render : Expr → Text
  | number digits => digits
  | name text => text
  | verbatim text => text
  | unary op operand =>
    op.text ++ parenthesizeIf (operand.precedence ≤ signPrecedence) operand.render
  | binary op left right implicit => binaryText op implicit left left.render right right.render
  | call function arguments => callText function arguments (renderAll arguments)

/-- The texts of a row of trees. -/
def renderAll : List Expr → List Text
  | [] => []
  | e :: es => e.render :: renderAll es

end

/-- The depth up to which trees are written. Writing goes down a tree by recursion, so how deep a tree may be
is decided by the stack that the program is given, and not by the notation. This is the depth at which the
stack of a plain installation ends; nothing is stated that depends on its value. -/
def maxDepth : Nat := 400

/-- The text of a tree, unless the tree is too deep to be written. -/
def render? (e : Expr) : Option Text :=
  if e.depth ≤ maxDepth then some e.render else none

/-- What is written is the text of the tree. -/
theorem render_of_render? {e : Expr} {text : Text} (h : e.render? = some text) : e.render = text := by
  unfold render? at h
  split at h
  · exact Option.some.inj h
  · cases h

end Expr

end MathScribe

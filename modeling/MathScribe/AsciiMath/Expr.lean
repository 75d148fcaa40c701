/-
Expression trees.

A formula that has been understood is a tree of numbers, names, operators and calls. Numbers and
names keep the text they were written with. Trees can also be put together by hand, so an operator
may be one that no formula contains, and a node may be a ready-made text.

Equality of trees is decidable; the instance is written out because calls hold lists of trees.
-/
import MathScribe.AsciiMath.Symbol

set_option autoImplicit false

namespace MathScribe

/-- An operator of a tree. -/
inductive Operator
  | relation (r : Relation)
  | plus
  | minus
  | plusMinus
  | times
  | dividedBy
  | power
  | subscript
  /-- An operator that no formula contains. -/
  | other (text : Text)
  deriving DecidableEq, Repr

namespace Operator

/-- How an operator is written. -/
def text : Operator → Text
  | relation r => r.text
  | plus => ['+']
  | minus => ['-']
  | plusMinus => ['+', '-']
  | times => ['*']
  | dividedBy => ['/']
  | power => ['^']
  | subscript => ['_']
  | other text => text

/-- The fourteen operators that formulas contain. -/
def all : List Operator :=
  [relation .equal, relation .less, relation .greater, relation .atMost, relation .atLeast,
   relation .differs, relation .tendsTo, plus, minus, plusMinus, times, dividedBy, power, subscript]

/-- The operator of a text. -/
def ofText (text : Text) : Operator :=
  (all.find? (·.text = text)).getD (other text)

end Operator

/-- An expression tree. -/
inductive Expr
  /-- A number, with its digits as they are written. -/
  | number (digits : Text)
  /-- A name. -/
  | name (text : Text)
  /-- An operator between two operands. The flag marks a product without an operator sign. -/
  | binary (op : Operator) (left right : Expr) (implicit : Bool)
  /-- An operator in front of its operand. -/
  | unary (op : Operator) (operand : Expr)
  /-- A function with its arguments. -/
  | call (function : Text) (arguments : List Expr)
  /-- A ready-made text in the place of a tree. -/
  | verbatim (text : Text)
  deriving Inhabited, Repr

namespace Expr

/-- A product that is written without an operator sign. -/
abbrev juxtapose (left right : Expr) : Expr :=
  binary .times left right true

mutual

/-- Decide whether two trees are the same. -/
protected def decEq : (a b : Expr) → Decidable (a = b)
  | number s, number t => decidable_of_iff (s = t) (by simp)
  | name s, name t => decidable_of_iff (s = t) (by simp)
  | verbatim s, verbatim t => decidable_of_iff (s = t) (by simp)
  | binary o l r i, binary p m s j =>
    match Expr.decEq l m, Expr.decEq r s with
    | isTrue hl, isTrue hr => decidable_of_iff (o = p ∧ i = j) (by simp [hl, hr])
    | isFalse hl, _ => isFalse (by simp [hl])
    | _, isFalse hr => isFalse (by simp [hr])
  | unary o e, unary p f =>
    match Expr.decEq e f with
    | isTrue h => decidable_of_iff (o = p) (by simp [h])
    | isFalse h => isFalse (by simp [h])
  | call f as, call g bs =>
    match Expr.decEqAll as bs with
    | isTrue h => decidable_of_iff (f = g) (by simp [h])
    | isFalse h => isFalse (by simp [h])
  | number _, name _ | number _, binary .. | number _, unary .. | number _, call ..
  | number _, verbatim _ | name _, number _ | name _, binary .. | name _, unary ..
  | name _, call .. | name _, verbatim _ | binary .., number _ | binary .., name _
  | binary .., unary .. | binary .., call .. | binary .., verbatim _ | unary .., number _
  | unary .., name _ | unary .., binary .. | unary .., call .. | unary .., verbatim _
  | call .., number _ | call .., name _ | call .., binary .. | call .., unary ..
  | call .., verbatim _ | verbatim _, number _ | verbatim _, name _ | verbatim _, binary ..
  | verbatim _, unary .. | verbatim _, call .. => isFalse (by simp)

/-- Decide whether two rows of trees are the same. -/
protected def decEqAll : (as bs : List Expr) → Decidable (as = bs)
  | [], [] => isTrue rfl
  | [], _ :: _ | _ :: _, [] => isFalse (by simp)
  | a :: as, b :: bs =>
    match Expr.decEq a b, Expr.decEqAll as bs with
    | isTrue ha, isTrue has => isTrue (by simp [ha, has])
    | isFalse ha, _ => isFalse (by simp [ha])
    | _, isFalse has => isFalse (by simp [has])

end

instance : DecidableEq Expr :=
  Expr.decEq

mutual

/-- The number of nodes on the longest way from the root of a tree to a leaf. -/
def depth : Expr → Nat
  | number _ | name _ | verbatim _ => 1
  | binary _ left right _ => max left.depth right.depth + 1
  | unary _ operand => operand.depth + 1
  | call _ arguments => depthAll arguments + 1

/-- The depth of the deepest tree of a row. -/
def depthAll : List Expr → Nat
  | [] => 0
  | e :: es => max e.depth (depthAll es)

end

end Expr

end MathScribe

/-
What a text means.

The reader may group what is written in another way than the tree that it was written from. This file says
that the value stays the same where that is a regrouping to the left (`Interpretation.value_regroup`), so a
text means what its tree means if the regrouped tree can be told from others by it
(`Unambiguous.value_of_regroup`).

A text need not mean what its tree means. In `x+(-3)*y` the right summand only begins with a sign and is not
one itself, so it is written without parentheses, and the plus and the sign become a plus-or-minus
(`value_drift`).
-/
import Mathlib
import MathScribe.Proofs.Writing.Stability

set_option autoImplicit false

namespace MathScribe

/-- How trees are understood in a field. Sums, products and signs are the ones of the field; what else there
is may be any function. -/
structure Interpretation (K : Type*) [Field K] where
  number : Text → K
  name : Text → K
  verbatim : Text → K
  /-- The sign that a plus-or-minus stands for. -/
  unknownSign : K
  quotient : K → K → K
  /-- A quotient by zero may be anything. -/
  quotient_eq : ∀ a b, b ≠ 0 → quotient a b = a / b
  /-- Powers, subscripts and relations. -/
  operator : Operator → K → K → K
  /-- Signs that no formula contains. -/
  sign : Operator → K → K
  call : Text → List K → K

namespace Interpretation

variable {K : Type*} [Field K] (I : Interpretation K)

/-- The value of an operator between two values. -/
def apply : Operator → K → K → K
  | .plus, a, b => a + b
  | .minus, a, b => a - b
  | .plusMinus, a, b => a + I.unknownSign * b
  | .times, a, b => a * b
  | .dividedBy, a, b => I.quotient a b
  | op, a, b => I.operator op a b

/-- The value of an operator in front of a value. -/
def applySign : Operator → K → K
  | .minus, a => -a
  | .plusMinus, a => I.unknownSign * a
  | op, a => I.sign op a

mutual

/-- The value of a tree. A product without an operator sign is a product. -/
def value : Expr → K
  | .number digits => I.number digits
  | .name text => I.name text
  | .verbatim text => I.verbatim text
  | .unary op operand => I.applySign op (value operand)
  | .binary op left right _ => I.apply op (value left) (value right)
  | .call function arguments => I.call function (valueAll arguments)

/-- The values of a row of trees. -/
def valueAll : List Expr → List K
  | [] => []
  | e :: es => value e :: valueAll es

end

/-- The value of an operation does not depend on whether the product has a sign. -/
@[simp] theorem value_binary (op : Operator) (left right : Expr) (implicit : Bool) :
    I.value (.binary op left right implicit) = I.apply op (I.value left) (I.value right) := by
  rw [value]

/-- What is regrouped is associative: sums, differences and plus-or-minus on the right of a plus, and products
on the right of a product. -/
theorem apply_regroup {op op' : Operator} {a b c : Expr} {implicit implicit' : Bool}
    (h : op.regroups op' a b c implicit implicit' = true) (x y z : K) :
    I.apply op' (I.apply op x y) z = I.apply op x (I.apply op' y z) := by
  obtain ⟨-, h⟩ := Bool.and_eq_true_iff.mp h
  cases op with
  | plus =>
    have hprecedence : op'.precedence = Operator.plus.precedence := of_decide_eq_true h
    cases op' with
    | plus => exact add_assoc x y z
    | minus => exact add_sub_assoc x y z
    | plusMinus => exact add_assoc x y (I.unknownSign * z)
    | _ => cases hprecedence
  | times =>
    simp only [Bool.and_eq_true, decide_eq_true_eq] at h
    obtain ⟨⟨rfl, -⟩, -⟩ := h
    exact mul_assoc x y z
  | _ => cases h

/-- Handing an operator down the left sides of its right operand keeps the value, since that is done with
operators that associate. -/
theorem value_joinLeft (op : Operator) (implicit : Bool) (left right : Expr) :
    I.value (Expr.joinLeft op implicit left right) = I.apply op (I.value left) (I.value right) := by
  induction right using Expr.joinLeft.induct op implicit left with
  | case1 op' b c implicit' h ih =>
    rw [Expr.joinLeft, if_pos h, value_binary, ih, I.apply_regroup h, value_binary]
  | case2 op' b c implicit' h =>
    rw [Expr.joinLeft, if_neg h, value_binary]
  | case3 right h =>
    cases right with
    | binary => exact absurd rfl (h _ _ _ _)
    | _ => exact I.value_binary op left _ implicit

mutual

/-- **A regrouped tree has the same value.** -/
theorem value_regroup : (e : Expr) → I.value e.regroup = I.value e
  | .number _ | .name _ | .verbatim _ => by rw [Expr.regroup]
  | .unary op operand => by rw [Expr.regroup, value, value, value_regroup operand]
  | .binary op left right implicit => by
    rw [Expr.regroup, value_joinLeft, value_regroup left, value_regroup right, value_binary]
  | .call function arguments => by rw [Expr.regroup, value, value, valueAll_regroup arguments]

/-- The arguments keep their values. -/
theorem valueAll_regroup : (es : List Expr) → I.valueAll (Expr.regroupAll es) = I.valueAll es
  | [] => rfl
  | e :: es => by rw [Expr.regroupAll, valueAll, valueAll, value_regroup e, valueAll_regroup es]

end

end Interpretation

/-- **A text means what its tree means** when the regrouped tree can be told from others by it: it is read,
and the tree that is read has the value of the tree that was written, whatever the names, the calls and the
operators other than those of a field stand for. -/
theorem Unambiguous.value_of_regroup {e : Expr} (h : Unambiguous e.regroup)
    (hnames : keepsNames [] e.regroup.row = true) (hnesting : parenDepth e.render ≤ maxNesting) :
    ∃ tree, parse e.render = .ok tree
      ∧ ∀ {K : Type*} [Field K] (I : Interpretation K), I.value tree = I.value e := by
  refine ⟨e.regroup, h.parse_regroup hnames hnesting, ?_⟩
  intro K _ I
  exact I.value_regroup e

/-- The theorem at `nestedSum`. -/
theorem Unambiguous.value_of_regroup_nested :
    nestedSum.render? = some "a+b-c*d*e".toList
      ∧ ∃ tree, parse "a+b-c*d*e".toList = .ok tree
        ∧ ∀ {K : Type} [Field K] (I : Interpretation K), I.value tree = I.value nestedSum := by
  have htext : nestedSum.render? = some "a+b-c*d*e".toList := by cbv
  refine ⟨htext, ?_⟩
  rw [← Expr.render_of_render? htext]
  exact Unambiguous.value_of_regroup nestedSum_unambiguous (by decide) (by decide +kernel)

/-- All names and numbers are one, and plus-or-minus is plus. -/
def Interpretation.ones : Interpretation ℚ where
  number _ := 1
  name _ := 1
  verbatim _ := 1
  unknownSign := 1
  quotient a b := a / b
  quotient_eq _ _ _ := rfl
  operator _ a _ := a
  sign _ a := a
  call _ _ := 1

/-- A product that begins with a sign is written behind a plus without parentheses, and the two come to be a
plus-or-minus. -/
theorem value_drift :
    ∃ tree text tree', parse "x + -3*y".toList = .ok tree ∧ tree.render? = some text
      ∧ parse text = .ok tree' ∧ ∃ I : Interpretation ℚ, I.value tree' ≠ I.value tree := by
  refine ⟨.binary .plus (.name ['x'])
      (.binary .times (.unary .minus (.number ['3'])) (.name ['y']) false) false, "x+-3*y".toList,
    .binary .plusMinus (.name ['x']) (.binary .times (.number ['3']) (.name ['y']) false) false,
    by cbv, by cbv, by cbv, .ones, ?_⟩
  simp only [Interpretation.value, Interpretation.apply, Interpretation.applySign, Interpretation.ones]
  norm_num

end MathScribe

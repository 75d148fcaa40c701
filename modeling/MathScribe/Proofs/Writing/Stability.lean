/-
Texts that stay as they are.

The text of a tree need not be read as the tree again: parentheses around a product on the right of a product
and around a sum on the right of a plus are not written, so `a*(b*c)` is written `a*b*c` and read as
`(a*b)*c`. The text itself stays the same all the same. This file says when it does
(`Unambiguous.stable_of_regroup`): the tree is regrouped to the left as far as that changes nothing in the
text (`Expr.regroup`), and what comes out has to be a tree that its text can tell from others.

It does not always stay the same. `a*(b/c)` is written `a*(b)/(c)` and read as a quotient, whose left side is
then written in parentheses; `int (dx) dy` is written `int dx d y`, which cannot be read at all
(`unstable_texts`).
-/
import MathScribe.Proofs.Writing.RoundTrip

set_option autoImplicit false

namespace MathScribe

/-! ## Trees that are written alike -/

/-- Two trees are written alike, alone and as an operand. -/
structure Expr.Alike (e e' : Expr) : Prop where
  render : e.render = e'.render
  precedence : e.precedence = e'.precedence
  isUnary : e.isUnary = e'.isUnary
  isNumber : e.isNumber = e'.isNumber
  isPower : e.isPower = e'.isPower

namespace Expr.Alike

variable {e e' left left' right right' : Expr} {op : Operator} {implicit : Bool}

/-- A tree is like itself. -/
theorem refl (e : Expr) : Alike e e :=
  ⟨rfl, rfl, rfl, rfl, rfl⟩

/-- Likeness is passed on. -/
theorem trans {e'' : Expr} (h : Alike e e') (h' : Alike e' e'') : Alike e e'' :=
  ⟨h.render.trans h'.render, h.precedence.trans h'.precedence, h.isUnary.trans h'.isUnary,
    h.isNumber.trans h'.isNumber, h.isPower.trans h'.isPower⟩

/-- A sign in front of trees that are alike. -/
theorem unary (h : Alike e e') : Alike (.unary op e) (.unary op e') := by
  refine ⟨?_, rfl, rfl, rfl, rfl⟩
  rw [Expr.render, Expr.render, h.render, h.precedence]

/-- An operator between operands that are written alike is written alike. -/
theorem binary (hleft : Alike left left') (hright : Alike right right') :
    Alike (.binary op left right implicit) (.binary op left' right' implicit) := by
  have hpower : ∀ (e₁ e₂ e₃ e₄ : Expr), (Expr.binary op e₁ e₂ implicit).isPower
      = (Expr.binary op e₃ e₄ implicit).isPower := by
    intros
    cases op <;> rfl
  refine ⟨?_, rfl, rfl, rfl, hpower _ _ _ _⟩
  rw [Expr.render, Expr.render]
  unfold binaryText rightOperand
  rw [hleft.render, hleft.precedence, hleft.isNumber, hleft.isPower, hright.render, hright.precedence,
    hright.isUnary]

/-- Arguments that are alike are written alike. -/
theorem renderAll {es es' : List Expr} (h : List.Forall₂ Alike es es') :
    Expr.renderAll es = Expr.renderAll es' := by
  induction h with
  | nil => rfl
  | cons h _ ih => rw [Expr.renderAll, Expr.renderAll, h.render, ih]

/-- A call with arguments that are written alike is written alike. -/
theorem call {function : Text} {es es' : List Expr} (h : List.Forall₂ Alike es es') :
    Alike (.call function es) (.call function es') := by
  refine ⟨?_, rfl, rfl, rfl, rfl⟩
  rw [Expr.render, Expr.render, renderAll h]
  -- Only an integral looks at its arguments, and only at the first one and at the bounds.
  unfold callText integrandText scriptText
  rcases h with _ | ⟨h₁, _ | ⟨_, _ | ⟨h₃, _ | ⟨h₄, _ | _⟩⟩⟩⟩
  · rfl
  · rfl
  · simp only [Expr.renderAll, h₁.precedence]
  · rfl
  · simp only [Expr.renderAll, h₁.precedence, h₃.precedence, h₄.precedence]
  · rfl

end Expr.Alike

/-! ## Regrouping to the left -/

namespace Operator

/-- The right operand of an operator, in parentheses where it needs them. -/
def rightText (op : Operator) (right : Expr) : Text :=
  parenthesizeIf (op.enclosesRight right) right.render

/-- What stands between the operands of an operator. -/
def between (op : Operator) (implicit : Bool) (left : Expr) (rightText : Text) : Text :=
  if op = times ∧ implicit = true then
    if left.isNumber && canGlue rightText then [] else [' ']
  else op.text

/-- The second operator, with its operands `b` and `c`, is written without parentheses on the right of the first
one, and nothing in the text changes if the first one is applied first. A big operator keeps the term that it
takes. -/
def regroups (op op' : Operator) (a b c : Expr) (implicit implicit' : Bool) : Bool :=
  !b.isUnary && !(Expr.binary op a b implicit).isBigTerm && !(Expr.binary op' b c implicit').isBigTerm
    && match op with
    | plus => op'.precedence = plus.precedence
    | times =>
      op' = times && !b.render.isEmpty && !(implicit' && (b.isNumber && canGlue (times.rightText c)))
    | _ => false

end Operator

namespace Expr

/-- The text of an operator, whether it is written or not. -/
theorem render_between (op : Operator) (left right : Expr) (implicit : Bool) :
    (binary op left right implicit).render
      = parenthesizeIf (op.enclosesLeft left) left.render
        ++ (op.between implicit left (op.rightText right) ++ op.rightText right) := by
  unfold Operator.between
  by_cases himplicit : op = .times ∧ implicit = true
  · rw [if_pos himplicit, himplicit.1, himplicit.2, render_juxtapose]
    unfold besideText Operator.rightText
    split <;> rfl
  · have hplain : (binary op left right implicit).render
        = binaryText op false left left.render right right.render := by
      rw [render]
      unfold binaryText
      cases op <;> simp_all
    rw [if_neg himplicit, hplain, binaryText_eq, Operator.rightText]

section Regroup

variable {op op' : Operator} {a b c : Expr} {implicit implicit' : Bool}

/-- The parts of a text are the same in both groupings. -/
theorem render_regroup (hleft : op'.enclosesLeft (binary op a b implicit) = false)
    (hright : op.enclosesRight (binary op' b c implicit') = false)
    (hmiddle : op.enclosesRight b = op'.enclosesLeft b)
    (hsecond : op'.between implicit' (binary op a b implicit) (op'.rightText c)
      = op'.between implicit' b (op'.rightText c))
    (hfirst : op.between implicit a (op.rightText b)
      = op.between implicit a (binary op' b c implicit').render) :
    (binary op' (binary op a b implicit) c implicit').render
      = (binary op a (binary op' b c implicit') implicit).render := by
  have hwhole : op.rightText (binary op' b c implicit') = (binary op' b c implicit').render := by
    rw [Operator.rightText, hright, parenthesizeIf, if_neg Bool.false_ne_true]
  have hplain : parenthesizeIf (op'.enclosesLeft (binary op a b implicit)) (binary op a b implicit).render
      = (binary op a b implicit).render := by
    rw [hleft, parenthesizeIf, if_neg Bool.false_ne_true]
  have hmiddle : op.rightText b = parenthesizeIf (op'.enclosesLeft b) b.render := by
    rw [Operator.rightText, hmiddle]
  calc (binary op' (binary op a b implicit) c implicit').render
    _ = (binary op a b implicit).render
          ++ (op'.between implicit' b (op'.rightText c) ++ op'.rightText c) := by
      rw [render_between, hplain, hsecond]
    _ = parenthesizeIf (op.enclosesLeft a) a.render
          ++ (op.between implicit a (binary op' b c implicit').render
            ++ (binary op' b c implicit').render) := by
      rw [render_between op a b, hfirst, hmiddle, render_between op' b c]
      simp only [List.append_assoc]
    _ = (binary op a (binary op' b c implicit') implicit).render := by
      rw [render_between op a, hwhole]

/-- What follows a text does not decide whether a number can be glued to it. -/
theorem canGlue_append {text : Text} (h : text ≠ []) (more : Text) : canGlue (text ++ more) = canGlue text := by
  obtain ⟨c, text, rfl⟩ := List.exists_cons_of_ne_nil h
  rfl

/-- **What is regrouped is written alike.** -/
theorem Alike.regroup (h : op.regroups op' a b c implicit implicit' = true) :
    Alike (.binary op' (.binary op a b implicit) c implicit')
      (.binary op a (.binary op' b c implicit') implicit) := by
  unfold Operator.regroups at h
  simp only [Bool.and_eq_true, Bool.not_eq_true'] at h
  obtain ⟨⟨⟨hunary, -⟩, -⟩, h⟩ := h
  cases op with
  | plus =>
    have hprecedence : op'.precedence = Operator.plus.precedence := of_decide_eq_true h
    have hmiddle : Operator.plus.enclosesRight b = decide (b.precedence < op'.precedence) := by
      rw [hprecedence]
      simp [Operator.enclosesRight, Operator.isNonAssociative, hunary]
    cases op' <;> first
      | (cases hprecedence; done)
      | exact ⟨render_regroup rfl rfl hmiddle rfl rfl, rfl, rfl, rfl, rfl⟩
  | times =>
    simp only [Bool.and_eq_true, decide_eq_true_eq, Bool.not_eq_true', List.isEmpty_eq_false_iff] at h
    obtain ⟨⟨rfl, hempty⟩, hglue⟩ := h
    have hmiddle : Operator.times.enclosesRight b = Operator.times.enclosesLeft b := by
      simp [Operator.enclosesRight, Operator.enclosesLeft, Operator.isNonAssociative, hunary]
    refine ⟨render_regroup rfl rfl hmiddle ?_ ?_, rfl, rfl, rfl, rfl⟩
    · -- A product is no number, and the middle one is not glued either.
      unfold Operator.between
      cases implicit' with
      | false => rfl
      | true =>
        rw [Bool.true_and] at hglue
        rw [hglue]
        rfl
    · -- The right side starts with its left operand.
      have hright : Operator.times.rightText b ≠ [] := by
        unfold Operator.rightText parenthesizeIf
        split
        · exact List.cons_ne_nil _ _
        · exact hempty
      have hglued : canGlue (Expr.binary .times b c implicit').render
          = canGlue (Operator.times.rightText b) := by
        rw [render_between, ← hmiddle]
        exact canGlue_append hright _
      unfold Operator.between
      rw [hglued]
  | _ => cases h

end Regroup

/-- The operator with its operands, the right one taken apart to the left as far as the text stays the
same. -/
def joinLeft (op : Operator) (implicit : Bool) (left : Expr) : Expr → Expr
  | binary op' b c implicit' =>
    if op.regroups op' left b c implicit implicit' then binary op' (joinLeft op implicit left b) c implicit'
    else binary op left (binary op' b c implicit') implicit
  | right => binary op left right implicit

/-- An operator handed down the left sides of its right operand leaves the text as it is. -/
theorem joinLeft_alike (op : Operator) (implicit : Bool) (left right : Expr) :
    Alike (joinLeft op implicit left right) (binary op left right implicit) := by
  induction right using joinLeft.induct op implicit left with
  | case1 op' b c implicit' h ih =>
    rw [joinLeft, if_pos h]
    exact (Alike.binary ih (.refl c)).trans (.regroup h)
  | case2 op' b c implicit' h =>
    rw [joinLeft, if_neg h]
    exact .refl _
  | case3 right h =>
    cases right with
    | binary => exact absurd rfl (h _ _ _ _)
    | _ => exact .refl _

mutual

/-- A tree that is regrouped to the left, as far as the text stays the same. -/
def regroup : Expr → Expr
  | number digits => number digits
  | name text => name text
  | verbatim text => verbatim text
  | unary op operand => unary op operand.regroup
  | binary op left right implicit => joinLeft op implicit left.regroup right.regroup
  | call function arguments => call function (regroupAll arguments)

/-- Trees that are regrouped one by one. -/
def regroupAll : List Expr → List Expr
  | [] => []
  | e :: es => e.regroup :: regroupAll es

end

mutual

/-- **A regrouped tree is written alike.** -/
theorem regroup_alike : (e : Expr) → Alike e.regroup e
  | number _ | name _ | verbatim _ => .refl _
  | unary _ operand => (regroup_alike operand).unary
  | binary op left right implicit =>
    (joinLeft_alike op implicit left.regroup right.regroup).trans
      ((regroup_alike left).binary (regroup_alike right))
  | call _ arguments => .call (regroupAll_alike arguments)

/-- Regrouping every argument leaves their texts as they are. -/
theorem regroupAll_alike : (es : List Expr) → List.Forall₂ Alike (regroupAll es) es
  | [] => .nil
  | e :: es => .cons (regroup_alike e) (regroupAll_alike es)

end

end Expr

/-! ## What is written again -/

/-- A tree whose regrouped tree can be told from others by its text is read as the regrouped tree. -/
theorem Unambiguous.parse_regroup {e : Expr} (h : Unambiguous e.regroup)
    (hnames : keepsNames [] e.regroup.row = true) (hnesting : parenDepth e.render ≤ maxNesting) :
    parse e.render = .ok e.regroup := by
  rw [← (Expr.regroup_alike e).render] at hnesting ⊢
  exact parse_of_unambiguous h hnames hnesting

/-- **A text stays as it is** when the regrouped tree can be told from others by it: it is read as that tree,
which is written as the same text. -/
theorem Unambiguous.stable_of_regroup {e : Expr} (h : Unambiguous e.regroup)
    (hnames : keepsNames [] e.regroup.row = true) (hnesting : parenDepth e.render ≤ maxNesting) :
    parse e.render = .ok e.regroup ∧ e.regroup.render = e.render :=
  ⟨h.parse_regroup hnames hnesting, (Expr.regroup_alike e).render⟩

/-- A sum with a difference and a product with a product on the right, all of which are regrouped. -/
def nestedSum : Expr :=
  .binary .plus (.name ['a']) (.binary .minus (.name ['b'])
    (.binary .times (.name ['c']) (.binary .times (.name ['d']) (.name ['e']) false) false) false) false

/-- The sum of the example can be told from others once it is regrouped. -/
theorem nestedSum_unambiguous : Unambiguous nestedSum.regroup := by
  have hname : ∀ c : Char, c.isAlpha = true → PlainTree (.name [c]) := fun c hc => .name (.letter hc)
  have hkeeps : ∀ {left : Expr} (c : Char), Operator.times.Keeps left (.name [c]) := fun _ => by
    change Expr.atomPrecedence ≠ Operator.times.precedence
    decide
  have hsum : PlainTree (.binary .plus (.name ['a']) (.name ['b']) false) :=
    .operator (by decide) ⟨by decide, by decide⟩ (hname 'a' (by decide)) (hname 'b' (by decide))
  have hproduct : PlainTree (.binary .times (.name ['c']) (.name ['d']) false) :=
    .operator (by decide) (hkeeps 'd') (hname 'c' (by decide)) (hname 'd' (by decide))
  have hproducts : PlainTree
      (.binary .times (.binary .times (.name ['c']) (.name ['d']) false) (.name ['e']) false) :=
    .operator (by decide) (hkeeps 'e') hproduct (hname 'e' (by decide))
  have hdifference : PlainTree nestedSum.regroup :=
    @PlainTree.operator .minus _ _ (by decide) trivial hsum hproducts
  exact hdifference.unambiguous

/-- The theorem at `nestedSum`. -/
theorem Unambiguous.stable_of_regroup_nested :
    parse "a+(b-c*(d*e))".toList = .ok (.binary .plus (.name ['a']) (.binary .minus (.name ['b'])
        (.binary .times (.name ['c']) (.binary .times (.name ['d']) (.name ['e']) false) false) false) false)
      ∧ parse "a+b-c*d*e".toList = .ok (.binary .minus (.binary .plus (.name ['a']) (.name ['b']) false)
        (.binary .times (.binary .times (.name ['c']) (.name ['d']) false) (.name ['e']) false) false)
      ∧ Expr.render? (.binary .minus (.binary .plus (.name ['a']) (.name ['b']) false)
        (.binary .times (.binary .times (.name ['c']) (.name ['d']) false) (.name ['e']) false) false)
        = some "a+b-c*d*e".toList := by
  have hrender : nestedSum.render = "a+b-c*d*e".toList := Expr.render_of_render? (by cbv)
  have hnesting : parenDepth nestedSum.render ≤ maxNesting := by
    rw [hrender]
    decide
  obtain ⟨hread, hsame⟩ := Unambiguous.stable_of_regroup nestedSum_unambiguous (by decide) hnesting
  rw [hrender] at hread hsame
  have hdepth : nestedSum.regroup.depth ≤ Expr.maxDepth := by decide
  have hwritten : nestedSum.regroup.render? = some "a+b-c*d*e".toList := by
    rw [Expr.render?, if_pos hdepth, hsame]
  exact ⟨by cbv, hread, hwritten⟩

/-- A text whose rendering cannot be read, or is not rendered as it stands. -/
def Unstable (text : Text) : Prop :=
  ∃ tree rendered, parse text = .ok tree ∧ tree.render? = some rendered
    ∧ ∀ tree', parse rendered = .ok tree' → tree'.render? ≠ some rendered

namespace Unstable

variable {text : Text} {tree tree' : Expr} {e : ParseError}

/-- A text is unstable when what is rendered for it cannot be read. -/
theorem of_error (rendered : Text) (hparse : parse text = .ok tree) (htext : tree.render? = some rendered)
    (herror : parse rendered = .error e) : Unstable text := by
  refine ⟨tree, rendered, hparse, htext, fun tree' hread => ?_⟩
  rw [herror] at hread
  cases hread

/-- A text is unstable when what is read again is rendered in another way. -/
theorem of_ne (rendered other : Text) (hparse : parse text = .ok tree) (htext : tree.render? = some rendered)
    (hread : parse rendered = .ok tree') (hother : tree'.render? = some other) (hne : other ≠ rendered) :
    Unstable text := by
  refine ⟨tree, rendered, hparse, htext, fun tree'' hread' hsame => ?_⟩
  obtain rfl : tree' = tree'' := Except.ok.inj (hread.symm.trans hread')
  exact hne (Option.some.inj (hother.symm.trans hsame))

end Unstable

/-- A quotient on the right of a product, a function that comes to stand in front of an operand, a product
that comes to be a differential, and a bound that comes to be a call. -/
theorem unstable_texts : Unstable "a*(b/c)".toList ∧ Unstable "(sin) x".toList
    ∧ Unstable "int (dx) dy".toList ∧ Unstable "int_0^(b) (x+1) dx".toList := by
  refine ⟨?_, ?_, ?_, ?_⟩
  · exact .of_ne "a*(b)/(c)".toList "(a*b)/(c)".toList (by cbv) (by cbv) (by cbv)
      (by cbv) (by decide)
  · exact .of_ne "sin x".toList "sin(x)".toList (by cbv) (by cbv) (by cbv)
      (by cbv) (by decide)
  · exact .of_error "int dx d y".toList (by cbv) (by cbv) (by cbv)
  · exact .of_error "int_0^b (x+1) d x".toList (by cbv) (by cbv) (by cbv)

end MathScribe

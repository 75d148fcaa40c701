/-
Every tree that is read has a form of its own.

The writer takes any tree, also one that was put together by hand, and so it has something to fall back on: a
ready-made text is written as it is, an integral with a wrong number of arguments like any other call, and an
operator that it does not know binds least of all. This file says that none of this happens to the tree of a
formula. `Expr.HasForm` lists, for each kind of node, what the writer takes for granted there, and every node of a
tree that is read is of that kind (`forms_of_parse`).

That the fallbacks are not reached is said about the writing itself. `Expr.renderWith` writes a tree with any other
texts in their place, and the text of the tree of a formula does not change.
-/
import MathScribe.Proofs.Reading.Formed
import MathScribe.Proofs.Reading.Summand

set_option autoImplicit false

namespace MathScribe

/-! ## Nodes that have a form -/

/-- What the writer takes for granted at a node. -/
def Expr.HasForm : Expr → Prop
  | number digits => digits ≠ [] ∧ Symbol.NumberText digits
  | name text => IsWord text ∧ text ≠ integralWord
  | unary op _ => op = .minus ∨ op = .plusMinus
  | binary op _ _ implicit => op ∈ Operator.all ∧ (implicit = true → op = .times)
  | call function arguments =>
    IsWord function
      ∧ (function = integralWord → (arguments.length = 2 ∨ arguments.length = 4)
        ∧ ∃ v, arguments[1]? = some (name v))
      ∧ (function = rootWord → arguments.length = 1 ∨ arguments.length = 2)
  | verbatim _ => False

/-- An operator of a formula has a precedence. -/
theorem Operator.precedence_pos {op : Operator} (h : op ∈ Operator.all) : 0 < op.precedence := by
  have hall : ∀ op ∈ Operator.all, 0 < op.precedence := by decide
  exact hall op h

theorem Expr.HasForm.precedence_pos {e : Expr} (h : e.HasForm) : 0 < e.precedence := by
  cases e with
  | binary op left right implicit => exact Operator.precedence_pos h.1
  | unary op operand => exact Nat.zero_lt_succ _
  | _ => exact Nat.zero_lt_succ _

namespace Formed

/-- The root of the tree of a formula. -/
theorem hasForm {e : Expr} (h : Formed e) : e.HasForm := by
  cases h with
  | number hne hdigits => exact ⟨hne, hdigits⟩
  | name hword hne => exact ⟨hword, hne⟩
  | sign hop _ => exact hop
  | operator hop _ _ => exact ⟨hop, nofun⟩
  | beside _ _ => exact ⟨by decide, fun _ => rfl⟩
  | call hcallee _ =>
    exact ⟨hcallee.word, fun heq => absurd heq hcallee.ne.1, fun heq => absurd heq hcallee.ne.2⟩
  | rootOne _ => exact ⟨isWord_rootWord, fun heq => absurd heq (by decide), fun _ => .inl rfl⟩
  | rootTwo _ _ => exact ⟨isWord_rootWord, fun heq => absurd heq (by decide), fun _ => .inr rfl⟩
  | integral _ _ =>
    exact ⟨isWord_integralWord, fun _ => ⟨.inl rfl, _, rfl⟩, fun heq => absurd heq (by decide)⟩
  | integralBounds _ _ _ _ =>
    exact ⟨isWord_integralWord, fun _ => ⟨.inr rfl, _, rfl⟩, fun heq => absurd heq (by decide)⟩

/-- The variable of an integral is a name that a formula can contain. -/
theorem variableName {v : Text} (h : PlainName v) : Formed (.name v) :=
  .name h.word (Callee.plain h).ne.1

/-- All parts of the tree of a formula are trees of formulas. -/
theorem parts {e : Expr} (h : Formed e) : ∀ part ∈ e.parts, Formed part := by
  have hcall : ∀ {function : Text} {arguments : List Expr}, Formed (.call function arguments) →
      (∀ argument ∈ arguments, ∀ part ∈ argument.parts, Formed part) →
      ∀ part ∈ (Expr.call function arguments).parts, Formed part := by
    intro function arguments hwhole hbelow
    refine List.forall_mem_cons.mpr ⟨hwhole, fun part hpart => ?_⟩
    obtain ⟨argument, hargument, hmem⟩ := Expr.mem_partsAll.mp hpart
    exact hbelow argument hargument part hmem
  have hname : ∀ {v : Text}, PlainName v → ∀ part ∈ (Expr.name v).parts, Formed part :=
    fun hv => List.forall_mem_singleton.mpr (.variableName hv)
  induction h with
  | number hne hdigits => exact List.forall_mem_singleton.mpr (.number hne hdigits)
  | name hword hne => exact List.forall_mem_singleton.mpr (.name hword hne)
  | sign hop hoperand ih => exact List.forall_mem_cons.mpr ⟨.sign hop hoperand, ih⟩
  | operator hop hleft hright ihl ihr =>
    exact List.forall_mem_cons.mpr ⟨.operator hop hleft hright, List.forall_mem_append.mpr ⟨ihl, ihr⟩⟩
  | beside hleft hright ihl ihr =>
    exact List.forall_mem_cons.mpr ⟨.beside hleft hright, List.forall_mem_append.mpr ⟨ihl, ihr⟩⟩
  | call hcallee harguments ih => exact hcall (.call hcallee harguments) ih
  | rootOne hradicand ih => exact hcall (.rootOne hradicand) (List.forall_mem_singleton.mpr ih)
  | rootTwo hindex hradicand ihi ihr =>
    exact hcall (.rootTwo hindex hradicand) (by simpa using ⟨ihi, ihr⟩)
  | integral hv hintegrand ih =>
    exact hcall (.integral hv hintegrand) (by simpa using ⟨ih, hname hv⟩)
  | integralBounds hv hintegrand hlower hupper ih ihl ihu =>
    exact hcall (.integralBounds hv hintegrand hlower hupper) (by simpa using ⟨ih, hname hv, ihl, ihu⟩)

end Formed

/-! ## Writing without fallbacks -/

/-- What is written where no form fits. -/
structure Fallbacks where
  /-- What stands for a ready-made text. -/
  verbatim : Text → Text
  /-- What stands for an integral that has neither two arguments nor four, given their texts. -/
  integral : List Text → Text

/-- The fallbacks of the writer: a ready-made text as it is, and an integral like any other call. -/
def Fallbacks.standard : Fallbacks where
  verbatim text := text
  integral texts := integralWord ++ parenthesizeIf true (commaSeparated texts)

namespace Expr

mutual

/-- The text of a tree, with other fallbacks than those of the writer. -/
def renderWith (fallbacks : Fallbacks) : Expr → Text
  | number digits => digits
  | name text => text
  | verbatim text => fallbacks.verbatim text
  | unary op operand =>
    op.text ++ parenthesizeIf (operand.precedence ≤ signPrecedence) (operand.renderWith fallbacks)
  | binary op left right implicit =>
    binaryText op implicit left (left.renderWith fallbacks) right (right.renderWith fallbacks)
  | call function arguments =>
    if function = integralWord ∧ arguments.length ≠ 2 ∧ arguments.length ≠ 4 then
      fallbacks.integral (renderAllWith fallbacks arguments)
    else callText function arguments (renderAllWith fallbacks arguments)

/-- The texts of a row of trees. -/
def renderAllWith (fallbacks : Fallbacks) : List Expr → List Text
  | [] => []
  | e :: es => e.renderWith fallbacks :: renderAllWith fallbacks es

end

/-- An integral without a form is written like any other call. -/
theorem callText_integral_of_ne {arguments : List Expr} (texts : List Text) (htwo : arguments.length ≠ 2)
    (hfour : arguments.length ≠ 4) :
    callText integralWord arguments texts = Fallbacks.standard.integral texts := by
  unfold callText
  rw [if_pos rfl]
  split
  · exact absurd rfl htwo
  · exact absurd rfl hfour
  · rfl

mutual

/-- With its own fallbacks the writer writes what it writes. -/
theorem renderWith_standard : (e : Expr) → e.renderWith .standard = e.render
  | number _ | name _ | verbatim _ => by simp only [renderWith, render, Fallbacks.standard]
  | unary op operand => by rw [renderWith, render, renderWith_standard operand]
  | binary op left right implicit => by
    rw [renderWith, render, renderWith_standard left, renderWith_standard right]
  | call function arguments => by
    rw [renderWith, render, renderAllWith_standard arguments]
    split
    · next h =>
      obtain ⟨rfl, htwo, hfour⟩ := h
      exact (callText_integral_of_ne _ htwo hfour).symm
    · rfl

theorem renderAllWith_standard : (es : List Expr) → renderAllWith .standard es = renderAll es
  | [] => by rw [renderAllWith, renderAll]
  | e :: es => by rw [renderAllWith, renderAll, renderWith_standard e, renderAllWith_standard es]

end

mutual

/-- Where every node has a form, the fallbacks make no difference. -/
theorem renderWith_congr (fallbacks others : Fallbacks) :
    (e : Expr) → (∀ part ∈ e.parts, part.HasForm) → e.renderWith fallbacks = e.renderWith others
  | number _, _ | name _, _ => by simp only [renderWith]
  | verbatim text, h => absurd (h _ (mem_parts_self _)) not_false
  | unary op operand, h => by
    rw [renderWith, renderWith, renderWith_congr fallbacks others operand (List.forall_mem_cons.mp h).2]
  | binary op left right implicit, h => by
    obtain ⟨hleft, hright⟩ := List.forall_mem_append.mp (List.forall_mem_cons.mp h).2
    rw [renderWith, renderWith, renderWith_congr fallbacks others left hleft,
      renderWith_congr fallbacks others right hright]
  | call function arguments, h => by
    obtain ⟨⟨-, hintegral, -⟩, hbelow⟩ := List.forall_mem_cons.mp h
    have hform : ¬(function = integralWord ∧ arguments.length ≠ 2 ∧ arguments.length ≠ 4) := by
      rintro ⟨heq, htwo, hfour⟩
      exact (hintegral heq).1.elim htwo hfour
    rw [renderWith, renderWith, if_neg hform, if_neg hform,
      renderAllWith_congr fallbacks others arguments hbelow]

theorem renderAllWith_congr (fallbacks others : Fallbacks) :
    (es : List Expr) → (∀ part ∈ partsAll es, part.HasForm) →
      renderAllWith fallbacks es = renderAllWith others es
  | [], _ => by rw [renderAllWith, renderAllWith]
  | e :: es, h => by
    obtain ⟨hfirst, hrest⟩ := List.forall_mem_append.mp h
    rw [renderAllWith, renderAllWith, renderWith_congr fallbacks others e hfirst,
      renderAllWith_congr fallbacks others es hrest]

end

end Expr

/-- **Every tree that is read has a form of its own.** Each node is as `serialize` takes it for granted: a
number is written as one, a name is a word and does not open an integral, a sign is a minus or a plus-or-minus,
an operator is one of the fourteen and only a product can do without its sign, an integral has its variable and
no bounds or both, and a root has one group or two. So each node has a precedence, and whatever the writer would
fall back on, the text is the same. -/
theorem forms_of_parse {text : Text} {tree : Expr} (h : parse text = .ok tree) :
    (∀ node ∈ tree.parts, node.HasForm ∧ 0 < node.precedence)
      ∧ ∀ fallbacks, tree.renderWith fallbacks = tree.render := by
  have hforms : ∀ node ∈ tree.parts, node.HasForm := fun node hnode =>
    ((formed_of_parse h).parts node hnode).hasForm
  refine ⟨fun node hnode => ⟨hforms node hnode, (hforms node hnode).precedence_pos⟩, fun fallbacks => ?_⟩
  rw [Expr.renderWith_congr fallbacks .standard tree hforms, Expr.renderWith_standard]

/-- An integral with the upper bound first, a root with two groups, and a differential of two names: the integral
has its form, and other fallbacks leave the text alone. -/
theorem forms_of_parse_integral :
    parse "int^n_0 2root(3)(x) d x".toList = .ok (.call integralWord
        [.juxtapose (.number ['2']) (.call rootWord [.number ['3'], .name ['x']]), .name ['x'], .number ['0'],
          .name ['n']])
      ∧ (Expr.call rootWord [.number ['3'], .name ['x']]).HasForm
      ∧ Expr.renderWith ⟨fun _ => [], fun _ => []⟩ (.call integralWord
        [.juxtapose (.number ['2']) (.call rootWord [.number ['3'], .name ['x']]), .name ['x'], .number ['0'],
          .name ['n']]) = "int_0^n 2root(3)(x) d x".toList := by
  have hparse : parse "int^n_0 2root(3)(x) d x".toList = .ok (.call integralWord
      [.juxtapose (.number ['2']) (.call rootWord [.number ['3'], .name ['x']]), .name ['x'], .number ['0'],
        .name ['n']]) := by
    cbv
  obtain ⟨hforms, htext⟩ := forms_of_parse hparse
  refine ⟨hparse, (hforms _ ?_).1, ?_⟩
  · simp [Expr.parts, Expr.partsAll]
  · rw [htext]
    cbv

end MathScribe

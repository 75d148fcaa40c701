/-
Chains of operators.

A chain is a row of numbers and names with operators between them, and what it means is said twice. The reader
makes it a tree through one phrase for each level of precedence. The rules say which tree it should be: it has
the operands and the operators in their order (`Expr.inorder`), and below every operator stands only what binds
tightly enough on that side (`Expr.Ranked`).

Both say the same. There is a tree of that kind for every chain, since an operator with its operand can be
attached behind such a tree: it goes down on the right as long as it binds more tightly than what it meets
(`Expr.attach`). And every such tree is what is read of its own row, one lemma of `ReadsAt` for each level
(`Expr.Ranked.readsAt`). A row is read in one way, so there is no other tree of that kind.
-/
import MathScribe.Proofs.Reading.Span

set_option autoImplicit false

namespace MathScribe

/-! ## Chains -/

/-- A number, or a name that is not a word with a meaning of its own. -/
inductive Operand
  | number (digits : Text) (nonempty : digits ≠ []) (isNumber : Symbol.NumberText digits)
  | name (text : Text) (plain : PlainName text)

namespace Operand

def text : Operand → Text
  | number digits .. => digits
  | name text _ => text

def tree : Operand → Expr
  | number digits .. => .number digits
  | name text _ => .name text

end Operand

/-- The operators of chains: all but the subscript. -/
def chainOperators : List Operator :=
  Operator.all.erase .subscript

/-- An operator of a chain, with the operand behind it. -/
structure Link where
  op : Operator
  isChain : op ∈ chainOperators
  operand : Operand

/-- Operands with an operator between each two of them. -/
structure Chain where
  first : Operand
  links : List Link

namespace Chain

/-- The links of a chain, with blanks around their operators. -/
def linksText (links : List Link) : Text :=
  links.flatMap fun link => ' ' :: (link.op.text ++ ' ' :: link.operand.text)

/-- A chain as it is written, with blanks between all its operands and operators. -/
def text (chain : Chain) : Text :=
  chain.first.text ++ linksText chain.links

end Chain

/-! ## Ranked trees -/

namespace Expr

/-- The level of a tree with an operator at its root. A leaf has no level. -/
def level? : Expr → Option Nat
  | binary op _ _ false => some op.precedence
  | _ => none

/-- The operands of a tree from left to right, each but the first with the operator in front of it. -/
def inorder : Expr → Expr × List (Operator × Expr)
  | binary op left right false => (left.inorder.1, left.inorder.2 ++ (op, right.inorder.1) :: right.inorder.2)
  | e => (e, [])

/-- Every operator has on its left only what binds at least as tightly, and on its right only what binds more
tightly. Powers go the other way: they have a leaf on the left, and a leaf or a power on the right. -/
def Ranked : Expr → Prop
  | binary op left right false =>
    left.Ranked ∧ right.Ranked ∧
      if op.precedence < 5 then
        (∀ level ∈ left.level?, op.precedence ≤ level) ∧ ∀ level ∈ right.level?, op.precedence < level
      else left.level? = none ∧ ∀ level ∈ right.level?, level = 5
  | _ => True

/-- A tree with another operator and operand behind it. -/
def attach : Expr → Operator → Expr → Expr
  | binary root left right false, op, operand =>
    if root.precedence < op.precedence ∨ (root.precedence = 5 ∧ op.precedence = 5) then
      binary root left (right.attach op operand) false
    else binary op (binary root left right false) operand false
  | e, op, operand => binary op e operand false

/-- A leaf is alone in its order, ranked, and the left side of what is attached to it. -/
theorem of_leaf {e : Expr} (h : e.level? = none) :
    e.inorder = (e, []) ∧ e.Ranked ∧ ∀ op operand, e.attach op operand = binary op e operand false := by
  cases e with
  | binary op left right implicit =>
    cases implicit with
    | true => exact ⟨rfl, trivial, fun _ _ => rfl⟩
    | false => cases h
  | _ => exact ⟨rfl, trivial, fun _ _ => rfl⟩

/-- A tree is a leaf or has an operator at its root. -/
theorem leaf_or_operator (e : Expr) :
    e.level? = none ∨ ∃ op left right, e = binary op left right false := by
  cases e with
  | binary op left right implicit =>
    cases implicit with
    | true => exact .inl rfl
    | false => exact .inr ⟨op, left, right, rfl⟩
  | _ => exact .inl rfl

/-! ## Attaching an operator -/

variable {e operand : Expr} {op : Operator}

/-- What is attached to a tree stands behind all of it. -/
theorem inorder_attach (hoperand : operand.level? = none) :
    (e.attach op operand).inorder = (e.inorder.1, e.inorder.2 ++ [(op, operand)]) := by
  obtain ⟨hleaf, -⟩ := of_leaf hoperand
  induction e using inorder.induct with
  | case1 root left right _ ih =>
    rw [attach]
    split
    · simp [inorder, ih]
    · simp [inorder, hleaf]
  | case2 e hroot =>
    rcases e.leaf_or_operator with he | ⟨root, left, right, rfl⟩
    · obtain ⟨horder, -, hattach⟩ := of_leaf he
      simp [hattach, inorder, horder, hleaf]
    · exact absurd rfl (hroot root left right)

/-- The root stays what it is, or becomes what is attached. -/
theorem level?_attach : ∀ level ∈ (e.attach op operand).level?, level = op.precedence ∨ level ∈ e.level? := by
  rcases e.leaf_or_operator with he | ⟨root, left, right, rfl⟩
  · obtain ⟨-, -, hattach⟩ := of_leaf he
    rw [hattach]
    rintro level ⟨⟩
    exact .inl rfl
  · rw [attach]
    split
    · exact fun level hlevel => .inr hlevel
    · rintro level ⟨⟩
      exact .inl rfl

end Expr

/-- No operator between operands binds as tightly as an atom. -/
theorem Operator.precedence_le (op : Operator) : op.precedence ≤ 5 := by
  cases op <;> simp [precedence]

/-- **Attaching keeps a tree ranked.** -/
theorem Expr.Ranked.attach {e operand : Expr} (h : e.Ranked) (op : Operator) (hoperand : operand.level? = none) :
    (e.attach op operand).Ranked := by
  obtain ⟨-, hleaf, -⟩ := of_leaf hoperand
  have hle := op.precedence_le
  -- The operator walks down the right edge until it meets one that binds more loosely.
  induction e using inorder.induct with
  | case1 root left right _ ih =>
    obtain ⟨hleft, hright, hlevels⟩ := h
    have hroot := root.precedence_le
    rw [Expr.attach]
    split
    · -- What is attached goes to the right, where it binds more tightly than the root, or both are powers.
      next hdown =>
      refine ⟨hleft, ih hright, ?_⟩
      split at hlevels
      · next hloose =>
        rw [if_pos hloose]
        refine ⟨hlevels.1, fun level hlevel => ?_⟩
        rcases level?_attach level hlevel with rfl | hlevel
        · omega
        · exact hlevels.2 level hlevel
      · next hpower =>
        rw [if_neg hpower]
        refine ⟨hlevels.1, fun level hlevel => ?_⟩
        rcases level?_attach level hlevel with rfl | hlevel
        · omega
        · exact hlevels.2 level hlevel
    · -- The whole tree becomes the left side, under an operator that is no power.
      next hup =>
      refine ⟨⟨hleft, hright, hlevels⟩, hleaf, ?_⟩
      rw [if_pos (by omega), hoperand]
      refine ⟨?_, nofun⟩
      rintro level ⟨⟩
      omega
  | case2 e hroot =>
    rcases e.leaf_or_operator with he | ⟨root, left, right, rfl⟩
    · obtain ⟨-, hranked, hattach⟩ := of_leaf he
      rw [hattach]
      refine ⟨hranked, hleaf, ?_⟩
      rw [he, hoperand]
      split
      · exact ⟨nofun, nofun⟩
      · exact ⟨rfl, nofun⟩
    · exact absurd rfl (hroot root left right)

/-! ## The tree of a chain -/

namespace Operand

/-- An operand has no operator of its own. -/
theorem level?_tree (a : Operand) : a.tree.level? = none := by
  cases a <;> rfl

/-- An operand is written with one symbol. -/
theorem row_tree (a : Operand) :
    a.tree.row = [match a with
      | number digits .. => .number digits
      | name text _ => .name text] := by
  cases a with
  | number digits => rfl
  | name text plain => exact congrArg ([·]) plain.ofWord

/-- An operand is read in front of everything but a parenthesis. -/
theorem readsAt (a : Operand) : ReadsAt Symbol.isOpen a.tree.row a.tree 6 := by
  rw [row_tree]
  cases a with
  | number digits => exact .number digits
  | name text => exact .name text

/-- An operand is an ending. -/
theorem ending (a : Operand) : Ending [] a.text a.tree.row := by
  rw [row_tree]
  cases a with
  | number digits nonempty isNumber =>
    exact ⟨_, (Spells.number nonempty isNumber).symbols, .symbol rfl rfl .nil, by
      simp [greatestDepth, Symbol.weight, Closing.depthOf, maxNesting]⟩
  | name text plain => exact .of_stretch (.name plain) (by decide)

end Operand

namespace Chain

/-- The operands and operators of a chain in their order. -/
def sequence (chain : Chain) : Expr × List (Operator × Expr) :=
  (chain.first.tree, chain.links.map fun link => (link.op, link.operand.tree))

/-- The tree of a chain: its links are attached one after the other. -/
def tree (chain : Chain) : Expr :=
  chain.links.foldl (fun e link => e.attach link.op link.operand.tree) chain.first.tree

/-- Attaching links one after another keeps the tree ranked, and the links come behind the operands and
operators that it has already. -/
theorem ranked_and_inorder_foldl (links : List Link) {e : Expr} (he : e.Ranked) :
    (links.foldl (fun e link => e.attach link.op link.operand.tree) e).Ranked
      ∧ (links.foldl (fun e link => e.attach link.op link.operand.tree) e).inorder
        = (e.inorder.1, e.inorder.2 ++ links.map fun link => (link.op, link.operand.tree)) := by
  induction links generalizing e with
  | nil => exact ⟨he, by simp⟩
  | cons link links ih =>
    obtain ⟨hranked, horder⟩ := ih (he.attach link.op link.operand.level?_tree)
    refine ⟨hranked, ?_⟩
    rw [List.foldl_cons, horder, Expr.inorder_attach link.operand.level?_tree]
    simp

/-- **There is a ranked tree for every chain.** -/
theorem ranked_tree (chain : Chain) : chain.tree.Ranked ∧ chain.tree.inorder = chain.sequence := by
  obtain ⟨hleaf, hranked, -⟩ := Expr.of_leaf chain.first.level?_tree
  have hall := ranked_and_inorder_foldl chain.links hranked
  rw [hleaf] at hall
  exact hall

end Chain

/-! ## Reading ranked trees -/

/-- The symbols of operands and operators in a row. -/
def sequenceRow (sequence : Expr × List (Operator × Expr)) : List Symbol :=
  sequence.1.row ++ sequence.2.flatMap fun next => next.1.symbol :: next.2.row

/-- The symbols of a tree in order: those of the left operand, the operator, those of the right one. -/
theorem sequenceRow_inorder (op : Operator) (left right : Expr) :
    sequenceRow (Expr.binary op left right false).inorder
      = sequenceRow left.inorder ++ op.symbol :: sequenceRow right.inorder := by
  simp [sequenceRow, Expr.inorder]

/-- Operands that are read alone, with operators of chains between them. -/
def IsReadable (sequence : Expr × List (Operator × Expr)) : Prop :=
  ReadsAt Symbol.isOpen sequence.1.row sequence.1 6
    ∧ ∀ next ∈ sequence.2, next.1 ∈ chainOperators ∧ ReadsAt Symbol.isOpen next.2.row next.2 6

/-- The operands of a tree with a readable sequence have readable sequences. -/
theorem IsReadable.of_inorder {op : Operator} {left right : Expr}
    (h : IsReadable (Expr.binary op left right false).inorder) :
    IsReadable left.inorder ∧ op ∈ chainOperators ∧ IsReadable right.inorder := by
  obtain ⟨hfirst, hrest⟩ := h
  simp only [Expr.inorder, List.forall_mem_append, List.forall_mem_cons] at hrest
  obtain ⟨hleft, ⟨hop, hmiddle⟩, hright⟩ := hrest
  exact ⟨⟨hfirst, hleft⟩, hop, hmiddle, hright⟩

/-- The operators of chains bind like a relation, a sum, a product or a power. The table is gone through.
-/
theorem precedence_of_mem_chainOperators : ∀ op ∈ chainOperators,
    op ∈ Operator.all ∧ 1 ≤ op.precedence ∧ (op.precedence ≤ 3 ∨ op = .power) := by
  decide

/-- No operator is a parenthesis. -/
theorem Operator.not_isOpen_symbol (op : Operator) : op.symbol.isOpen = false := by
  cases op <;> rfl

/-- How tightly a tree binds: a leaf more tightly than every operator. -/
theorem Expr.le_level {e : Expr} {p : Nat} (h : ∀ level ∈ e.level?, p ≤ level) (hp : p ≤ 6) :
    p ≤ e.level?.getD 6 ∧ e.level?.getD 6 ≤ 6 := by
  rcases e.leaf_or_operator with he | ⟨op, left, right, rfl⟩
  · rw [he]
    exact ⟨hp, Nat.le_refl 6⟩
  · exact ⟨h _ rfl, Nat.le_succ_of_le op.precedence_le⟩

/-- **A ranked tree is read of its own row**, at its level, and a leaf as a primary. -/
theorem Expr.Ranked.readsAt {e : Expr} (h : e.Ranked) (hreadable : IsReadable e.inorder) :
    ReadsAt Symbol.isOpen (sequenceRow e.inorder) e (e.level?.getD 6) := by
  induction e using inorder.induct with
  | case1 op left right ihl ihr =>
    obtain ⟨hleft, hright, hlevels⟩ := h
    obtain ⟨hreadableL, hop, hreadableR⟩ := hreadable.of_inorder
    have hreadsL := ihl hleft hreadableL
    have hreadsR := ihr hright hreadableR
    obtain ⟨hall, hpositive, hloose | rfl⟩ := precedence_of_mem_chainOperators op hop
    · rw [if_pos (by omega)] at hlevels
      obtain ⟨hlevelL, hleL⟩ := le_level hlevels.1 (by omega)
      obtain ⟨hlevelR, hleR⟩ := le_level hlevels.2 (by omega)
      rw [sequenceRow_inorder]
      exact .operator hall hloose op.not_isOpen_symbol (hreadsL.loosen hpositive hlevelL hleL)
        (hreadsR.loosen (Nat.succ_pos _) hlevelR hleR)
    · -- The left side is a leaf and so the base of the power.
      rw [if_neg (by decide)] at hlevels
      obtain ⟨hlevelR, hleR⟩ := le_level (fun level hlevel => Nat.le_of_eq (hlevels.2 level hlevel).symm)
        (by decide)
      rw [hlevels.1] at hreadsL
      rw [sequenceRow_inorder]
      exact .power rfl hreadsL.base (hreadsR.loosen (by decide) (Nat.le_of_succ_le hlevelR) hleR)
  | case2 e hroot =>
    rcases e.leaf_or_operator with he | ⟨root, left, right, rfl⟩
    · obtain ⟨horder, -⟩ := of_leaf he
      rw [horder] at hreadable ⊢
      rw [he]
      simpa [sequenceRow] using hreadable.1
    · exact absurd rfl (hroot root left right)

/-- A ranked tree is one relation. -/
theorem Expr.Ranked.reads {e : Expr} (h : e.Ranked) (hreadable : IsReadable e.inorder) :
    Reads .relation (sequenceRow e.inorder) e [] := by
  have hpositive : ∀ level ∈ e.level?, 1 ≤ level := by
    rcases e.leaf_or_operator with he | ⟨op, left, right, rfl⟩
    · rw [he]
      exact nofun
    · rintro level ⟨⟩
      exact (precedence_of_mem_chainOperators op hreadable.of_inorder.2.1).2.1
  obtain ⟨hlevel, hle⟩ := le_level hpositive (by decide)
  exact (h.readsAt hreadable).alone hlevel hle

/-! ## Reading chains -/

namespace Chain

/-- The sequence of a chain is readable: its operands are numbers and names, and its operators are those
of chains. -/
theorem isReadable (chain : Chain) : IsReadable chain.sequence := by
  refine ⟨chain.first.readsAt, fun next hnext => ?_⟩
  obtain ⟨link, -, rfl⟩ := List.mem_map.mp hnext
  exact ⟨link.isChain, link.operand.readsAt⟩

/-- **The symbols of a chain** are those of its operands and operators. -/
theorem ending (chain : Chain) : Ending [] chain.text (sequenceRow chain.sequence) := by
  obtain ⟨first, links⟩ := chain
  induction links generalizing first with
  | nil => simpa [text, linksText, sequence, sequenceRow] using first.ending
  | cons link links ih =>
    obtain ⟨hall, -⟩ := precedence_of_mem_chainOperators link.op link.isChain
    have hwhole := first.ending.spaced ((ih link.operand).spacedOperator hall)
    simpa [text, linksText, sequence, sequenceRow] using hwhole

end Chain

/-- **A chain is understood by precedence.** It is understood, and its tree is the one ranked tree that has the
operands and operators of the chain in their order. -/
theorem parse_chain (chain : Chain) :
    ∃ tree, parse chain.text = .ok tree
      ∧ ∀ other : Expr, (other.inorder = chain.sequence ∧ other.Ranked) ↔ other = tree := by
  obtain ⟨hranked, horder⟩ := chain.ranked_tree
  have hreads : ∀ e : Expr, e.inorder = chain.sequence → e.Ranked →
      Reads .relation (sequenceRow chain.sequence) e [] :=
    fun e he hranked => he ▸ hranked.reads (he ▸ chain.isReadable)
  refine ⟨chain.tree, chain.ending.parse (hreads _ horder hranked), fun other => ⟨?_, ?_⟩⟩
  · rintro ⟨hother, hranked'⟩
    exact ((hreads other hother hranked').unique (hreads _ horder hranked)).1
  · rintro rfl
    exact ⟨horder, hranked⟩

/-- Powers go to the right, products to the left, and both below the sum. -/
example : parse "a - b / c * 2 ^ x ^ y + z".toList
    = .ok (.binary .plus (.binary .minus (.name ['a'])
        (.binary .times (.binary .dividedBy (.name ['b']) (.name ['c']) false)
          (.binary .power (.number ['2']) (.binary .power (.name ['x']) (.name ['y']) false) false) false) false)
      (.name ['z']) false) := by
  decide +kernel

end MathScribe

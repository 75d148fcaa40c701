/-
Bounds of integrals and scripts of big operators.

A bound is what the reader takes up to the symbol that it has to end in front of. `IsOne phrase row next`
says that a row is exactly that: in front of the symbol `next` it is one phrase, which ends neither within
the row nor behind it. For a row of two bounds that are one phrase each, the tree has the two bounds and the
integrand in their places; and the tree has them there only then (`integral_iff`, `bigOperator_iff`).

Forwards this is a matter of reading the phrases one behind the other, once the differential is known to be
the last one. Backwards the tree is given, and the row has to be cut where its parts end. The left side of a
tree is what was read first (`Reads.left_cases`), and a part of a row is cut off by the number of its
characters (`eq_of_letters`).

The last section is about texts: what a formula brings into the text around it (`Part`), and the two results
for the text of an integral and of a big operator.
-/
import MathScribe.Proofs.Reading.Differential
import MathScribe.Proofs.Reading.Grammar
import MathScribe.Proofs.Reading.Letters
import MathScribe.Proofs.Reading.Summand
import MathScribe.Proofs.Writing.Spelling

set_option autoImplicit false

namespace MathScribe

/-! ## The left side of a tree -/

namespace Expr

/-- A tree, its left operand, the left operand of that one, and so on. -/
def spine : Expr → List Expr
  | binary op left right implicit => binary op left right implicit :: left.spine
  | e => [e]

/-- The tree is the first one on its spine. -/
theorem mem_spine_self (e : Expr) : e ∈ e.spine := by
  cases e <;> exact List.mem_cons_self

/-- A tree without an operator between operands at its root. -/
def IsPlain (e : Expr) : Prop :=
  ∀ op left right implicit, e ≠ binary op left right implicit

/-- A tree without operands is alone on its spine. -/
theorem spine_eq_singleton {e : Expr} (h : e.IsPlain) : e.spine = [e] := by
  cases e with
  | binary => exact absurd rfl (h _ _ _ _)
  | _ => rfl

/-- The left operand of a tree on the spine is on the spine. -/
theorem left_mem_spine {op : Operator} {left right whole : Expr} {implicit : Bool}
    (h : binary op left right implicit ∈ whole.spine) : left ∈ whole.spine := by
  induction whole using spine.induct with
  | case1 _ first _ _ ih =>
    rcases List.mem_cons.mp h with heq | hmem
    · cases heq
      exact List.mem_cons_of_mem _ (mem_spine_self left)
    · exact List.mem_cons_of_mem _ (ih hmem)
  | case2 e hplain =>
    rw [spine_eq_singleton hplain, List.mem_singleton] at h
    exact absurd h.symm (hplain _ _ _ _)

/-- A tree that is the whole or an operand on its spine is on the spine. -/
theorem mem_spine_of_left {left whole : Expr} {same : Prop} {joins : Operator → Prop}
    (h : (left = whole ∧ same)
      ∨ ∃ op right implicit, joins op ∧ binary op left right implicit ∈ whole.spine) :
    left ∈ whole.spine := by
  rcases h with ⟨rfl, -⟩ | ⟨_, _, _, -, hmem⟩
  · exact mem_spine_self left
  · exact left_mem_spine hmem

end Expr

/-- The tree that a phrase goes on with as a left side. -/
def Phrase.left? : Phrase → Option Expr
  | moreRelation left | moreAdditive left | moreTerm left => some left
  | bigOperator head => some head
  | morePowered base => some base
  | _ => none

/-- The operators that a phrase joins its left side with. -/
def Phrase.joins : Phrase → Operator → Prop
  | moreRelation _, op => op.precedence = 1
  | moreAdditive _, op => op.precedence = 2
  | _, _ => True

/-- **What becomes of a left side**: it is the whole tree and no symbol is taken, or it is an operand on the
spine of the tree. -/
theorem Reads.left_cases {phrase : Phrase} {input rest : List Symbol} {left tree : Expr}
    (h : Reads phrase input tree rest) (hleft : phrase.left? = some left) :
    (left = tree ∧ input = rest)
      ∨ ∃ op right implicit, phrase.joins op ∧ .binary op left right implicit ∈ tree.spine := by
  -- What a phrase joins with its left side becomes the left side that it goes on with.
  induction h generalizing left with
  | relationEnd | additiveEnd | termEnd | bigAlone | poweredEnd =>
    cases hleft
    exact .inl ⟨rfl, rfl⟩
  | @relationNext r _ _ _ _ _ _ _ _ _ ih =>
    cases hleft
    exact .inr ⟨.relation r, _, _, rfl, Expr.mem_spine_of_left (ih rfl)⟩
  | @additiveNext symbol _ _ _ _ _ _ _ hop _ _ _ ih =>
    cases hleft
    refine .inr ⟨_, _, _, ?_, Expr.mem_spine_of_left (ih rfl)⟩
    cases symbol <;> cases hop <;> rfl
  | termNext _ _ _ _ ih | termBeside _ _ _ _ ih | bigSubscript _ _ _ ih | bigPower _ _ _ ih
  | subscript _ _ _ ih =>
    cases hleft
    exact .inr ⟨_, _, _, trivial, Expr.mem_spine_of_left (ih rfl)⟩
  | bigTerm | power =>
    cases hleft
    exact .inr ⟨_, _, _, trivial, Expr.mem_spine_self _⟩
  | _ => cases hleft

/-- A tree that joins nothing is its left side. -/
theorem Reads.left_eq {phrase : Phrase} {input rest : List Symbol} {left tree : Expr}
    (h : Reads phrase input tree rest) (hleft : phrase.left? = some left) (htree : tree.IsPlain) :
    left = tree ∧ input = rest := by
  rcases h.left_cases hleft with hsame | ⟨op, right, implicit, -, hmem⟩
  · exact hsame
  · rw [Expr.spine_eq_singleton htree, List.mem_singleton] at hmem
    exact absurd hmem.symm (htree _ _ _ _)

/-! ## Going down to a term and to an atom -/

/-- A relation without relations and sums on its spine is a term. -/
theorem Reads.term_of_relation {input rest : List Symbol} {tree : Expr}
    (h : Reads .relation input tree rest)
    (hspine : ∀ op left right implicit, .binary op left right implicit ∈ tree.spine →
      2 < op.precedence) : Reads .term input tree rest := by
  have hnot : ∀ {op : Operator} {left right : Expr} {implicit : Bool},
      .binary op left right implicit ∈ tree.spine → ¬ op.precedence ≤ 2 :=
    fun hmem => Nat.not_le_of_lt (hspine _ _ _ _ hmem)
  -- What is read first is a left side, on which nothing is joined that binds so loosely.
  cases h with
  | relation hadditive hmore =>
    rcases hmore.left_cases rfl with ⟨rfl, rfl⟩ | ⟨op, right, implicit, hop, hmem⟩
    · cases hadditive with
      | additive hterm hmore =>
        rcases hmore.left_cases rfl with ⟨rfl, rfl⟩ | ⟨op, right, implicit, hop, hmem⟩
        · exact hterm
        · exact absurd (Nat.le_of_eq hop) (hnot hmem)
    · exact absurd (Nat.le_trans (Nat.le_of_eq hop) (by decide)) (hnot hmem)

/-- A term that starts with an atom reads the atom first, and is the atom if it joins nothing. -/
theorem Reads.atom_of_term {symbol : Symbol} {input rest : List Symbol} {tree : Expr}
    (h : Reads .term (symbol :: input) tree rest) (hstart : symbol.startsAtom = true) :
    ∃ first middle, Reads .atom (symbol :: input) first middle
      ∧ (tree.IsPlain → first = tree ∧ middle = rest) := by
  cases h with
  | term hfactor hmoreTerm =>
    cases hfactor with
    | sign hop => cases symbol <;> first | (cases hop; done) | cases hstart
    | bigOperator => cases hstart
    | factor _ _ hpowered =>
      cases hpowered with
      | powered hprimary hmorePowered =>
        cases hprimary with
        | group => cases hstart
        | primary _ hatom =>
          refine ⟨_, _, hatom, fun htree => ?_⟩
          obtain ⟨rfl, rfl⟩ := hmoreTerm.left_eq rfl htree
          exact hmorePowered.left_eq rfl htree

/-- A relation that starts with an atom reads the atom first, and is the atom if it joins nothing. -/
theorem Reads.atom_of_relation {symbol : Symbol} {input rest : List Symbol} {tree : Expr}
    (h : Reads .relation (symbol :: input) tree rest) (hstart : symbol.startsAtom = true) :
    ∃ first middle, Reads .atom (symbol :: input) first middle
      ∧ (tree.IsPlain → first = tree ∧ middle = rest) := by
  cases h with
  | relation hadditive hmoreRelation =>
    cases hadditive with
    | additive hterm hmoreAdditive =>
      obtain ⟨first, middle, hatom, hfirst⟩ := hterm.atom_of_term hstart
      refine ⟨first, middle, hatom, fun htree => ?_⟩
      obtain ⟨rfl, rfl⟩ := hmoreRelation.left_eq rfl htree
      obtain ⟨rfl, rfl⟩ := hmoreAdditive.left_eq rfl htree
      exact hfirst htree

/-- What is read as a name is that name, or ends with a closing parenthesis. -/
theorem Reads.of_name {phrase : Phrase} {input rest : List Symbol} {c : Text}
    (h : Reads phrase input (.name c) rest) (hphrase : phrase.left? = none) (hc : c ∉ reservedWords) :
    input = .name c :: rest ∨ ∃ front, input = front ++ Symbol.closeParen :: rest := by
  have hplain : (Expr.name c).IsPlain := nofun
  generalize htree : Expr.name c = tree at h
  -- A phrase that reads an operand first joins nothing with it, since the tree is a name.
  induction h with
  | relation _ hmore ih | additive _ hmore ih | term _ hmore ih | powered _ hmore ih
  | operand _ hmore ih =>
    obtain ⟨rfl, rfl⟩ := hmore.left_eq rfl (htree ▸ hplain)
    exact ih rfl htree
  | @bigOperator op _ _ _ hmore =>
    obtain ⟨rfl, rfl⟩ := hmore.left_eq rfl (htree ▸ hplain)
    cases htree
    exact absurd (by cases op <;> decide) hc
  | factor _ _ _ ih | primary _ _ ih | bound _ _ ih => exact ih rfl htree
  | group h =>
    obtain ⟨inside, hinside⟩ := h.suffix
    exact .inr ⟨.openParen :: inside, by rw [← hinside]; rfl⟩
  | name =>
    cases htree
    exact .inl rfl
  | call _ _ h | argumentsNext _ h =>
    -- The arguments make a call.
    obtain ⟨_, _, _, _, _, _, hcall⟩ := h.derives
    rw [hcall] at htree
    cases htree
  | @functionAlone f =>
    cases htree
    exact absurd (by cases f <;> decide) hc
  | rootAlone =>
    cases htree
    exact absurd (by decide) hc
  | _ => first | (cases hphrase; done) | cases htree

/-! ## One phrase in front of a symbol -/

/-- In front of the symbol the row is one phrase, which ends neither within the row nor behind it. -/
def IsOne (phrase : Phrase) (row : List Symbol) (next : Symbol) : Prop :=
  ∃ tree, Reads phrase (row ++ [next]) tree [next]

section Whole

variable {row : List Symbol} {tree : Expr}

/-- What is one factor from end to end is one relation from end to end. -/
theorem Reads.relation_of_factor (h : Reads .factor row tree []) : Reads .relation row tree [] :=
  .relation (.additive (.term h (.termEnd rfl rfl)) (.additiveEnd rfl)) (.relationEnd rfl)

/-- What is one primary from end to end is one factor from end to end. -/
theorem Reads.factor_of_primary (h : Reads .primary row tree []) : Reads .factor row tree [] :=
  (Reads.powered h (.poweredEnd rfl)).factor_of_powered

/-- What is one bound from end to end is one factor: the minus that a bound may have is a sign. -/
theorem Reads.factor_of_bound (h : Reads .bound row tree []) : Reads .factor row tree [] := by
  cases h with
  | boundMinus h => exact .sign rfl h.factor_of_primary
  | bound _ h => exact h.factor_of_primary

end Whole

/-- The phrases that can be a bound or a script. -/
def Phrase.isOperand : Phrase → Bool
  | bound | primary | factor => true
  | _ => false

/-- Whatever stands as one operand of a script or a bound is a formula on its own. -/
theorem Reads.relation_of_operand {phrase : Phrase} {row : List Symbol} {tree : Expr}
    (h : Reads phrase row tree []) (hphrase : phrase.isOperand = true) : Reads .relation row tree [] := by
  cases phrase with
  | bound => exact h.factor_of_bound.relation_of_factor
  | primary => exact h.factor_of_primary.relation_of_factor
  | factor => exact h.relation_of_factor
  | _ => cases hphrase

/-- **A row that is one phrase** is read as its tree in front of everything that starts with the symbol. -/
theorem IsOne.reads {phrase : Phrase} {row : List Symbol} {next : Symbol} {tree : Expr}
    (h : IsOne phrase row next) (hphrase : phrase.isOperand = true) (hrow : Reads .relation row tree [])
    (behind : List Symbol) : Reads phrase (row ++ next :: behind) tree (next :: behind) := by
  -- Alone the row is read as this tree as well, and there is one tree only.
  obtain ⟨tree', hone⟩ := h
  obtain ⟨rfl, -⟩ := (hone.alone.relation_of_operand hphrase).unique hrow
  exact hone.exchange .cons

/-- A phrase that is read up to a symbol stands as one in front of that symbol. -/
theorem Reads.isOne {phrase : Phrase} {row behind : List Symbol} {next : Symbol} {tree : Expr}
    (h : Reads phrase (row ++ next :: behind) tree (next :: behind)) : IsOne phrase row next :=
  ⟨tree, h.exchange .cons⟩

/-- A relation in parentheses is one phrase, in front of any symbol that does not go on with it. -/
theorem isOne_group {phrase : Phrase} {row : List Symbol} {tree : Expr} {next : Symbol}
    (hphrase : phrase.isOperand = true) (h : Reads .relation row tree [])
    (hnext : phrase = .factor → next.isScriptMark = false) :
    IsOne phrase (.openParen :: row ++ [Symbol.closeParen]) next := by
  have hinside : Reads .relation (row ++ Symbol.closeParen :: [next]) tree (.closeParen :: [next]) :=
    h.extend (k := .closeParen :: [next]) rfl
  have hgroup : Reads .primary (.openParen :: row ++ [Symbol.closeParen] ++ [next]) tree [next] := by
    simpa using Reads.group hinside
  refine ⟨tree, ?_⟩
  cases phrase with
  | primary => exact hgroup
  | bound => exact .bound rfl hgroup
  | factor => exact .factor rfl rfl (.powered hgroup (.poweredEnd (hnext rfl)))
  | _ => cases hphrase

/-! ## Cutting a row at a differential -/

/-- The brackets that are open behind two rows are those that the second one leaves open of the first. -/
theorem bracketsFrom_append (stack : List Bracket) (first second : List Symbol) :
    bracketsFrom stack (first ++ second) = (bracketsFrom stack first).bind (bracketsFrom · second) := by
  induction first generalizing stack with
  | nil => rfl
  | cons symbol first ih =>
    rw [List.cons_append, bracketsFrom, bracketsFrom]
    cases symbol.pass? stack with
    | none => rfl
    | some stack' => exact ih stack'

/-- What a phrase takes is balanced. -/
theorem Reads.balanced {phrase : Phrase} {taken rest : List Symbol} {tree : Expr}
    (h : Reads phrase (taken ++ rest) tree rest) (hphrase : phrase.closed = []) (stack : List Bracket) :
    bracketsFrom stack taken = some stack := by
  have hbrackets := h.alone.brackets stack
  rwa [hphrase, List.nil_append] at hbrackets

/-- **A phrase ends in front of a differential** that closes nothing within the row. -/
theorem Reads.before_differential {phrase : Phrase} {front behind rest : List Symbol} {v : Text}
    {tree : Expr} (h : Reads phrase (front ++ Symbol.differential v :: behind) tree rest)
    (hphrase : phrase.closed = []) (hfront : bracketsFrom [] front = some []) :
    ∃ taken more, front = taken ++ more ∧ rest = more ++ Symbol.differential v :: behind
      ∧ bracketsFrom [] more = some [] := by
  obtain ⟨taken, htaken⟩ := h.suffix
  rw [← htaken] at h
  have hbalanced := h.balanced hphrase []
  -- The phrase is balanced. If it took the differential, that would close a bracket of its own, but all of
  -- them are closed in front of it.
  rcases List.append_eq_append_iff.mp htaken with ⟨more, rfl, hrest⟩ | ⟨more, rfl, hmore⟩
  · rw [bracketsFrom_append, hbalanced, Option.bind_some] at hfront
    exact ⟨taken, more, rfl, hrest, hfront⟩
  · rw [bracketsFrom_append, hfront, Option.bind_some] at hbalanced
    cases more with
    | nil => exact ⟨front, [], by simp, hmore.symm, rfl⟩
    | cons symbol more =>
      obtain ⟨rfl, -⟩ := List.cons.inj hmore
      cases hbalanced

/-- **The parts of an integral** with a lower and an upper bound: the differential that closes it is the
first one that closes nothing else. -/
theorem Reads.integral_parts {front behind rest : List Symbol} {v : Text} {tree : Expr}
    (h : Reads .atom (.integral :: .underscore :: (front ++ Symbol.differential v :: behind)) tree rest)
    (hfront : bracketsFrom [] front = some []) :
    ∃ lowerRow upperRow body lower upper integrand,
      front = lowerRow ++ Symbol.caret :: (upperRow ++ body) ∧ body ≠ []
      ∧ Reads .bound (lowerRow ++ [Symbol.caret]) lower [.caret]
      ∧ Reads .bound (upperRow ++ body) upper body ∧ Reads .additive body integrand []
      ∧ tree = .call integralWord [integrand, .name v, lower, upper] ∧ rest = behind := by
  -- Each of the three parts ends in front of the differential, and the integrand right in front of it.
  cases h with
  | integral hmark => cases hmark
  | @integralLower _ _ _ _ lower upper integrand _ hlower hupper hbody =>
    obtain ⟨lowerRow, more, rfl, hmiddle, hmore⟩ := hlower.before_differential rfl hfront
    cases more with
    | nil => cases hmiddle
    | cons symbol more =>
      obtain ⟨rfl, rfl⟩ := List.cons.inj hmiddle
      obtain ⟨upperRow, more, rfl, rfl, hmore⟩ := hupper.before_differential rfl hmore
      obtain ⟨body, more, rfl, hrest, hmore⟩ := hbody.before_differential rfl hmore
      cases more with
      | cons symbol more =>
        obtain ⟨rfl, -⟩ := List.cons.inj hrest
        cases hmore
      | nil =>
        cases hrest
        -- The parts are read in front of what is left of the row, which may be exchanged.
        have hlower : Reads .bound (lowerRow ++ Symbol.caret :: (upperRow ++ (body ++ Symbol.differential v :: behind)))
            lower (.caret :: (upperRow ++ (body ++ Symbol.differential v :: behind))) := by simpa using hlower
        have hupper : Reads .bound (upperRow ++ (body ++ Symbol.differential v :: behind)) upper
            (body ++ Symbol.differential v :: behind) := by simpa using hupper
        have hbody : Reads .additive (body ++ Symbol.differential v :: behind) integrand
            (.differential v :: behind) := by simpa using hbody
        have hne : body ≠ [] := hbody.taken_ne_nil rfl
        have hcut : Reads .bound (upperRow ++ (body ++ [])) upper (body ++ []) :=
          hupper.exchange (.of_ne_nil hne _ _)
        rw [List.append_nil] at hcut ⊢
        exact ⟨lowerRow, upperRow, body, _, _, _, rfl, hne, hlower.exchange .cons, hcut, hbody.alone, rfl,
          rfl⟩

/-! ## Cutting a row at its bounds -/

/-- What is read as one relation has as many visible characters as its tree. -/
theorem Reads.letters_length {row : List Symbol} {tree : Expr} (h : Reads .relation row tree [])
    (hrow : ∀ symbol ∈ row, symbol.isPlain) :
    (lettersOf row).length = (visible tree.render).length := by
  have hletters : SameLetters true (lettersOf row) (visible tree.render ++ lettersOf []) :=
    h.letters trivial ⟨hrow, nofun⟩
  rw [lettersOf_nil, List.append_nil] at hletters
  exact List.Perm.length_eq hletters

/-- A row is cut at one caret by the number of visible characters in front of it. -/
theorem eq_of_letters {first first' second second' : List Symbol}
    (h : first ++ Symbol.caret :: second = first' ++ Symbol.caret :: second')
    (hlength : (lettersOf first).length = (lettersOf first').length) :
    first = first' ∧ second = second' := by
  have hcaret : ∀ row, (lettersOf (.caret :: row)).length = (lettersOf row).length + 1 :=
    fun row => by simp [Symbol.letters, Symbol.text, visible, isVisible, isBlank]
  rcases List.append_eq_append_iff.mp h with ⟨more, rfl, hmore⟩ | ⟨more, rfl, hmore⟩
  all_goals
    cases more with
    | nil =>
      cases hmore
      exact ⟨by simp, rfl⟩
    | cons symbol more =>
      obtain ⟨rfl, -⟩ := List.cons.inj hmore
      rw [lettersOf_append, List.length_append, hcaret] at hlength
      omega

section Cut

variable {rowA rowB lowerRow upperRow body : List Symbol} {a b : Expr} {c : Text}

/-- **The parts of a row are those of its tree**: two bounds and a name, which are read as they are read
alone. -/
theorem cut_bounds {phrase : Phrase} (hc : c ∉ reservedWords)
    (hplain : ∀ symbol ∈ rowA ++ rowB, symbol.isPlain) (hA : Reads .relation rowA a [])
    (hlower : Reads .relation lowerRow a []) (hbody : Reads phrase body (.name c) [])
    (hphrase : phrase.left? = none)
    (hrow : rowA ++ Symbol.caret :: (rowB ++ [Symbol.name c]) = lowerRow ++ Symbol.caret :: (upperRow ++ body)) :
    lowerRow = rowA ∧ upperRow = rowB ∧ body = [.name c] := by
  -- The name is cut off at the end, and the two bounds by the number of their characters.
  have hconcat : rowA ++ Symbol.caret :: rowB ++ [Symbol.name c] = lowerRow ++ Symbol.caret :: upperRow ++ body := by
    simpa using hrow
  obtain rfl : body = [.name c] := by
    rcases hbody.of_name hphrase hc with hname | ⟨front, rfl⟩
    · exact hname
    · -- The row ends with the name and not with a parenthesis.
      rw [← List.append_assoc] at hconcat
      cases (List.append_inj' hconcat rfl).2
  have hfront := List.append_cancel_right hconcat
  have hmem : ∀ symbol ∈ lowerRow, symbol ∈ rowA ++ Symbol.caret :: rowB := by
    intro symbol hsymbol
    rw [hfront]
    exact List.mem_append_left _ hsymbol
  have hlowerPlain : ∀ symbol ∈ lowerRow, symbol.isPlain := by
    intro symbol hsymbol
    rcases List.mem_append.mp (hmem symbol hsymbol) with hleft | hright
    · exact hplain symbol (List.mem_append_left _ hleft)
    · rcases List.mem_cons.mp hright with rfl | hright
      · trivial
      · exact hplain symbol (List.mem_append_right _ hright)
  have hlength := hA.letters_length fun symbol hsymbol => hplain symbol (List.mem_append_left _ hsymbol)
  rw [← hlower.letters_length hlowerPlain] at hlength
  obtain ⟨rfl, rfl⟩ := eq_of_letters hfront hlength
  exact ⟨rfl, rfl, rfl⟩

end Cut

/-! ## Integrals with bounds -/

section Integral

variable {rowA rowB out : List Symbol} {a b tree : Expr} {c v : Text}

/-- An integral is not closed within bounds that are one phrase each. -/
theorem IsOne.not_closed_within {front more behind : List Symbol} {w : Text}
    (hA : IsOne .bound rowA .caret) (hB : IsOne .bound rowB (.name c))
    (hfront : bracketsFrom [] front = some [])
    (hrow : rowA ++ Symbol.caret :: (rowB ++ [Symbol.name c]) = front ++ more) (hmore : more ≠ []) :
    ¬ Reads .relation (.integral :: .underscore :: (front ++ Symbol.differential w :: behind)) tree [] := by
  intro h
  obtain ⟨first, middle, hatom, -⟩ := h.atom_of_relation rfl
  obtain ⟨lowerRow, upperRow, body, lower, upper, integrand, rfl, hne, hlower, hupper, -, -, -⟩ :=
    hatom.integral_parts hfront
  obtain ⟨a, hA⟩ := hA
  obtain ⟨b, hB⟩ := hB
  rw [List.append_assoc, List.cons_append, List.append_assoc] at hrow
  -- The lower bound that is read is the first row, since it ends in front of the same symbol.
  have hrest : .caret :: (rowB ++ [Symbol.name c]) = .caret :: (upperRow ++ (body ++ more)) := by
    have hread : Reads .bound (lowerRow ++ Symbol.caret :: (upperRow ++ (body ++ more))) lower _ :=
      hlower.exchange .cons
    rw [← hrow] at hread
    exact ((hA.exchange .cons).unique hread).2
  -- The upper bound would leave the integrand and more, and it leaves the name alone.
  have hname : [.name c] = body ++ more := by
    have hquiet : Quieter (body ++ []) (body ++ more) := .of_ne_nil hne _ _
    rw [List.append_nil] at hquiet
    have hread := hupper.exchange hquiet
    rw [← (List.cons.inj hrest).2] at hread
    exact (hB.unique hread).2
  have hlength := congrArg List.length hname
  have hbody := List.length_pos_iff.mpr hne
  have hmore := List.length_pos_iff.mpr hmore
  rw [List.length_append, List.length_singleton] at hlength
  omega

/-- **An integral with bounds.** Its tree has the trees of the two bounds and the integrand in their places
exactly when each bound is one bound in front of the symbol behind it. -/
theorem integral_iff (hc : c ∉ reservedWords) (hplain : ∀ symbol ∈ rowA ++ rowB, symbol.isPlain)
    (hA : Reads .relation rowA a []) (hB : Reads .relation rowB b [])
    (hclosed : ClosedBy [] (rowA ++ Symbol.caret :: (rowB ++ [Symbol.name c]) ++ [Symbol.name ['d'], .name v]) out)
    (h : Reads .relation (.integral :: .underscore :: out) tree []) :
    tree = .call integralWord [.name c, .name v, a, b]
      ↔ IsOne .bound rowA .caret ∧ IsOne .bound rowB (.name c) := by
  have hbalanced : bracketsFrom [] (rowA ++ Symbol.caret :: (rowB ++ [Symbol.name c])) = some [] := by
    have hbalancedA : bracketsFrom [] rowA = some [] := hA.brackets []
    have hbalancedB : bracketsFrom [] rowB = some [] := hB.brackets []
    rw [bracketsFrom_append, hbalancedA, Option.bind_some, bracketsFrom_cons_of_isNeutral rfl,
      bracketsFrom_append, hbalancedB]
    rfl
  -- Backwards the parts of the tree are read off the row. Forwards the parts are read one behind the other.
  constructor
  · rintro rfl
    obtain ⟨first, middle, hatom, hfirst⟩ := h.atom_of_relation rfl
    obtain ⟨rfl, rfl⟩ := hfirst nofun
    rcases hclosed.cases_last with rfl | ⟨front, more, w, behind, hfront, -, -, rfl, hne⟩
    · obtain ⟨lowerRow, upperRow, body, lower, upper, integrand, hrow, -, hlower, hupper, hbody, htree,
        -⟩ := hatom.integral_parts hbalanced
      cases htree
      obtain ⟨rfl, rfl, rfl⟩ :=
        cut_bounds hc hplain hA (hlower.alone.relation_of_operand rfl) hbody rfl hrow
      exact ⟨⟨a, hlower⟩, ⟨b, hupper⟩⟩
    · -- Behind a differential of the row itself something would be left over.
      obtain ⟨_, _, _, _, _, _, -, -, -, -, -, -, hrest⟩ := hatom.integral_parts hfront
      exact absurd hrest.symm hne
  · rintro ⟨honeA, honeB⟩
    -- The integral is closed by the last differential, since it is not closed within its bounds.
    rcases hclosed.cases_last with rfl | ⟨front, more, w, behind, hfront, hrow, hmore, rfl, -⟩
    · have hlower := honeA.reads rfl hA (rowB ++ [Symbol.name c, Symbol.differential v])
      have hupper := honeB.reads rfl hB [.differential v]
      have hname : Reads .additive [.name c, .differential v] (.name c) [.differential v] :=
        .additive (.term (Reads.factor_of_powered (.powered (.primary rfl (.name rfl)) (.poweredEnd rfl)))
          (.termEnd rfl rfl)) (.additiveEnd rfl)
      have hatom := Reads.integralLower hlower hupper hname
      have hwhole := (Reads.primary rfl hatom).factor_of_primary.relation_of_factor
      have hsame : rowA ++ Symbol.caret :: (rowB ++ [Symbol.name c]) ++ [Symbol.differential v]
          = rowA ++ Symbol.caret :: (rowB ++ [Symbol.name c, Symbol.differential v]) := by
        simp
      rw [hsame] at h
      exact (h.unique hwhole).1
    · exact absurd h (honeA.not_closed_within honeB hfront hrow hmore)

end Integral

/-! ## Big operators with scripts -/

/-- What a big operator takes is a product with it, or no term follows. -/
theorem Reads.bigOperator_end {phrase : Phrase} {head tree : Expr} {input rest : List Symbol}
    (h : Reads phrase input tree rest) (hphrase : phrase = .bigOperator head) :
    (∃ left operand, tree = .juxtapose left operand) ∨ goesOn Symbol.startsTerm rest = false := by
  -- A big operator ends with the term that it takes or in front of what starts no term.
  induction h generalizing head with
  | bigSubscript _ _ _ ih | bigPower _ _ _ ih => exact ih rfl
  | bigTerm => exact .inl ⟨_, _, rfl⟩
  | bigAlone _ hend => exact .inr hend
  | _ => cases hphrase

/-- A big operator with a subscript and an exponent. -/
def Expr.scripted (op : BigOperator) (lower upper : Expr) : Expr :=
  .binary .power (.binary .subscript (.name op.text) lower false) upper false

section Scripts

variable {rowA rowB : List Symbol} {a b tree : Expr} {c : Text} {op : BigOperator}

/-- The operators on the spine of a scripted big operator with a name behind it. -/
theorem Expr.mem_spine_scripted {op' : Operator} {left right : Expr} {implicit : Bool}
    (h : .binary op' left right implicit ∈ (juxtapose (scripted op a b) (name c)).spine) :
    (op' = .times ∧ implicit = true ∧ left = scripted op a b)
      ∨ (op' = .power ∧ left = .binary .subscript (.name op.text) a false ∧ right = b)
      ∨ (op' = .subscript ∧ left = .name op.text ∧ right = a) := by
  rcases List.mem_cons.mp h with heq | h
  · cases heq
    exact .inl ⟨rfl, rfl, rfl⟩
  · rcases List.mem_cons.mp h with heq | h
    · cases heq
      exact .inr (.inl ⟨rfl, rfl, rfl⟩)
    · rcases List.mem_cons.mp h with heq | h
      · cases heq
        exact .inr (.inr ⟨rfl, rfl, rfl⟩)
      · cases List.mem_singleton.mp h

/-- The parts that are read of a scripted big operator with a name behind it. -/
theorem Reads.scripted_parts {input rest : List Symbol}
    (h : Reads (.bigOperator (.name op.text)) (.underscore :: input)
      (.juxtapose (.scripted op a b) (.name c)) rest) :
    ∃ middle body, Reads .primary input a (.caret :: middle) ∧ Reads .factor middle b body
      ∧ Reads .term body (.name c) rest := by
  -- What has been read is on the spine of the tree, and so the scripts are those of the tree.
  cases h with
  | bigSubscript hscript hmore =>
    rcases Expr.mem_spine_scripted (Expr.mem_spine_of_left (hmore.left_cases rfl)) with
      ⟨hop, -⟩ | ⟨hop, -⟩ | ⟨-, -, rfl⟩
    · cases hop
    · cases hop
    -- Behind the subscript stands the exponent, and behind the exponent the term: a second subscript or
    -- exponent would be on the spine.
    · cases hmore with
      | bigSubscript _ hmore =>
        rcases Expr.mem_spine_scripted (Expr.mem_spine_of_left (hmore.left_cases rfl)) with
          ⟨hop, -⟩ | ⟨hop, -⟩ | ⟨-, hleft, -⟩
        · cases hop
        · cases hop
        · cases hleft
      | bigPower hexponent hmore =>
        rcases Expr.mem_spine_scripted (Expr.mem_spine_of_left (hmore.left_cases rfl)) with
          ⟨hop, -⟩ | ⟨-, -, rfl⟩ | ⟨hop, -⟩
        · cases hop
        · cases hmore with
          | bigSubscript _ hmore | bigPower _ hmore =>
            rcases Expr.mem_spine_scripted (Expr.mem_spine_of_left (hmore.left_cases rfl)) with
              ⟨hop, -⟩ | ⟨-, hleft, -⟩ | ⟨-, hleft, -⟩
            · cases hop
            · cases hleft
            · cases hleft
          | bigTerm _ hterm => exact ⟨_, _, hscript, hexponent, hterm⟩
        · cases hop

/-- A term that is a scripted big operator with a name behind it is read as one factor. -/
theorem Reads.scripted_factor {input rest : List Symbol}
    (h : Reads .term (.bigOperator op :: input) (.juxtapose (.scripted op a b) (.name c)) rest) :
    Reads (.bigOperator (.name op.text)) input (.juxtapose (.scripted op a b) (.name c)) rest := by
  cases h with
  | term hfactor hmore =>
    cases hfactor with
    | sign hop => cases hop
    | factor _ hbig => cases hbig
    | bigOperator hbig =>
      cases hmore with
      | termEnd => exact hbig
      | @termNext symbol _ _ _ _ _ _ _ hop _ hmore =>
        rcases Expr.mem_spine_scripted (Expr.mem_spine_of_left (hmore.left_cases rfl)) with
          ⟨-, himplicit, -⟩ | ⟨rfl, -⟩ | ⟨rfl, -⟩
        · cases himplicit
        · cases symbol <;> cases hop
        · cases symbol <;> cases hop
      | termBeside hstart _ hmore =>
        -- The name would be read behind the big operator, which takes whatever a term can start with.
        rcases Expr.mem_spine_scripted (Expr.mem_spine_of_left (hmore.left_cases rfl)) with
          ⟨-, -, rfl⟩ | ⟨hop, -⟩ | ⟨hop, -⟩
        · rcases hbig.bigOperator_end rfl with ⟨_, _, htree⟩ | hend
          · cases htree
          · rw [goesOn_mono Symbol.startsTerm_of_startsPowered hstart] at hend
            cases hend
        · cases hop
        · cases hop

/-- **A big operator with scripts.** Its tree has the trees of the two scripts and the name behind them in
their places exactly when each script is one phrase in front of the symbol behind it. -/
theorem bigOperator_iff (hc : c ∉ reservedWords) (hplain : ∀ symbol ∈ rowA ++ rowB, symbol.isPlain)
    (hA : Reads .relation rowA a []) (hB : Reads .relation rowB b [])
    (h : Reads .relation (.bigOperator op :: .underscore :: (rowA ++ Symbol.caret :: (rowB ++ [Symbol.name c]))) tree
      []) :
    tree = .juxtapose (.scripted op a b) (.name c)
      ↔ IsOne .primary rowA .caret ∧ IsOne .factor rowB (.name c) := by
  constructor
  · rintro rfl
    have hterm := h.term_of_relation fun op' left right implicit hmem => by
      rcases Expr.mem_spine_scripted hmem with ⟨rfl, -⟩ | ⟨rfl, -⟩ | ⟨rfl, -⟩ <;> decide
    obtain ⟨middle, body, hlower, hupper, hbody⟩ := hterm.scripted_factor.scripted_parts
    obtain ⟨lowerRow, hlowerRow⟩ := hlower.suffix
    obtain ⟨upperRow, rfl⟩ := hupper.suffix
    rw [← hlowerRow] at hlower
    obtain ⟨rfl, rfl, rfl⟩ :=
      cut_bounds hc hplain hA (hlower.alone.relation_of_operand rfl) hbody rfl hlowerRow.symm
    exact ⟨hlower.isOne, ⟨b, hupper⟩⟩
  · rintro ⟨honeA, honeB⟩
    have hlower := honeA.reads rfl hA (rowB ++ [Symbol.name c])
    have hupper := honeB.reads rfl hB []
    have hname : Reads .term [.name c] (.name c) [] :=
      .term (Reads.factor_of_powered (.powered (.primary rfl (.name rfl)) (.poweredEnd rfl)))
        (.termEnd rfl rfl)
    have hscripts : Reads (.bigOperator (.name op.text))
        (.underscore :: (rowA ++ Symbol.caret :: (rowB ++ [Symbol.name c])))
        (.juxtapose (.scripted op a b) (.name c)) [] :=
      .bigSubscript hlower (.bigPower hupper (.bigTerm rfl hname))
    exact (h.unique (Reads.bigOperator hscripts).relation_of_factor).1

end Scripts

/-! ## Texts with bounds -/

/-- No symbol goes on with a caret, a blank or a closing parenthesis. -/
theorem Symbol.not_goesOnWith_of_mem (symbol : Symbol) {d : Char} (hd : d ∈ ['^', ' ', ')']) :
    symbol.goesOnWith d = false := by
  obtain ⟨hword, hdigit, hpoint, hequal, hgreater, hminus⟩ : d.isAlphanum = false
      ∧ isDecimalDigit d = false ∧ d ≠ '.' ∧ d ≠ '=' ∧ d ≠ '>' ∧ d ≠ '-' := by
    simp only [List.mem_cons, List.not_mem_nil, or_false] at hd
    rcases hd with rfl | rfl | rfl <;> decide
  cases symbol with
  | relation r => cases r <;> simp [goesOnWith, hequal]
  | _ => simp [goesOnWith, hword, hdigit, hpoint, hgreater, hminus]

/-- A text in front of a caret, a blank or a closing parenthesis keeps its symbols. -/
theorem symbolsOf_append_cons {text behind : Text} {raw more : List Symbol} {d : Char}
    (hd : d ∈ ['^', ' ', ')']) (htext : symbolsOf text = some raw)
    (hbehind : symbolsOf (d :: behind) = some more) :
    symbolsOf (text ++ d :: behind) = some (raw ++ more) := by
  refine symbolsOf_join htext hbehind fun symbol _ e he => ?_
  cases he
  exact symbol.not_goesOnWith_of_mem hd

/-- What a formula brings into the text around it: its symbols, which outside of all integrals are closed to
its row, and its tree. -/
structure Part (text : Text) (row : List Symbol) (tree : Expr) : Prop where
  closes : ∃ raw, symbolsOf text = some raw ∧ Closes [] raw row []
  plain : ∀ symbol ∈ row, symbol.isPlain
  reads : Reads .relation row tree []

/-- A formula is such a part: it closes outside of all integrals, and none of its symbols is one of the
words that are written in a way of their own. -/
theorem Formula.part {text : Text} {row : List Symbol} {tree : Expr} (h : Formula text row tree) :
    Part text row tree :=
  ⟨h.closes, closedRow?_isPlain h.closed, h.reads⟩

/-- A part in parentheses is a part. -/
theorem Part.parenthesized {text : Text} {row : List Symbol} {tree : Expr} (h : Part text row tree) :
    Part ('(' :: text ++ [')']) (.openParen :: row ++ [Symbol.closeParen]) tree := by
  obtain ⟨raw, hraw, hcloses⟩ := h.closes
  have hcloser : symbolsOf [')'] = some [.closeParen] := by decide
  have hsymbols : symbolsOf ('(' :: (text ++ [')'])) = some (.openParen :: (raw ++ [Symbol.closeParen])) := by
    rw [symbolsOf_openParen, symbolsOf_append_cons (by decide) hraw hcloser]
    rfl
  have hgroup : Closes [] (.openParen :: (raw ++ [Symbol.closeParen])) (.openParen :: (row ++ [Symbol.closeParen])) [] :=
    .symbol rfl rfl ((hcloses.inParens []).append (.symbol rfl rfl .nil) nofun)
  have hinside : Reads .relation (row ++ [Symbol.closeParen]) tree [.closeParen] :=
    h.reads.extend (k := [.closeParen]) rfl
  refine ⟨⟨_, hsymbols, hgroup⟩, ?_, ?_⟩
  · simp only [List.cons_append, List.forall_mem_cons, List.forall_mem_append]
    exact ⟨trivial, h.plain, trivial, nofun⟩
  · exact (Reads.group hinside).factor_of_primary.relation_of_factor

/-- The symbols of a word with scripts, in front of a blank. -/
theorem symbolsOf_scripts {word lower upper behind : Text} {rawA rawB more : List Symbol}
    (hword : IsWord word)
    (hA : symbolsOf lower = some rawA) (hB : symbolsOf upper = some rawB)
    (hbehind : symbolsOf (' ' :: behind) = some more) :
    symbolsOf (word ++ '_' :: (lower ++ '^' :: (upper ++ ' ' :: behind)))
      = some (Symbol.ofWord word :: .underscore :: (rawA ++ Symbol.caret :: (rawB ++ more))) := by
  -- From the end to the front: no text lengthens the symbol in front of it.
  have hupper := symbolsOf_append_cons (by decide) hB hbehind
  have hcaret : symbolsOf ('^' :: (upper ++ ' ' :: behind)) = some (.caret :: (rawB ++ more)) :=
    symbolsOf_operator .power (by decide) hupper fun _ _ => rfl
  have hlower := symbolsOf_append_cons (by decide) hA hcaret
  have hunderscore : symbolsOf ('_' :: (lower ++ '^' :: (upper ++ ' ' :: behind)))
      = some (.underscore :: (rawA ++ Symbol.caret :: (rawB ++ more))) :=
    symbolsOf_operator .subscript (by decide) hlower fun _ _ => rfl
  refine symbolsOf_word hword hunderscore fun d hd => ?_
  cases hd
  decide

/-- Outside of all integrals names stay names. -/
theorem closes_names (names : List Text) :
    Closes [] (names.map Symbol.name) (names.map Symbol.name) [] := by
  induction names with
  | nil => exact .nil
  | cons text names ih => exact .name (fun h => nomatch h.1) ih

/-- Scripts and names behind them, outside of all integrals. -/
theorem Closes.scripts {rawA rawB rowA rowB : List Symbol} (hA : Closes [] rawA rowA [])
    (hB : Closes [] rawB rowB []) (names : List Text) :
    Closes [] (rawA ++ Symbol.caret :: (rawB ++ names.map Symbol.name))
      (rowA ++ Symbol.caret :: (rowB ++ names.map Symbol.name)) [] :=
  hA.append (.symbol rfl rfl (hB.append (closes_names names) nofun)) nofun

section Texts

variable {lower upper c v : Text} {rowA rowB row : List Symbol} {a b tree : Expr}

/-- **The text of an integral with bounds.** The tree has the formulas of the two bounds and the integrand in
their places exactly when each bound is one bound in front of what follows it. -/
theorem Part.integral_iff (hA : Part lower rowA a) (hB : Part upper rowB b) (hc : PlainName c)
    (hv : PlainName v)
    (h : Formula (integralWord ++ '_' :: (lower ++ '^' :: (upper ++ ' ' :: (c ++ ' ' :: 'd' :: ' ' :: v))))
      row tree) :
    tree = .call integralWord [.name c, .name v, a, b]
      ↔ IsOne .bound rowA .caret ∧ IsOne .bound rowB (.name c) := by
  obtain ⟨rawA, hrawA, hclosesA⟩ := hA.closes
  obtain ⟨rawB, hrawB, hclosesB⟩ := hB.closes
  obtain ⟨raw, hraw, hcloses⟩ := h.closes
  have hbehind : symbolsOf (' ' :: (c ++ ' ' :: 'd' :: ' ' :: v))
      = some ([c, ['d'], v].map Symbol.name) :=
    (symbolsOf_blank (by decide) _).trans ((Spells.name hc).integrand hv).symbols
  rw [symbolsOf_scripts isWord_integralWord hrawA hrawB hbehind] at hraw
  cases hraw
  -- The integral is open behind its first two symbols, and closed at the end of the row.
  cases hcloses with
  | symbol _ hpass hrest =>
    cases hpass
    cases hrest with
    | symbol _ hpass hout =>
      cases hpass
      have halone := (hclosesA.scripts hclosesB [c, ['d'], v]).closedBy hout
      have hsame : rowA ++ Symbol.caret :: (rowB ++ [c, ['d'], v].map Symbol.name)
          = rowA ++ Symbol.caret :: (rowB ++ [Symbol.name c]) ++ [Symbol.name ['d'], .name v] := by
        simp
      rw [hsame] at halone
      exact MathScribe.integral_iff hc.unreserved (List.forall_mem_append.mpr ⟨hA.plain, hB.plain⟩) hA.reads
        hB.reads halone h.reads

/-- **The text of a big operator with scripts.** The tree has the formulas of the two scripts and the name
behind them in their places exactly when each script is one phrase in front of what follows it. -/
theorem Part.bigOperator_iff {op : BigOperator} (hA : Part lower rowA a) (hB : Part upper rowB b)
    (hc : PlainName c)
    (h : Formula (op.text ++ '_' :: (lower ++ '^' :: (upper ++ ' ' :: c))) row tree) :
    tree = .juxtapose (.scripted op a b) (.name c)
      ↔ IsOne .primary rowA .caret ∧ IsOne .factor rowB (.name c) := by
  obtain ⟨rawA, hrawA, hclosesA⟩ := hA.closes
  obtain ⟨rawB, hrawB, hclosesB⟩ := hB.closes
  obtain ⟨raw, hraw, hcloses⟩ := h.closes
  have hbehind : symbolsOf (' ' :: c) = some ([c].map Symbol.name) :=
    (symbolsOf_blank (by decide) _).trans (Spells.name hc).symbols
  rw [symbolsOf_scripts op.word hrawA hrawB hbehind, Symbol.ofWord_bigOperator] at hraw
  cases hraw
  -- No integral is open around the scripts, so they are closed as they are alone.
  have hwhole : Closes [] _ (.bigOperator op :: .underscore :: _) [] :=
    .symbol rfl rfl (.symbol rfl rfl (hclosesA.scripts hclosesB [c]))
  obtain ⟨rfl, -⟩ := hcloses.unique hwhole
  exact MathScribe.bigOperator_iff hc.unreserved (List.forall_mem_append.mpr ⟨hA.plain, hB.plain⟩) hA.reads
    hB.reads h.reads

end Texts

end MathScribe

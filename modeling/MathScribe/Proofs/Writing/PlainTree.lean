/-
Trees of plain words.

Where no word of a tree but the name of a call and the head of an integral or a root has a meaning of its own,
the trees that their texts tell from others can be described without the rows: by the precedences of the parts,
and by the characters that their texts start with. `PlainTree` is this description. It leaves out a product on the right of a
product and a sum on the right of a plus, which are written without parentheses and read from the left; a sum
in front of a text that begins with a minus sign, which runs into `+-`; a power below a subscript; and a name
in front of a parenthesis, which is read as a call.

`PlainTree.unambiguous` says that these are among the trees of `Unambiguous`. Names that mean nothing of their own
take a parenthesis and nothing else (`PlainTree.takes_cases`), and without big operators a tree binds as tightly as
it is written.
-/
import MathScribe.Proofs.Writing.Precedence

set_option autoImplicit false

namespace MathScribe

/-! ## PlainTree trees -/

/-- A number in ASCII. -/
structure Numeral (digits : Text) : Prop where
  nonempty : digits ≠ []
  number : Symbol.NumberText digits
  ascii : ∀ c ∈ digits, c.isDigit = true ∨ c = '.'

/-- The text of a tree ends in a name. The differential of an integral is no name. -/
def Expr.endsInName : Expr → Bool
  | name _ => true
  | unary _ operand => !decide (operand.precedence ≤ signPrecedence) && operand.endsInName
  | binary op _ right _ => !op.enclosesRight right && right.endsInName
  | _ => false

/-- The operands of an operator that keep to it: no operand without parentheses is read as one of another
operator. -/
def Operator.Keeps : Operator → Expr → Expr → Prop
  | times, _, right => right.precedence ≠ times.precedence
  | plus, _, right =>
    right.precedence ≠ plus.precedence ∧ (rightOperand plus right right.render).head? ≠ some '-'
  | subscript, left, _ => left.isPower = false
  | _, _, _ => True

/-- The trees of ASCII numbers, plain names, operators, calls, roots and integrals that their texts tell from
others. -/
inductive PlainTree : Expr → Prop
  | number {digits : Text} : Numeral digits → PlainTree (.number digits)
  | name {text : Text} : PlainName text → PlainTree (.name text)
  | sign {op : Operator} {operand : Expr} :
      op = .minus ∨ op = .plusMinus → PlainTree operand → PlainTree (.unary op operand)
  | operator {op : Operator} {left right : Expr} :
      op ∈ Operator.all → op.Keeps left right → PlainTree left → PlainTree right →
      PlainTree (.binary op left right false)
  /-- A product without an operator sign. No name stands in front of a parenthesis. -/
  | beside {left right : Expr} :
      right.precedence ≠ Operator.times.precedence →
      ((besideText right).head? = some '(' →
        Operator.times.enclosesLeft left = true ∨ left.endsInName = false) →
      PlainTree left → PlainTree right → PlainTree (.juxtapose left right)
  | call {function : Text} {arguments : List Expr} :
      Callee function → (∀ argument ∈ arguments, PlainTree argument) → PlainTree (.call function arguments)
  | root {index radicand : Expr} : PlainTree index → PlainTree radicand → PlainTree (.call rootWord [index, radicand])
  | integral {integrand : Expr} {v : Text} :
      PlainName v → PlainTree integrand → PlainTree (.call integralWord [integrand, .name v])
  /-- An integral with bounds. No bound that is a name stands in front of a parenthesis. -/
  | integralBounds {integrand lower upper : Expr} {v : Text} :
      PlainName v → PlainTree integrand → PlainTree lower → PlainTree upper →
      ((factorText integrand).head? = some '(' → ∀ text, upper ≠ .name text) →
      PlainTree (.call integralWord [integrand, .name v, lower, upper])

/-! ## Precedences -/

namespace Operator

variable {op : Operator} {left right : Expr}

/-- What an operator leaves without parentheses on its right binds tighter than it does, or as tightly
where the operator keeps nothing that does not. -/
theorem Keeps.lt_precedence (hop : op ∈ all) (h : op.Keeps left right) (hbare : op.enclosesRight right = false) :
    op.precedence < right.precedence := by
  have hside : ∀ needed : Bool, (if right.isUnary then true else needed) = false → needed = false := by
    intro needed hneeded
    split at hneeded <;> first | exact hneeded | cases hneeded
  cases op with
  | dividedBy | power => cases hbare
  | relation | minus | plusMinus | subscript => exact Nat.lt_of_not_le (of_decide_eq_false (hside _ hbare))
  | plus =>
    exact Nat.lt_of_le_of_ne (Nat.le_of_not_lt (of_decide_eq_false (hside _ hbare))) h.1.symm
  | times =>
    exact Nat.lt_of_le_of_ne (Nat.le_of_not_lt (of_decide_eq_false (hside _ hbare))) (Ne.symm h)
  | other text => simp [all] at hop

/-- A sign in front of a right operand is always in parentheses. -/
theorem not_isUnary_of_not_enclosesRight (h : op.enclosesRight right = false) : right.isUnary = false := by
  refine Bool.eq_false_iff.mpr fun hunary => ?_
  unfold enclosesRight at h
  split at h <;> simp [hunary] at h

end Operator

/-- Only a sign binds as tightly as a sign. -/
theorem Expr.precedence_ne_four {e : Expr} (h : e.isUnary = false) : e.precedence ≠ 4 := by
  cases e with
  | binary op => cases op <;> simp [precedence, Operator.precedence]
  | unary => cases h
  | _ => simp [precedence, atomPrecedence]

/-- An atom that ends in a name is one. -/
theorem Expr.eq_name_of_endsInName {e : Expr} (hatom : e.precedence = atomPrecedence)
    (h : e.endsInName = true) : ∃ text, e = .name text := by
  cases e with
  | name text => exact ⟨text, rfl⟩
  | unary => cases hatom
  | binary op => cases op <;> simp [precedence, Operator.precedence, atomPrecedence] at hatom
  | _ => cases h

namespace PlainTree

variable {e : Expr}

/-- No tree of plain words has a big operator. -/
theorem not_isBig (h : PlainTree e) : e.isBig = false := by
  induction h with
  | @name text hplain =>
    change (Symbol.ofWord text).isBigOperator = false
    rw [hplain.ofWord]
    rfl
  | @operator op _ _ _ _ _ _ ihl _ =>
    cases op with
    | power => simp [Expr.isBig, ihl]
    | subscript => exact ihl
    | _ => rfl
  | _ => rfl

/-- A plain tree has no big operator, so none with its term. -/
theorem not_isBigTerm (h : PlainTree e) : e.isBigTerm = false := by
  cases h with
  | @operator op => cases op <;> rfl
  | beside _ _ hleft => exact hleft.not_isBig
  | _ => rfl

/-- A tree of plain words binds as tightly as it is written. -/
theorem tightness_eq (h : PlainTree e) : e.tightness = e.precedence :=
  Expr.tightness_of_not_isBig h.not_isBig h.not_isBigTerm

/-! ## Ends -/

/-- A power or a subscript has the precedence of powers. -/
theorem precedence_of_isPower (h : e.isPower = true) : e.precedence = 5 := by
  cases e with
  | binary op => cases op <;> first | rfl | cases h
  | _ => cases h

/-- What the end of a binary tree takes is taken by the right operand, or it is a script behind an exponent. -/
theorem takes_binary {op : Operator} {left right : Expr} {implicit : Bool} {next : Symbol}
    (h : PlainTree (.binary op left right implicit)) (htakes : (Expr.binary op left right implicit).takes next = true) :
    (op.enclosesRight right = false ∧ right.takes next = true) ∨ (op = .power ∧ next.isScriptMark = true) := by
  rw [Expr.takes, h.not_isBig, h.not_isBigTerm] at htakes
  simpa using htakes

/-- The end of the text of a tree takes a parenthesis where it is a name, and scripts where it is a power. -/
theorem takes_cases (h : PlainTree e) {next : Symbol} (htakes : e.takes next = true) :
    (next.isOpen = true ∧ e.endsInName = true)
      ∨ (next.isScriptMark = true ∧ (e.isPower = true ∨ e.precedence < 5)) := by
  -- The induction follows the right edge of the tree: only an operand without parentheses is at the end.
  induction h with
  | number => cases htakes
  | @name text hplain =>
    change (Symbol.ofWord text).takes next = true at htakes
    rw [hplain.ofWord] at htakes
    exact .inl ⟨htakes, rfl⟩
  | sign _ _ ih =>
    obtain ⟨hbare, htakes⟩ := Bool.and_eq_true_iff.mp htakes
    rcases ih htakes with ⟨hopen, hname⟩ | ⟨hmark, -⟩
    · exact .inl ⟨hopen, Bool.and_eq_true_iff.mpr ⟨hbare, hname⟩⟩
    · exact .inr ⟨hmark, .inr (Nat.lt_succ_self 4)⟩
  | @operator op left right hop hkeeps hleft hright _ ih =>
    rcases (PlainTree.operator hop hkeeps hleft hright).takes_binary htakes with ⟨hbare, htakes⟩ | ⟨rfl, hmark⟩
    · rcases ih htakes with ⟨hopen, hname⟩ | ⟨hmark, hloose⟩
      · exact .inl ⟨hopen, by simp [Expr.endsInName, hbare, hname]⟩
      · -- The operator binds less tightly than the power on its right.
        have hlt := hkeeps.lt_precedence hop hbare
        have hle : right.precedence ≤ 5 := by
          rcases hloose with hpower | hlt
          · exact Nat.le_of_eq (precedence_of_isPower hpower)
          · exact Nat.le_of_lt hlt
        exact .inr ⟨hmark, .inr (Nat.lt_of_lt_of_le hlt hle)⟩
    · exact .inr ⟨hmark, .inl rfl⟩
  | @beside left right hprecedence hparen hleft hright _ ih =>
    rcases (PlainTree.beside hprecedence hparen hleft hright).takes_binary htakes with ⟨hbare, htakes⟩ | ⟨hop, -⟩
    · rcases ih htakes with ⟨hopen, hname⟩ | ⟨hmark, -⟩
      · exact .inl ⟨hopen, by simp [Expr.endsInName, hbare, hname]⟩
      · exact .inr ⟨hmark, .inr (by decide : 3 < 5)⟩
    · cases hop
  | call hcallee => simp [Expr.takes, hcallee.ne.2] at htakes
  | root | integral | integralBounds => simp [Expr.takes] at htakes

/-! ## Starts -/

/-- A text that starts with no digit of another script. -/
def StartsInAscii (text : Text) : Prop :=
  ∃ c rest, text = c :: rest ∧ (isDecimalDigit c = true → c.isDigit = true)

/-- A word starts with a letter, and letters are no digits of any script. -/
theorem StartsInAscii.of_word {word : Text} (h : IsWord word) (behind : Text) :
    StartsInAscii (word ++ behind) := by
  obtain ⟨c, rest, rfl, hc, -⟩ := h
  exact ⟨c, rest ++ behind, rfl, fun hdigit =>
    absurd (hdigit.symm.trans (not_isDecimalDigit_of_isAlpha hc)) Bool.noConfusion⟩

/-- A text keeps such a start in parentheses, and with anything behind it. -/
theorem StartsInAscii.enclosed {text : Text} (h : StartsInAscii text) (needed : Bool) (behind : Text) :
    StartsInAscii (parenthesizeIf needed text ++ behind) := by
  obtain ⟨c, rest, rfl, hc⟩ := h
  cases needed with
  | true => exact ⟨'(', _, rfl, by decide⟩
  | false => exact ⟨c, rest ++ behind, rfl, hc⟩

/-- The text of a plain tree starts with no digit of another script; this is why it never runs into a
number in front of it. -/
theorem startsInAscii (h : PlainTree e) : StartsInAscii e.render := by
  -- The induction follows the left edge of the tree, down to a number, a word or a mark.
  induction h with
  | @number digits hdigits =>
    obtain ⟨c, rest, rfl⟩ := List.exists_cons_of_ne_nil hdigits.nonempty
    refine ⟨c, rest, rfl, fun hdigit => ?_⟩
    rcases hdigits.ascii c List.mem_cons_self with hc | rfl
    · exact hc
    · exact absurd (hdigit.symm.trans Symbol.not_isDecimalDigit_point) Bool.noConfusion
  | @name text htext =>
    have hascii := StartsInAscii.of_word htext.word []
    rwa [List.append_nil] at hascii
  | sign hop =>
    rcases hop with rfl | rfl
    · exact ⟨'-', _, rfl, by decide⟩
    · exact ⟨'+', _, rfl, by decide⟩
  | operator _ _ _ _ ihl =>
    rw [Expr.render_binary, binaryText_eq]
    exact ihl.enclosed _ _
  | beside _ _ _ _ ihl =>
    rw [Expr.render_juxtapose]
    exact ihl.enclosed _ _
  | call hcallee =>
    rw [Expr.render_call]
    unfold callText
    rw [if_neg hcallee.ne.1, if_neg hcallee.ne.2]
    exact .of_word hcallee.word _
  | root => exact ⟨'r', _, rfl, by decide⟩
  | integral | integralBounds => exact ⟨'i', _, rfl, by decide⟩

/-- A number runs into no tree of plain words. -/
theorem not_gluesDigit (h : PlainTree e) (left : Expr) : (Expr.juxtapose left e).gluesDigit = false := by
  have hascii := h.startsInAscii.enclosed (Operator.times.enclosesRight e) []
  rw [List.append_nil] at hascii
  obtain ⟨c, rest, htext, hc⟩ : StartsInAscii (besideText e) := hascii
  cases left with
  | number digits =>
    refine Bool.eq_false_iff.mpr fun hglues => ?_
    obtain ⟨hglue, hdigit⟩ := Bool.and_eq_true_iff.mp hglues
    rw [htext] at hglue hdigit
    simp only [canGlue, Bool.not_eq_true', Bool.or_eq_false_iff] at hglue
    have hdigit : isDecimalDigit c = true := by simpa using hdigit
    exact absurd ((hc hdigit).symm.trans hglue.1) Bool.noConfusion
  | _ => rfl

end PlainTree

/-- The row of a text that starts like an operand starts with no script, and with a parenthesis only where the
text does. -/
theorem Spells.first_symbol {text : Text} {row : List Symbol} (h : Spells text (rawRow row)) :
    goesOn Symbol.isScriptMark row = false ∧ (goesOn Symbol.isOpen row = true → text.head? = some '(') := by
  obtain ⟨c, rest, rfl, hc⟩ := h.first
  obtain ⟨symbol, more, left, _, rfl, -, htext, -, hrow⟩ :=
    exists_read?_of_symbolsOf (isBlank_of_startsOperand hc) h.symbols
  cases row with
  | nil => exact ⟨rfl, nofun⟩
  | cons first others =>
    refine ⟨?_, fun hopen => ?_⟩
    · cases first <;> first | rfl | (cases hrow; cases htext; cases hc)
    · obtain rfl : first = .openParen := of_decide_eq_true hopen
      cases hrow
      cases htext
      rfl

namespace PlainTree

variable {e left right : Expr}

/-- The end of a tree takes what stands behind it only where a name stands in front of a parenthesis. -/
theorem not_goesOn_takes (h : PlainTree e) {text : Text} {row : List Symbol} (hspells : Spells text (rawRow row))
    (hname : text.head? = some '(' → e.endsInName = false) : goesOn e.takes row = false := by
  obtain ⟨hmark, hopen⟩ := hspells.first_symbol
  cases row with
  | nil => rfl
  | cons first others =>
    refine Bool.eq_false_iff.mpr fun htakes => ?_
    rcases h.takes_cases htakes with ⟨hfirst, hends⟩ | ⟨hfirst, -⟩
    · exact absurd (hends.symm.trans (hname (hopen hfirst))) Bool.noConfusion
    · exact absurd (hfirst.symm.trans hmark) Bool.noConfusion

/-- Operands that keep to their operator are told from others. -/
theorem admits {op : Operator} (hop : op ∈ Operator.all) (hkeeps : op.Keeps left right) (hleft : PlainTree left)
    (hright : PlainTree right) : op.Admits left right := by
  refine ⟨fun hbare => Bool.eq_false_iff.mpr fun htakes => ?_, fun hbare => ?_, ?_⟩
  · rcases hleft.takes_cases htakes with ⟨hopen, -⟩ | ⟨hmark, hloose⟩
    · cases op <;> cases hopen
    · have hle := Operator.le_of_not_enclosesLeft hbare
      cases op with
      | power =>
        have hpower : left.isPower = false := (Bool.or_eq_false_iff.mp hbare).2
        rcases hloose with hloose | hloose
        · exact absurd (hpower.symm.trans hloose) Bool.noConfusion
        · exact absurd hle (Nat.not_le.mpr hloose)
      | subscript =>
        have hpower : left.isPower = false := hkeeps
        rcases hloose with hloose | hloose
        · exact absurd (hpower.symm.trans hloose) Bool.noConfusion
        · exact absurd hle (Nat.not_le.mpr hloose)
      | _ => cases hmark
  · rw [hright.tightness_eq]
    exact hkeeps.lt_precedence hop hbare
  · cases op with
    | plus => exact decide_eq_false hkeeps.2
    | _ => rfl

/-- **Trees of plain words that keep to their operators are told from others by their texts.** -/
theorem unambiguous (h : PlainTree e) : Unambiguous e := by
  -- The conditions of `Unambiguous` speak of symbols that follow; with plain words they can be seen from the
  -- nodes.
  induction h with
  | number hdigits => exact .number hdigits.nonempty hdigits.number
  | name htext =>
    refine .name htext.word ?_
    rintro rfl
    exact htext.unreserved (by decide)
  | sign hop _ ih => exact .sign hop ih
  | operator hop hkeeps hleft hright ihl ihr => exact .operator hop (admits hop hkeeps hleft hright) ihl ihr
  | @beside left right hprecedence hparen hleft hright ihl ihr =>
    refine .beside hleft.not_isBig (fun hbare => ?_) (fun hbare => ?_) (hright.not_gluesDigit left) ihl ihr
    · have hspells := ihr.spells.enclosed (Operator.times.enclosesRight right)
      rw [← rawRow_encloseIf] at hspells
      refine hleft.not_goesOn_takes hspells fun hopen => ?_
      exact (hparen hopen).resolve_left (by simp [hbare])
    · -- Only a sign would bind too loosely, and a sign is in parentheses there.
      have hkeeps : Operator.times.Keeps left right := hprecedence
      have hlt : 3 < right.precedence := hkeeps.lt_precedence (by decide) hbare
      have hne := Expr.precedence_ne_four (Operator.not_isUnary_of_not_enclosesRight hbare)
      rw [hright.tightness_eq]
      exact Nat.lt_of_le_of_ne hlt (Ne.symm hne)
  | call hcallee _ ih => exact .call hcallee ih
  | root _ _ ihi ihr => exact .rootTwo ihi ihr
  | integral hv _ ih => exact .integral hv ih
  | @integralBounds integrand lower upper v hv hintegrand hlower hupper hparen ihi ihl ihu =>
    refine .integralBounds hv ihi ihl ihu (fun _ => hlower.not_isBig) fun hatom => ⟨hupper.not_isBig, ?_⟩
    have hspells := ihi.spells.enclosed (integrand.precedence < Operator.times.precedence)
    rw [← rawRow_encloseIf] at hspells
    refine hupper.not_goesOn_takes hspells fun hopen => Bool.eq_false_iff.mpr fun hname => ?_
    obtain ⟨text, rfl⟩ := Expr.eq_name_of_endsInName hatom hname
    exact hparen hopen text rfl

end PlainTree

end MathScribe

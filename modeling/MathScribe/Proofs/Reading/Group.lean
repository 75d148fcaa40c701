/-
A formula inside parentheses.

A formula that can be read on its own is read the same way between parentheses, wherever they stand.
Three things have to be seen for that, one for each stage, and this file has two of them.

1. Reading does not look past the end of a phrase, except at the symbol that comes next (`Reads.taken`);
   and a symbol that closes something ends every phrase. So a phrase is read the same way in front of
   more symbols that start with such a one (`Reads.extend`).
2. No symbol reaches over a parenthesis, so a text is split at one (`symbolsFrom_append_seam`).

The third is that integrals are closed inside parentheses as they are closed alone, which is shown with the
rules for closing them.
-/
import MathScribe.Proofs.Reading.Lookahead

set_option autoImplicit false

namespace MathScribe

/-! ## In front of more symbols -/

/-- A symbol that ends every phrase in front of it. -/
def Symbol.isStop : Symbol → Bool
  | closeParen | comma | differential _ => true
  | _ => false

/-- A row that is empty or starts with a symbol that ends the phrase in front of it. -/
def Stops : List Symbol → Prop
  | [] => True
  | symbol :: _ => symbol.isStop = true

/-- The kinds of symbols that a phrase goes on with. -/
def Symbol.goingOn : List (Symbol → Bool) :=
  [isRelation, isAdditive, isMultiplicative, isSign, isBigOperator, isScriptMark, startsAtom,
    startsPowered, startsTerm, isOpen, (· = minus)]

/-- No phrase goes on with a stop. -/
theorem Symbol.not_goingOn_of_isStop {symbol : Symbol} (h : symbol.isStop = true)
    {kind : Symbol → Bool} (hkind : kind ∈ goingOn) : kind symbol = false := by
  simp only [goingOn, List.mem_cons, List.not_mem_nil, or_false] at hkind
  rcases hkind with rfl | rfl | rfl | rfl | rfl | rfl | rfl | rfl | rfl | rfl | rfl <;>
    cases symbol <;> first | rfl | exact Bool.noConfusion h

/-- Whether a row goes on does not change in front of a stop. -/
theorem Stops.goesOn {kind : Symbol → Bool} {row k : List Symbol} {b : Bool} (hk : Stops k)
    (hkind : kind ∈ Symbol.goingOn) (h : goesOn kind row = b) : goesOn kind (row ++ k) = b := by
  subst h
  cases row with
  | nil =>
    cases k with
    | nil => rfl
    | cons symbol k => exact Symbol.not_goingOn_of_isStop hk hkind
  | cons symbol row => rfl

/-- A row that ends every phrase that another row ends: it goes on with no kind of symbol that the other
one does not go on with. -/
def Quieter (rest rest' : List Symbol) : Prop :=
  ∀ kind ∈ Symbol.goingOn, goesOn kind rest = false → goesOn kind rest' = false

/-- The end of a row ends every phrase. -/
theorem Quieter.nil (rest : List Symbol) : Quieter rest [] :=
  fun _ _ _ => rfl

/-- Only the next symbol is looked at. -/
theorem Quieter.cons {symbol : Symbol} {rest rest' : List Symbol} :
    Quieter (symbol :: rest) (symbol :: rest') :=
  fun _ _ h => h

/-- In front of the same symbols, rows end the same phrases. -/
theorem Quieter.append {rest rest' : List Symbol} (h : Quieter rest rest') (taken : List Symbol) :
    Quieter (taken ++ rest) (taken ++ rest') := by
  cases taken with
  | nil => exact h
  | cons symbol taken => exact .cons

/-- What is taken decides how a row goes on, when anything is taken. -/
theorem goesOn_append_congr {taken : List Symbol} (h : taken ≠ []) (kind : Symbol → Bool)
    (rest rest' : List Symbol) : goesOn kind (taken ++ rest) = goesOn kind (taken ++ rest') := by
  obtain ⟨symbol, taken, rfl⟩ := List.exists_cons_of_ne_nil h
  rfl

/-- Two rows that start with the same symbols end the same phrases. -/
theorem Quieter.of_ne_nil {taken : List Symbol} (h : taken ≠ []) (rest rest' : List Symbol) :
    Quieter (taken ++ rest) (taken ++ rest') :=
  fun kind _ hrest => goesOn_append_congr h kind rest rest' ▸ hrest

/-- A phrase that takes a symbol takes some of the row. -/
theorem Reads.taken_ne_nil {phrase : Phrase} {taken rest : List Symbol} {tree : Expr}
    (h : Reads phrase (taken ++ rest) tree rest) (hphrase : phrase.takesSymbol = true) :
    taken ≠ [] := by
  rintro rfl
  exact Nat.lt_irrefl _ (h.length_lt hphrase)

/-- Symbols are taken from the front of a row, and the same symbols in front of any row that ends the same
phrases. -/
def Local (reads : List Symbol → List Symbol → Prop) (input rest : List Symbol) : Prop :=
  ∃ taken, input = taken ++ rest ∧ ∀ rest', Quieter rest rest' → reads (taken ++ rest') rest'

namespace Local

variable {reads first second : List Symbol → List Symbol → Prop} {input middle rest : List Symbol}

/-- Nothing is taken. -/
theorem ended (h : ∀ rest', Quieter rest rest' → reads rest' rest') : Local reads rest rest :=
  ⟨[], rfl, h⟩

/-- A symbol is taken, whatever follows. -/
theorem cons {symbol : Symbol} (h : Local (fun input rest => reads (symbol :: input) rest) input rest) :
    Local reads (symbol :: input) rest := by
  obtain ⟨taken, rfl, hreads⟩ := h
  exact ⟨symbol :: taken, rfl, hreads⟩

/-- A phrase that is read as another one takes the same symbols. -/
theorem mono (h : Local first input rest) (hmono : ∀ input rest, first input rest → reads input rest) :
    Local reads input rest := by
  obtain ⟨taken, rfl, hreads⟩ := h
  exact ⟨taken, rfl, fun rest' hrest => hmono _ _ (hreads rest' hrest)⟩

/-- One phrase is taken and then another. -/
theorem andThen (h₁ : Local first input middle) (h₂ : Local second middle rest)
    (hboth : ∀ input middle rest, first input middle → second middle rest → reads input rest) :
    Local reads input rest := by
  obtain ⟨a, rfl, ha⟩ := h₁
  obtain ⟨b, rfl, hb⟩ := h₂
  refine ⟨a ++ b, by simp, fun rest' hrest => ?_⟩
  rw [List.append_assoc]
  exact hboth _ _ _ (ha _ (hrest.append b)) (hb _ hrest)

/-- A phrase is taken, the symbol that it ends in front of, and then another. -/
theorem upTo {symbol : Symbol} (h₁ : Local first input (symbol :: middle)) (h₂ : Local second middle rest)
    (hboth : ∀ input middle rest, first input (symbol :: middle) → second middle rest →
      reads input rest) : Local reads input rest := by
  obtain ⟨a, rfl, ha⟩ := h₁
  obtain ⟨b, rfl, hb⟩ := h₂
  refine ⟨a ++ symbol :: b, by simp, fun rest' hrest => ?_⟩
  rw [List.append_assoc]
  exact hboth _ _ _ (ha _ .cons) (hb _ hrest)

/-- A phrase is taken with the symbol that it ends in front of. -/
theorem closed {symbol : Symbol} (h : Local first input (symbol :: rest))
    (hclosed : ∀ input rest', Quieter rest rest' → first input (symbol :: rest') → reads input rest') :
    Local reads input rest := by
  obtain ⟨a, rfl, ha⟩ := h
  refine ⟨a ++ [symbol], by simp, fun rest' hrest => ?_⟩
  rw [List.append_assoc]
  exact hclosed _ _ hrest (ha _ .cons)

end Local

/-- **Reading is local.** A phrase takes symbols from the front of the row, and in front of any row that
ends the same phrases it takes the same symbols for the same tree. -/
theorem Reads.taken {phrase : Phrase} {input rest : List Symbol} {tree : Expr}
    (h : Reads phrase input tree rest) :
    Local (fun input rest => Reads phrase input tree rest) input rest := by
  -- What is looked at behind the phrase is one of the kinds that `Quieter` speaks of, and what is looked at
  -- in the middle of it has been taken.
  induction h with
  | relation _ _ ih₁ ih₂ => exact ih₁.andThen ih₂ fun _ _ _ => .relation
  | relationNext _ _ ih₁ ih₂ => exact .cons (ih₁.andThen ih₂ fun _ _ _ => .relationNext)
  | relationEnd h => exact .ended fun _ hrest => .relationEnd (hrest _ (by simp [Symbol.goingOn]) h)
  | additive _ _ ih₁ ih₂ => exact ih₁.andThen ih₂ fun _ _ _ => .additive
  | additiveNext hop _ _ ih₁ ih₂ => exact .cons (ih₁.andThen ih₂ fun _ _ _ => .additiveNext hop)
  | additiveEnd h => exact .ended fun _ hrest => .additiveEnd (hrest _ (by simp [Symbol.goingOn]) h)
  | term _ _ ih₁ ih₂ => exact ih₁.andThen ih₂ fun _ _ _ => .term
  | termNext hop _ _ ih₁ ih₂ => exact .cons (ih₁.andThen ih₂ fun _ _ _ => .termNext hop)
  | termBeside hstart hright _ ih₁ ih₂ =>
    obtain ⟨a, rfl, ha⟩ := ih₁
    obtain ⟨b, rfl, hb⟩ := ih₂
    refine ⟨a ++ b, by simp, fun rest' hrest => ?_⟩
    rw [goesOn_append_congr (hright.taken_ne_nil rfl) _ _ (b ++ rest')] at hstart
    rw [List.append_assoc]
    exact .termBeside hstart (ha _ (hrest.append b)) (hb _ hrest)
  | termEnd h₁ h₂ =>
    exact .ended fun _ hrest => .termEnd (hrest _ (by simp [Symbol.goingOn]) h₁)
      (hrest _ (by simp [Symbol.goingOn]) h₂)
  | sign hop _ ih => exact .cons (ih.mono fun _ _ => .sign hop)
  | bigOperator _ ih => exact .cons (ih.mono fun _ _ => .bigOperator)
  | factor h₁ h₂ _ ih =>
    obtain ⟨a, rfl, ha⟩ := ih
    exact ⟨a, rfl, fun rest' hrest => .factor (hrest.append a _ (by simp [Symbol.goingOn]) h₁)
      (hrest.append a _ (by simp [Symbol.goingOn]) h₂) (ha _ hrest)⟩
  | bigSubscript _ _ ih₁ ih₂ => exact .cons (ih₁.andThen ih₂ fun _ _ _ => .bigSubscript)
  | bigPower _ _ ih₁ ih₂ => exact .cons (ih₁.andThen ih₂ fun _ _ _ => .bigPower)
  | bigTerm hstart hterm ih =>
    obtain ⟨a, rfl, ha⟩ := ih
    refine ⟨a, rfl, fun rest' hrest => ?_⟩
    rw [goesOn_append_congr (hterm.taken_ne_nil rfl) _ _ rest'] at hstart
    exact .bigTerm hstart (ha _ hrest)
  | bigAlone h₁ h₂ =>
    exact .ended fun _ hrest => .bigAlone (hrest _ (by simp [Symbol.goingOn]) h₁)
      (hrest _ (by simp [Symbol.goingOn]) h₂)
  | powered _ _ ih₁ ih₂ => exact ih₁.andThen ih₂ fun _ _ _ => .powered
  | subscript _ _ ih₁ ih₂ => exact .cons (ih₁.andThen ih₂ fun _ _ _ => .subscript)
  | power _ ih => exact .cons (ih.mono fun _ _ => .power)
  | poweredEnd h => exact .ended fun _ hrest => .poweredEnd (hrest _ (by simp [Symbol.goingOn]) h)
  | operand _ _ ih₁ ih₂ => exact ih₁.andThen ih₂ fun _ _ _ => .operand
  | group _ ih => exact .cons (ih.closed fun _ _ _ => .group)
  | primary h _ ih =>
    obtain ⟨a, rfl, ha⟩ := ih
    exact ⟨a, rfl, fun rest' hrest => .primary (hrest.append a _ (by simp [Symbol.goingOn]) h)
      (ha _ hrest)⟩
  | number => exact .cons (.ended fun _ _ => .number)
  | name h => exact .cons (.ended fun _ hrest => .name (hrest _ (by simp [Symbol.goingOn]) h))
  | callEmpty h => exact .cons (.cons (.cons (.ended fun _ _ => .callEmpty h)))
  | call hcallee hclose harguments ih =>
    obtain ⟨a, rfl, ha⟩ := ih
    refine .cons (.cons ⟨a, rfl, fun rest' hrest => ?_⟩)
    rw [goesOn_append_congr (harguments.taken_ne_nil rfl) _ _ rest'] at hclose
    exact .call hcallee hclose (ha _ hrest)
  | functionOperand hstart hoperand ih =>
    obtain ⟨a, rfl, ha⟩ := ih
    refine .cons ⟨a, rfl, fun rest' hrest => ?_⟩
    rw [goesOn_append_congr (hoperand.taken_ne_nil rfl) _ _ rest'] at hstart
    exact .functionOperand hstart (ha _ hrest)
  | functionAlone h =>
    exact .cons (.ended fun _ hrest => .functionAlone (hrest _ (by simp [Symbol.goingOn]) h))
  | rootAlone h => exact .cons (.ended fun _ hrest => .rootAlone (hrest _ (by simp [Symbol.goingOn]) h))
  | rootOne _ h ih =>
    exact .cons (.cons (ih.closed fun _ _ hrest hfirst =>
      .rootOne hfirst (hrest _ (by simp [Symbol.goingOn]) h)))
  | rootTwo _ _ ih₁ ih₂ =>
    have hsecond : Local (fun input rest => ∃ middle, input = .openParen :: middle
        ∧ Reads .relation middle _ (.closeParen :: rest)) (.openParen :: _) _ :=
      .cons (ih₂.closed fun middle _ _ h => ⟨middle, rfl, h⟩)
    exact .cons (.cons (ih₁.upTo hsecond fun _ _ _ h₁ ⟨_, hmiddle, h₂⟩ => .rootTwo (hmiddle ▸ h₁) h₂))
  | @integral _ behind _ v h _ ih =>
    obtain ⟨a, rfl, ha⟩ := ih
    refine .cons ⟨a ++ [Symbol.differential v], by simp, fun rest' _ => ?_⟩
    have hbehind : Quieter (.differential v :: behind) (.differential v :: rest') := .cons
    rw [List.append_assoc]
    exact .integral (hbehind.append a _ (by simp [Symbol.goingOn]) h) (ha _ hbehind)
  | integralLower _ _ _ ih₁ ih₂ ih₃ =>
    have hbody : Local (fun input rest => ∃ body, Reads .bound input _ body
        ∧ Reads .additive body _ (.differential _ :: rest)) _ _ :=
      ih₂.andThen (ih₃.closed fun _ _ _ h => h) fun _ body _ h₂ h₃ => ⟨body, h₂, h₃⟩
    exact .cons (.cons (ih₁.upTo hbody fun _ _ _ h₁ ⟨_, h₂, h₃⟩ => .integralLower h₁ h₂ h₃))
  | integralUpper _ _ _ ih₁ ih₂ ih₃ =>
    have hbody : Local (fun input rest => ∃ body, Reads .bound input _ body
        ∧ Reads .additive body _ (.differential _ :: rest)) _ _ :=
      ih₂.andThen (ih₃.closed fun _ _ _ h => h) fun _ body _ h₂ h₃ => ⟨body, h₂, h₃⟩
    exact .cons (.cons (ih₁.upTo hbody fun _ _ _ h₁ ⟨_, h₂, h₃⟩ => .integralUpper h₁ h₂ h₃))
  | argumentsNext _ _ ih₁ ih₂ => exact ih₁.upTo ih₂ fun _ _ _ => .argumentsNext
  | argumentsEnd _ ih => exact ih.closed fun _ _ _ => .argumentsEnd
  | boundMinus _ ih => exact .cons (ih.mono fun _ _ => .boundMinus)
  | bound h _ ih =>
    obtain ⟨a, rfl, ha⟩ := ih
    exact ⟨a, rfl, fun rest' hrest => .bound (hrest.append a _ (by simp [Symbol.goingOn]) h)
      (ha _ hrest)⟩

/-- What stands behind the symbols that a phrase takes may be exchanged. -/
theorem Reads.exchange {phrase : Phrase} {taken rest rest' : List Symbol} {tree : Expr}
    (h : Reads phrase (taken ++ rest) tree rest) (hrest : Quieter rest rest') :
    Reads phrase (taken ++ rest') tree rest' := by
  -- What is taken in front of this rest is what is taken in front of any.
  obtain ⟨front, hfront, hlocal⟩ := h.taken
  rw [List.append_cancel_right hfront]
  exact hlocal rest' hrest

/-- What a phrase takes is read the same way alone. -/
theorem Reads.alone {phrase : Phrase} {taken rest : List Symbol} {tree : Expr}
    (h : Reads phrase (taken ++ rest) tree rest) : Reads phrase taken tree [] := by
  have halone := h.exchange (.nil rest)
  rwa [List.append_nil] at halone

/-- A phrase is read the same way in front of symbols that start with a stop. -/
theorem Reads.extend {phrase : Phrase} {input rest k : List Symbol} {tree : Expr} (hk : Stops k)
    (h : Reads phrase input tree rest) : Reads phrase (input ++ k) tree (rest ++ k) := by
  obtain ⟨taken, rfl, hlocal⟩ := h.taken
  rw [List.append_assoc]
  exact hlocal _ fun kind hkind hrest => hk.goesOn hkind hrest

/-! ## Splitting at a parenthesis -/

/-- A character that is a symbol of its own wherever it stands. -/
def isSeam (c : Char) : Bool :=
  c == '(' || c == ')' || c == '/' || c == ','

/-- A run of characters ends in front of one that is not of the kind. -/
theorem takeWhile_append_cons_of_neg {kind : Char → Bool} {c : Char} (hc : kind c = false)
    (text more : Text) : (text ++ c :: more).takeWhile kind = text.takeWhile kind := by
  induction text with
  | nil => simp [hc]
  | cons d text ih => simp only [List.cons_append, List.takeWhile_cons, ih]

section Seams

variable {seam : Char} (hseam : isSeam seam = true)
include hseam

/-- A seam goes on with no word, no number and no mark. -/
theorem not_goesOn_of_isSeam : seam.isAlphanum = false ∧ isDecimalDigit seam = false ∧ seam ≠ '.'
    ∧ (seam ≠ '>' ∧ seam ≠ '=' ∧ seam ≠ '-') := by
  unfold isSeam at hseam
  simp only [Bool.or_eq_true, beq_iff_eq] at hseam
  rcases hseam with ((rfl | rfl) | rfl) | rfl <;> decide

/-- A seam is no digit, so it does not lengthen a fraction. -/
theorem fractionDigits_append_seam (text more : Text) :
    Symbol.fractionDigits (text ++ seam :: more) = Symbol.fractionDigits text := by
  obtain ⟨-, hdigit, hpoint, -⟩ := not_goesOn_of_isSeam hseam
  match text with
  | [] => simp [Symbol.fractionDigits, hpoint]
  | [c] =>
    by_cases hc : c = '.'
    · subst hc
      simp [Symbol.fractionDigits, hdigit]
    · simp [Symbol.fractionDigits, hc]
  | c :: d :: text =>
    by_cases hc : c = '.'
    · subst hc
      simp only [List.cons_append, Symbol.fractionDigits,
        takeWhile_append_cons_of_neg hdigit]
    · simp [Symbol.fractionDigits, hc]

/-- A seam is neither a digit nor a point, so it does not lengthen a number. -/
theorem numberAt_append_seam (text more : Text) :
    Symbol.numberAt (text ++ seam :: more) = Symbol.numberAt text := by
  obtain ⟨-, hdigit, -, -⟩ := not_goesOn_of_isSeam hseam
  have hlength : (text.takeWhile isDecimalDigit).length ≤ text.length :=
    (List.takeWhile_prefix _).length_le
  simp only [Symbol.numberAt, takeWhile_append_cons_of_neg hdigit,
    List.drop_append_of_le_length hlength, fractionDigits_append_seam hseam]

/-- A seam makes no longer operator of a mark in front of it. -/
theorem markAt?_append_seam (c : Char) (rest more : Text) :
    Symbol.markAt? (c :: (rest ++ seam :: more)) = Symbol.markAt? (c :: rest) := by
  obtain ⟨-, -, -, hgreater, hequal, hminus⟩ := not_goesOn_of_isSeam hseam
  cases rest with
  | nil =>
    have hpair : Symbol.pairMark? c seam = none := by
      simp [Symbol.pairMark?, hgreater, hequal, hminus]
    rw [List.nil_append, Symbol.markAt?_cons, Symbol.markAt?_nil, hpair]
    rfl
  | cons d rest => rw [List.cons_append, Symbol.markAt?_cons, Symbol.markAt?_cons]

/-- The symbol in front of a seam does not depend on what stands behind it. -/
theorem read?_append_seam (c : Char) (rest more : Text) :
    Symbol.read? c (rest ++ seam :: more) = Symbol.read? c rest := by
  have hnumber := numberAt_append_seam hseam (c :: rest) more
  rw [List.cons_append] at hnumber
  unfold Symbol.read?
  rw [takeWhile_append_cons_of_neg (not_goesOn_of_isSeam hseam).1, hnumber,
    markAt?_append_seam hseam]

/-- **A text is split at a seam**, into the symbols in front of it and those from it on. -/
theorem symbolsFrom_append_seam {covered : Nat} {text : Text} (more : Text)
    (hcovered : covered ≤ text.length) :
    symbolsFrom covered (text ++ seam :: more)
      = (symbolsFrom covered text).bind fun row =>
          (symbolsOf (seam :: more)).map (row ++ ·) := by
  induction text generalizing covered with
  | nil =>
    obtain rfl : covered = 0 := Nat.le_zero.mp hcovered
    simp [symbolsFrom, symbolsOf]
  | cons c rest ih =>
    cases covered with
    | succ covered => exact ih (Nat.le_of_succ_le_succ hcovered)
    | zero =>
      rw [List.cons_append, symbolsFrom, symbolsFrom, read?_append_seam hseam]
      split
      · exact ih (Nat.zero_le _)
      · cases hread : Symbol.read? c rest with
        | none => rfl
        | some symbol =>
          have hlength : symbol.text.length - 1 ≤ rest.length := by
            have := (Symbol.read?_isPrefix hread).1.length_le
            simp only [List.length_cons] at this
            omega
          simp only [ih hlength]
          cases symbolsFrom (symbol.text.length - 1) rest with
          | none => rfl
          | some row => cases symbolsOf (seam :: more) <;> simp

end Seams

@[simp] theorem symbolsOf_openParen (text : Text) :
    symbolsOf ('(' :: text) = (symbolsOf text).map (.openParen :: ·) :=
  symbolsOf_symbol (by decide) rfl

@[simp] theorem symbolsOf_closeParen (text : Text) :
    symbolsOf (')' :: text) = (symbolsOf text).map (.closeParen :: ·) :=
  symbolsOf_symbol (by decide) rfl

@[simp] theorem symbolsOf_slash (text : Text) :
    symbolsOf ('/' :: text) = (symbolsOf text).map (.slash :: ·) :=
  symbolsOf_symbol (by decide) rfl

/-- The symbols of a text that starts with a group. -/
theorem symbolsOf_group {inside behind : Text} {raw : List Symbol}
    (h : symbolsOf ('(' :: (inside ++ ')' :: behind)) = some raw) :
    ∃ middle last, symbolsOf inside = some middle ∧ symbolsOf behind = some last
      ∧ raw = .openParen :: middle ++ [Symbol.closeParen] ++ last := by
  rw [symbolsOf_openParen, symbolsOf, symbolsFrom_append_seam (by decide) _ (Nat.zero_le _),
    symbolsOf_closeParen] at h
  simp only [Option.bind_eq_some_iff, Option.map_eq_some_iff] at h
  obtain ⟨_, ⟨middle, hmiddle, _, ⟨last, hlast, rfl⟩, rfl⟩, rfl⟩ := h
  exact ⟨middle, last, hmiddle, hlast, by simp⟩

/-! ## Formulas -/

/-- A formula that can be read, alone and inside parentheses: it has a closed row, which is one
relation. -/
structure Formula (text : Text) (row : List Symbol) (tree : Expr) : Prop where
  closed : closedRow? text = some row
  reads : Reads .relation row tree []

/-- A text that is understood is a formula. -/
theorem parse_eq_ok_iff_formula {text : Text} {tree : Expr} :
    parse text = .ok tree ↔ ∃ row, Formula text row tree := by
  rw [parse_eq_ok_iff]
  exact ⟨fun ⟨row, hclosed, hreads⟩ => ⟨row, hclosed, hreads⟩,
    fun ⟨row, h⟩ => ⟨row, h.closed, h.reads⟩⟩

/-- The bare symbols of a formula, closed to the formula's row. -/
theorem Formula.raw {text : Text} {row : List Symbol} {tree : Expr} (h : Formula text row tree) :
    ∃ raw out last, symbolsOf text = some raw ∧ Closing.initial.run raw = some (out, last)
      ∧ row = out ++ last.heldSymbols := by
  obtain ⟨raw, hraw, hclosed⟩ := Option.bind_eq_some_iff.mp h.closed
  obtain ⟨⟨out, last⟩, hrun, rfl⟩ := Option.map_eq_some_iff.mp hclosed
  exact ⟨raw, out, last, hraw, hrun, rfl⟩

/-- The row of a quotient whose sides are in parentheses. -/
def quotientRow (numerator denominator : List Symbol) : List Symbol :=
  .openParen :: numerator ++ Symbol.closeParen :: .slash :: .openParen :: denominator ++ [Symbol.closeParen]

end MathScribe

/-
Tight arrows and the symbols of a formula.

Dropping the white space around an arrow could glue what stands there to it. In a formula that can be read
it does not: the one symbol that an arrow would lengthen is a plus, and no relation stands behind a plus
(`Formula.signed`). So a formula keeps its symbols, and with them its row and its tree
(`Formula.tightened`).
-/
import MathScribe.Proofs.Latex.Fraction
import MathScribe.Proofs.Reading.Summand

set_option autoImplicit false

namespace MathScribe

open Latex

/-! ## White space and the characters of a text -/

/-- Blanks in front of a text hold no symbol. -/
theorem symbolsOf_dropWhile (text : Text) : symbolsOf (text.dropWhile isBlank) = symbolsOf text := by
  induction text with
  | nil => rfl
  | cons c rest ih =>
    by_cases hc : isBlank c = true
    · rw [List.dropWhile_cons_of_pos hc, symbolsOf_blank hc, ih]
    · rw [List.dropWhile_cons_of_neg hc]

namespace Symbol

/-- No symbol is written with a backslash or a brace. -/
theorem clean_text {c : Char} {rest : Text} {symbol : Symbol} (h : read? c rest = some symbol) :
    Clean symbol.text := by
  rcases isWordChar_or_mark h with hword | hmark
  · intro d hd
    have hd := hword d hd
    exact ⟨isWordChar_ne hd (by decide), isWordChar_ne hd (by decide), isWordChar_ne hd (by decide)⟩
  · unfold markAt? at hmark
    split at hmark <;> cases hmark <;> simp [Clean, text, Relation.text]

/-- Behind the first character of a symbol stands no white space, and a minus only in one of them. -/
theorem inside_text {c : Char} {more left : Text} {symbol : Symbol}
    (h : read? c (more ++ left) = some symbol) (htext : symbol.text = c :: more)
    (hne : symbol ≠ plusMinus) : ∀ d ∈ more, isBlank d = false ∧ d ≠ '-' := by
  rcases isWordChar_or_mark h with hword | hmark
  · intro d hd
    have hd := hword d (htext ▸ List.mem_cons_of_mem c hd)
    exact ⟨isWordChar_not_blank hd, isWordChar_ne hd (by decide)⟩
  · rcases markAt?_cases hmark with ⟨hsingle, -⟩ | ⟨e, others, hothers, hpair⟩
    · rw [singleMark?_text hsingle] at htext
      obtain rfl : [] = more := (List.cons.inj htext).2
      exact nofun
    · have hmore := htext
      rw [pairMark?_text hpair] at hmore
      obtain rfl : [e] = more := (List.cons.inj hmore).2
      unfold pairMark? at hpair
      repeat' split at hpair
      all_goals cases hpair
      all_goals
        rename_i hce
        simp only [List.mem_singleton, forall_eq, hce.2]
        first | decide | exact absurd rfl hne

end Symbol

/-- **A text that can be split into symbols has no backslash and no brace.** -/
theorem clean_of_symbolsOf {text : Text} {row : List Symbol} (h : symbolsOf text = some row) :
    Clean text := by
  refine symbolsOf_induction (motive := fun text _ => Clean text) ?_ ?_ ?_ h
  · exact nofun
  · intro c rest row hc _ ih
    refine clean_cons.mpr ⟨⟨?_, ?_, ?_⟩, ih⟩ <;> rintro rfl <;> exact absurd hc (by decide)
  · intro c more left symbol row _ hread htext _ ih
    have hsymbol := Symbol.clean_text hread
    rw [htext] at hsymbol
    exact clean_append.mpr ⟨hsymbol, ih⟩

/-! ## No relation behind a plus -/

/-- No relation stands right behind a plus, with or without a minus. -/
def Unsigned (row : List Symbol) : Prop :=
  ∀ sign r, sign = .plus ∨ sign = .plusMinus → ¬ [sign, .relation r] <:+: row

/-- A row without a sign in front of a relation has none in its rest either. -/
theorem Unsigned.tail {symbol : Symbol} {row : List Symbol} (h : Unsigned (symbol :: row)) :
    Unsigned row :=
  fun sign r hsign hwithin => h sign r hsign (hwithin.trans (List.suffix_cons ..).isInfix)

/-- Such a row does not start with a sign and a relation. -/
theorem Unsigned.not_head {sign : Symbol} {r : Relation} {row : List Symbol}
    (h : Unsigned (sign :: .relation r :: row)) (hsign : sign = .plus ∨ sign = .plusMinus) : False :=
  h sign r hsign ⟨[], row, rfl⟩

/-- Where a relation is read, no plus stands in front of it. -/
theorem Reads.unsigned {row : List Symbol} {tree : Expr} (h : Reads .relation row tree []) :
    Unsigned row := by
  rintro sign r hsign ⟨before, behind, rfl⟩
  have hplace : sign :: .relation r :: behind <:+ before ++ [sign, .relation r] ++ behind :=
    ⟨before, by simp⟩
  have hentry := h.entries _ _ hplace (Nat.zero_le _)
  have hstarts : goesOn Symbol.startsTerm (.relation r :: behind) = true := by
    rcases hsign with rfl | rfl
    · obtain ⟨term, middle, _, _, _, hterm, -⟩ := hentry
      exact hterm.starts _ rfl
    · exact hentry
  cases hstarts

/-- Closing integrals delivers a plus and the relation behind it as they stand. -/
theorem Closing.run_signed {state last : Closing} {sign : Symbol} {r : Relation}
    {before behind out : List Symbol} (hsign : sign = .plus ∨ sign = .plusMinus)
    (h : state.run (before ++ [sign, .relation r] ++ behind) = some (out, last)) :
    [sign, .relation r] <:+: out := by
  rw [List.append_assoc] at h
  obtain ⟨front, middle, more, -, hmore, rfl⟩ := run_append_iff.mp h
  obtain ⟨delivered, next, others, hplus, hothers, rfl⟩ := run_cons_iff.mp hmore
  obtain ⟨delivered', next', others', hrelation, -, rfl⟩ := run_cons_iff.mp hothers
  have htaken : middle.take sign = some (middle.heldSymbols ++ [sign], middle.release) := by
    obtain ⟨depth, integrals, held⟩ := middle
    cases held <;> rcases hsign with rfl | rfl <;> rfl
  rw [htaken] at hplus
  cases hplus
  cases hrelation
  exact ⟨front ++ middle.heldSymbols, others', by simp⟩

/-- **In a formula no relation stands behind a plus.** -/
theorem Formula.unsigned {text : Text} {row raw : List Symbol} {tree : Expr}
    (h : Formula text row tree) (hraw : symbolsOf text = some raw) : Unsigned raw := by
  rintro sign r hsign ⟨before, behind, rfl⟩
  obtain ⟨raw', out, last, hraw', hrun, rfl⟩ := h.raw
  obtain rfl := Option.some.inj (hraw.symm.trans hraw')
  have hwithin := Closing.run_signed hsign hrun
  exact h.reads.unsigned sign r hsign (hwithin.trans (List.prefix_append ..).isInfix)

/-! ## Tightening keeps the symbols -/

/-- Where no arrow starts, one character is passed over. -/
theorem tightenArrows_of_none {c : Char} {rest : Text} (h : findArrow (c :: rest) = none) :
    tightenArrows (c :: rest) = c :: tightenArrows rest :=
  replaceAll_of_none h

/-- An arrow with white space around it becomes the bare arrow. -/
theorem tightenArrows_of_some {c : Char} {rest left : Text} (h : findArrow (c :: rest) = some left) :
    tightenArrows (c :: rest) = '-' :: '>' :: tightenArrows left :=
  replaceAll_of_some findArrow_shortens h

/-- White space in front of an arrow, or of nothing, does not matter to it. -/
theorem findArrow_blank {c : Char} (hc : isBlank c = true) (rest : Text) :
    findArrow (c :: rest) = findArrow rest := by
  unfold findArrow
  rw [List.dropWhile_cons_of_pos hc]

/-- A blank in front may be dropped before the arrows are tightened: it holds no symbol, and the arrow
behind it takes the white space with it. -/
theorem symbolsOf_tightenArrows_blank {c : Char} (hc : isBlank c = true) (rest : Text) :
    symbolsOf (tightenArrows (c :: rest)) = symbolsOf (tightenArrows rest) := by
  have hsame := findArrow_blank hc rest
  cases harrow : findArrow (c :: rest) with
  | none => rw [tightenArrows_of_none harrow, symbolsOf_blank hc]
  | some left =>
    rw [harrow] at hsame
    cases rest with
    | nil => cases hsame
    | cons d rest => rw [tightenArrows_of_some harrow, tightenArrows_of_some hsame.symm]

/-- All blanks in front may be dropped before the arrows are tightened. -/
theorem symbolsOf_tightenArrows_dropWhile (text : Text) :
    symbolsOf (tightenArrows (text.dropWhile isBlank)) = symbolsOf (tightenArrows text) := by
  induction text with
  | nil => rfl
  | cons c rest ih =>
    by_cases hc : isBlank c = true
    · rw [List.dropWhile_cons_of_pos hc, ih, symbolsOf_tightenArrows_blank hc]
    · rw [List.dropWhile_cons_of_neg hc]

/-- Nothing in a run without white space and without a minus belongs to an arrow. -/
theorem tightenArrows_append {more : Text} (h : ∀ d ∈ more, isBlank d = false ∧ d ≠ '-') (left : Text) :
    tightenArrows (more ++ left) = more ++ tightenArrows left := by
  induction more with
  | nil => rfl
  | cons d more ih =>
    obtain ⟨⟨hblank, hminus⟩, hmore⟩ := List.forall_mem_cons.mp h
    rw [List.cons_append, tightenArrows_of_none (findArrow_eq_none hblank hminus _), ih hmore]
    rfl

/-- What is found as an arrow is an arrow. -/
theorem dropWhile_of_findArrow {text left : Text} (h : findArrow text = some left) :
    ∃ more, text.dropWhile isBlank = '-' :: '>' :: more ∧ left = more.dropWhile isBlank := by
  obtain ⟨more, hmore, rfl⟩ := Option.map_eq_some_iff.mp h
  exact ⟨more, dropStart?_eq_some_iff.mp hmore, rfl⟩

/-- A minus in front of a greater-than sign is the arrow. -/
theorem read?_arrow (more : Text) :
    Symbol.read? '-' ('>' :: more) = some (.relation .tendsTo) :=
  rfl

/-- The arrow is one symbol, whatever follows it. -/
theorem symbolsOf_arrow (more : Text) :
    symbolsOf ('-' :: '>' :: more) = (symbolsOf more).map (.relation .tendsTo :: ·) := by
  have hblank : isBlank '-' = false := by decide
  exact symbolsOf_symbol hblank (read?_arrow more)

/-- A tightened text starts like the text, or with an arrow. -/
theorem head?_tightenArrows {text : Text} {row : List Symbol} (h : symbolsOf text = some row)
    {d : Char} (hd : d ∈ (tightenArrows text).head?) :
    d ∈ text.head? ∨ (d = '-' ∧ ∃ others, row = .relation .tendsTo :: others) := by
  cases text with
  | nil => exact absurd hd (by simp [tightenArrows])
  | cons c rest =>
    cases harrow : findArrow (c :: rest) with
    | none =>
      rw [tightenArrows_of_none harrow] at hd
      exact .inl hd
    | some left =>
      rw [tightenArrows_of_some harrow] at hd
      obtain ⟨more, hmore, -⟩ := dropWhile_of_findArrow harrow
      rw [← symbolsOf_dropWhile, hmore, symbolsOf_arrow] at h
      obtain ⟨others, -, rfl⟩ := Option.map_eq_some_iff.mp h
      exact .inr ⟨(Option.some.inj hd).symm, others, rfl⟩

/-- A symbol that a minus would lengthen is a plus. -/
theorem Symbol.eq_plus_of_goesOnWith {symbol : Symbol} (h : symbol.goesOnWith '-' = true) :
    symbol = .plus := by
  cases symbol with
  | plus => rfl
  | number digits =>
    have hfalse : (Symbol.number digits).goesOnWith '-' = false := by
      simp only [Symbol.goesOnWith, Bool.or_eq_false_iff]
      exact ⟨by decide, by simp⟩
    rw [hfalse] at h
    cases h
  | relation r => cases r <;> cases h
  | _ => cases h

/-- An arrow is found at a symbol only if it is that symbol. -/
theorem findArrow_of_symbol {c : Char} {rest : Text} {symbol : Symbol} (hc : isBlank c = false)
    (hread : Symbol.read? c rest = some symbol) (hne : symbol ≠ .relation .tendsTo) :
    findArrow (c :: rest) = none := by
  refine Option.eq_none_iff_forall_ne_some.mpr fun left harrow => ?_
  obtain ⟨more, hmore, -⟩ := dropWhile_of_findArrow harrow
  rw [List.dropWhile_cons_of_neg (by simp [hc])] at hmore
  obtain ⟨rfl, rfl⟩ := List.cons.inj hmore
  rw [read?_arrow] at hread
  exact hne (Option.some.inj hread).symm

/-- The symbol `+-` is not taken for a plus and the start of an arrow. -/
theorem findArrow_plusMinus {left : Text} {row : List Symbol} (hleft : symbolsOf left = some row)
    (hrow : Unsigned (.plusMinus :: row)) : findArrow ('-' :: left) = none := by
  refine Option.eq_none_iff_forall_ne_some.mpr fun found harrow => ?_
  obtain ⟨more, hmore, -⟩ := dropWhile_of_findArrow harrow
  rw [List.dropWhile_cons_of_neg (by decide)] at hmore
  obtain ⟨-, rfl⟩ := List.cons.inj hmore
  -- What stands behind the minus would be a relation.
  have hread : ∃ r, Symbol.read? '>' more = some (.relation r) := by
    have hnumber : Symbol.numberAt ('>' :: more) = [] :=
      Symbol.numberAt_cons_of_ne (by decide) (by decide) more
    have hmark : Symbol.read? '>' more = Symbol.markAt? ('>' :: more) :=
      Symbol.read?_of_mark (by decide) hnumber
    rw [hmark]
    unfold Symbol.markAt?
    split <;> simp_all
  obtain ⟨r, hread⟩ := hread
  have hblank : isBlank '>' = false := by decide
  rw [symbolsOf_symbol hblank hread] at hleft
  obtain ⟨others, -, rfl⟩ := Option.map_eq_some_iff.mp hleft
  exact hrow.not_head (.inr rfl)

/-- **Tightening arrows keeps the symbols** of a text in which no relation stands behind a plus. -/
theorem symbolsOf_tightenArrows {text : Text} {row : List Symbol} (h : symbolsOf text = some row)
    (hrow : Unsigned row) : symbolsOf (tightenArrows text) = some row := by
  revert hrow
  refine symbolsOf_induction
    (motive := fun text row => Unsigned row → symbolsOf (tightenArrows text) = some row)
    ?_ ?_ ?_ h
  · intro _
    simp [tightenArrows]
  · intro c rest row hc _ ih hrow
    rw [symbolsOf_tightenArrows_blank hc, ih hrow]
  · intro c more left symbol row hc hread htext hleft ih hrow
    have htail := ih hrow.tail
    by_cases harrow : symbol = .relation .tendsTo
    · subst harrow
      obtain ⟨rfl, rfl⟩ := List.cons.inj htext
      have hstart : dropStart? "->".toList ('-' :: '>' :: left) = some left :=
        dropStart?_eq_some_iff.mpr rfl
      have hfound : findArrow ('-' :: '>' :: left) = some (left.dropWhile isBlank) := by
        unfold findArrow
        rw [List.dropWhile_cons_of_neg (by decide), hstart]
        rfl
      show symbolsOf (tightenArrows ('-' :: '>' :: left)) = _
      rw [tightenArrows_of_some hfound, symbolsOf_arrow, symbolsOf_tightenArrows_dropWhile, htail]
      rfl
    · have hinside : tightenArrows (more ++ left) = more ++ tightenArrows left := by
        by_cases hsign : symbol = .plusMinus
        · subst hsign
          obtain ⟨-, rfl⟩ := List.cons.inj htext
          exact tightenArrows_of_none (findArrow_plusMinus hleft hrow)
        · exact tightenArrows_append (Symbol.inside_text hread htext hsign) left
      -- The symbol is read again, since what it is followed by does not lengthen it.
      have hends : ∀ d ∈ (tightenArrows left).head?, symbol.goesOnWith d = false := by
        intro d hd
        rcases head?_tightenArrows hleft hd with hsame | ⟨rfl, others, rfl⟩
        · exact Symbol.not_goesOnWith hread htext hleft d hsame
        · refine Bool.eq_false_iff.mpr fun hlonger => ?_
          obtain rfl := Symbol.eq_plus_of_goesOnWith hlonger
          exact hrow.not_head (.inl rfl)
      rw [tightenArrows_of_none (findArrow_of_symbol hc hread harrow), hinside,
        symbolsOf_append hc (Symbol.read?_congr hread htext hends) htext, htail]
      rfl

/-! ## Formulas -/

/-- A formula whose arrows are tightened is the same formula. -/
theorem Formula.tightenArrows {text : Text} {row : List Symbol} {tree : Expr}
    (h : Formula text row tree) : Formula (Latex.tightenArrows text) row tree := by
  obtain ⟨raw, out, last, hraw, -, -⟩ := h.raw
  refine ⟨?_, h.reads⟩
  have hclosed := h.closed
  unfold closedRow? at hclosed ⊢
  rwa [symbolsOf_tightenArrows hraw (h.unsigned hraw), ← hraw]

/-- **A formula stays the same formula** however often its arrows are tightened. -/
theorem Formula.tightened {text tight : Text} {row : List Symbol} {tree : Expr}
    (h : Formula text row tree) (htight : Tightened text tight) : Formula tight row tree := by
  induction htight with
  | same => exact h
  | again _ ih => exact ih.tightenArrows

/-- A formula has no backslash and no brace. -/
theorem Formula.clean {text : Text} {row : List Symbol} {tree : Expr} (h : Formula text row tree) :
    Clean text := by
  obtain ⟨raw, out, last, hraw, -, -⟩ := h.raw
  exact clean_of_symbolsOf hraw

end MathScribe

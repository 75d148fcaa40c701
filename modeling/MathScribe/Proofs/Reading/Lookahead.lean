/-
What may stand behind a symbol.

A symbol is always the longest one, so the character behind it decides whether it ends there:
`Symbol.goesOnWith` lists the characters that would make it longer. A symbol that is read is followed by
none of them (`Symbol.not_goesOnWith`), and in front of any text that starts with none of them the same
symbol is read again (`Symbol.read?_congr`). So the text behind a symbol may be exchanged without a look at
the rest of it.
-/
import MathScribe.Proofs.Reading.Row

set_option autoImplicit false

namespace MathScribe

/-! ## Longest runs -/

/-- The longest run of a kind of character ends where the next character is not of the kind. -/
theorem takeWhile_eq_iff {kind : Char → Bool} {run left : Text} :
    (run ++ left).takeWhile kind = run
      ↔ (∀ c ∈ run, kind c = true) ∧ ∀ d ∈ left.head?, kind d = false := by
  constructor
  · intro h
    have hrun : ∀ c ∈ run, kind c = true := by
      rw [← h]
      exact List.all_eq_true.mp List.all_takeWhile
    refine ⟨hrun, fun d hd => ?_⟩
    obtain ⟨more, rfl⟩ := List.head?_eq_some_iff.mp hd
    rw [List.takeWhile_append_of_pos hrun] at h
    have hnil : (d :: more).takeWhile kind = [] := by
      simpa using h
    refine Bool.eq_false_iff.mpr fun hkind => ?_
    rw [List.takeWhile_cons_of_pos hkind] at hnil
    cases hnil
  · rintro ⟨hrun, hleft⟩
    rw [List.takeWhile_append_of_pos hrun]
    cases left with
    | nil => simp
    | cons d more =>
      have hd : ¬ kind d = true := Bool.eq_false_iff.mp (hleft d rfl)
      rw [List.takeWhile_cons_of_neg hd, List.append_nil]

namespace Symbol

/-! ## Numbers -/

/-- How a number is written: digits alone, or digits with a point and more digits behind it. -/
inductive NumberText : Text → Prop
  | whole {digits : Text} : (∀ c ∈ digits, isDecimalDigit c = true) → NumberText digits
  | fraction {digits decimals : Text} : (∀ c ∈ digits, isDecimalDigit c = true) → decimals ≠ [] →
      (∀ c ∈ decimals, isDecimalDigit c = true) → NumberText (digits ++ '.' :: decimals)

/-- A point is no digit. -/
theorem not_isDecimalDigit_point : isDecimalDigit '.' = false := by
  decide

/-- A point with digits behind it is taken up to what is no digit. -/
theorem fractionDigits_append {decimals left : Text} (hne : decimals ≠ [])
    (hdecimals : ∀ c ∈ decimals, isDecimalDigit c = true)
    (hleft : ∀ d ∈ left.head?, isDecimalDigit d = false) :
    fractionDigits ('.' :: (decimals ++ left)) = '.' :: decimals := by
  obtain ⟨c, more, rfl⟩ := List.exists_cons_of_ne_nil hne
  obtain ⟨hc, hmore⟩ := List.forall_mem_cons.mp hdecimals
  rw [List.cons_append, fractionDigits, if_pos hc, takeWhile_eq_iff.mpr ⟨hmore, hleft⟩]

/-- Without a point there is no fraction. -/
theorem fractionDigits_of_ne {left : Text} (hleft : ∀ d ∈ left.head?, d ≠ '.') :
    fractionDigits left = [] := by
  unfold fractionDigits
  split
  · exact absurd rfl (hleft _ rfl)
  · rfl

/-- The text behind a number neither lengthens its last run of digits nor gives it a fraction. -/
def EndsNumber (digits left : Text) : Prop :=
  (∀ d ∈ left.head?, isDecimalDigit d = false) ∧ ('.' ∉ digits → fractionDigits left = [])

/-- What starts with neither a digit nor a point ends every number. -/
theorem EndsNumber.of_apart {left : Text} (h : ∀ d ∈ left.head?, isDecimalDigit d = false ∧ d ≠ '.')
    (digits : Text) : EndsNumber digits left :=
  ⟨fun d hd => (h d hd).1, fun _ => fractionDigits_of_ne fun d hd => (h d hd).2⟩

/-- Digits hold no point. -/
theorem not_mem_of_digits {digits : Text} (h : ∀ c ∈ digits, isDecimalDigit c = true) :
    '.' ∉ digits :=
  fun hmem => absurd ((h _ hmem).symm.trans not_isDecimalDigit_point) Bool.noConfusion

/-- A number is the digits at the front and the fraction behind them. -/
theorem numberAt_eq (text : Text) :
    numberAt text = text.takeWhile isDecimalDigit
      ++ fractionDigits (text.drop (text.takeWhile isDecimalDigit).length) :=
  rfl

/-- A number is taken whole in front of what ends it. -/
theorem numberAt_append {digits left : Text} (hdigits : NumberText digits)
    (hleft : EndsNumber digits left) : numberAt (digits ++ left) = digits := by
  rw [numberAt_eq]
  cases hdigits with
  | whole hwhole =>
    rw [takeWhile_eq_iff.mpr ⟨hwhole, hleft.1⟩, List.drop_left, hleft.2 (not_mem_of_digits hwhole),
      List.append_nil]
  | @fraction whole decimals hwhole hne hdecimals =>
    have hpoint : ∀ d ∈ ('.' :: (decimals ++ left)).head?, isDecimalDigit d = false := by
      simp [not_isDecimalDigit_point]
    have hrun : (whole ++ '.' :: (decimals ++ left)).takeWhile isDecimalDigit = whole :=
      takeWhile_eq_iff.mpr ⟨hwhole, hpoint⟩
    rw [List.append_assoc, List.cons_append, hrun, List.drop_left,
      fractionDigits_append hne hdecimals hleft.1]

/-- The number at the front of a text, with the text behind it. -/
theorem numberAt_spec (text : Text) :
    ∃ left, text = numberAt text ++ left ∧ NumberText (numberAt text)
      ∧ EndsNumber (numberAt text) left := by
  have hwhole : ∀ c ∈ text.takeWhile isDecimalDigit, isDecimalDigit c = true :=
    List.all_eq_true.mp List.all_takeWhile
  generalize hrun : text.takeWhile isDecimalDigit = whole at hwhole
  obtain ⟨rest, rfl⟩ : whole <+: text := hrun ▸ List.takeWhile_prefix _
  have hrest := (takeWhile_eq_iff.mp hrun).2
  have hnumber : numberAt (whole ++ rest) = whole ++ fractionDigits rest := by
    rw [numberAt_eq, hrun, List.drop_left]
  rw [hnumber]
  -- A number with a fraction ends behind the fraction, and one without in front of whatever is no digit.
  by_cases hfraction : fractionDigits rest = []
  · rw [hfraction, List.append_nil]
    exact ⟨rest, rfl, .whole hwhole, hrest, fun _ => hfraction⟩
  · unfold fractionDigits at hfraction ⊢
    split at hfraction
    · next c more =>
      split at hfraction
      · next hc =>
        rw [if_pos hc]
        refine ⟨more.dropWhile isDecimalDigit, ?_, .fraction hwhole (List.cons_ne_nil _ _) ?_, ?_, ?_⟩
        · simp [List.takeWhile_append_dropWhile]
        · exact List.forall_mem_cons.mpr ⟨hc, List.all_eq_true.mp List.all_takeWhile⟩
        · have hmore : (more.takeWhile isDecimalDigit ++ more.dropWhile isDecimalDigit).takeWhile
              isDecimalDigit = more.takeWhile isDecimalDigit := by
            rw [List.takeWhile_append_dropWhile]
          exact (takeWhile_eq_iff.mp hmore).2
        · intro hmem
          exact absurd (by simp) hmem
      · exact absurd rfl hfraction
    · exact absurd rfl hfraction

/-! ## Marks -/

/-- The mark of two characters that a character starts with another one behind it. -/
def pairMark? (c d : Char) : Option Symbol :=
  if c = '-' ∧ d = '>' then some (relation .tendsTo)
  else if c = '<' ∧ d = '=' then some (relation .atMost)
  else if c = '>' ∧ d = '=' then some (relation .atLeast)
  else if c = '!' ∧ d = '=' then some (relation .differs)
  else if c = '+' ∧ d = '-' then some plusMinus
  else none

/-- The mark of one character. -/
def singleMark? : Char → Option Symbol
  | '=' => some (relation .equal)
  | '<' => some (relation .less)
  | '>' => some (relation .greater)
  | '+' => some plus
  | '-' => some minus
  | '*' => some star
  | '/' => some slash
  | '(' => some openParen
  | ')' => some closeParen
  | ',' => some comma
  | '_' => some underscore
  | '^' => some caret
  | _ => none

/-- At the end of a text a mark stands alone. -/
theorem markAt?_nil (c : Char) : markAt? [c] = singleMark? c := by
  unfold markAt? singleMark?
  split <;> first | rfl | simp_all

/-- Two characters that make one operator are taken before a single mark. -/
theorem markAt?_cons (c d : Char) (rest : Text) :
    markAt? (c :: d :: rest) = (pairMark? c d).or (singleMark? c) := by
  unfold markAt?
  split
  -- The four characters that also start a longer mark, and those that start none.
  case h_7 | h_8 | h_9 | h_10 =>
    rename_i hne heq
    cases heq
    simp_all [pairMark?, singleMark?]
  case h_18 => simp_all [pairMark?, singleMark?]
  all_goals
    rename_i heq
    cases heq
    rfl

/-- A mark of two characters is written with these. -/
theorem pairMark?_text {c d : Char} {symbol : Symbol} (h : pairMark? c d = some symbol) :
    symbol.text = [c, d] := by
  unfold pairMark? at h
  repeat' split at h
  all_goals
    cases h <;> rename_i hcd <;> rw [hcd.1, hcd.2] <;> rfl

/-- A single mark is written with its character. -/
theorem singleMark?_text {c : Char} {symbol : Symbol} (h : singleMark? c = some symbol) :
    symbol.text = [c] := by
  unfold singleMark? at h
  split at h <;> cases h <;> rfl

/-- A single mark is taken where the next character does not make it longer. -/
theorem markAt?_of_single {c : Char} {rest : Text} {symbol : Symbol} (h : singleMark? c = some symbol)
    (hrest : ∀ d ∈ rest.head?, pairMark? c d = none) : markAt? (c :: rest) = some symbol := by
  cases rest with
  | nil => rw [markAt?_nil, h]
  | cons d rest => rw [markAt?_cons, hrest d rfl, h]; rfl

/-- A mark has one character, or two that go together. -/
theorem markAt?_cases {c : Char} {rest : Text} {symbol : Symbol} (h : markAt? (c :: rest) = some symbol) :
    (singleMark? c = some symbol ∧ ∀ d ∈ rest.head?, pairMark? c d = none)
    ∨ ∃ d more, rest = d :: more ∧ pairMark? c d = some symbol := by
  cases rest with
  | nil =>
    rw [markAt?_nil] at h
    exact .inl ⟨h, nofun⟩
  | cons d rest =>
    rw [markAt?_cons] at h
    rcases Option.or_eq_some_iff.mp h with hpair | ⟨hnone, hsingle⟩
    · exact .inr ⟨d, rest, rfl, hpair⟩
    · refine .inl ⟨hsingle, ?_⟩
      simpa using hnone

/-! ## Any symbol -/

/-- Whether a character behind the symbol would make it a longer one. -/
def goesOnWith : Symbol → Char → Bool
  | number digits, d => isDecimalDigit d || (d == '.' && !digits.contains '.')
  | name _, d | function _, d | bigOperator _, d | root, d | integral, d => d.isAlphanum
  | relation .less, d | relation .greater, d => d == '='
  | minus, d => d == '>'
  | plus, d => d == '-'
  | _, _ => false

/-- A word goes on with letters and digits, whether it is reserved or not. -/
theorem goesOnWith_ofWord (word : Text) (d : Char) : (ofWord word).goesOnWith d = d.isAlphanum := by
  unfold ofWord
  repeat' split
  all_goals rfl

/-- A symbol is a word, a number or a mark. -/
theorem read?_cases {c : Char} {rest : Text} {symbol : Symbol} (h : read? c rest = some symbol) :
    (c.isAlpha = true ∧ symbol = ofWord (c :: rest.takeWhile Char.isAlphanum))
    ∨ (c.isAlpha = false ∧ numberAt (c :: rest) ≠ [] ∧ symbol = number (numberAt (c :: rest)))
    ∨ (c.isAlpha = false ∧ numberAt (c :: rest) = [] ∧ markAt? (c :: rest) = some symbol) := by
  unfold read? at h
  by_cases hc : c.isAlpha = true
  · rw [if_pos hc] at h
    cases h
    exact .inl ⟨hc, rfl⟩
  · rw [if_neg hc] at h
    refine .inr ?_
    split at h
    · next hnumber => exact .inr ⟨Bool.eq_false_iff.mpr hc, hnumber, h⟩
    · next hnumber =>
      cases h
      exact .inl ⟨Bool.eq_false_iff.mpr hc, hnumber, rfl⟩

/-- Where a number starts, and no letter, it is the next symbol. -/
theorem read?_of_number {c : Char} {rest : Text} (hc : c.isAlpha = false)
    (hnumber : numberAt (c :: rest) ≠ []) : read? c rest = some (number (numberAt (c :: rest))) := by
  unfold read?
  rw [if_neg (by simp [hc])]
  split
  · next hnil => exact absurd hnil hnumber
  · rfl

/-- Where neither a letter nor a number starts, a mark is. -/
theorem read?_of_mark {c : Char} {rest : Text} (hc : c.isAlpha = false)
    (hnumber : numberAt (c :: rest) = []) : read? c rest = markAt? (c :: rest) := by
  unfold read?
  rw [if_neg (by simp [hc]), hnumber]

/-- A character that starts no number. -/
theorem numberAt_cons_of_ne {c : Char} (hdigit : isDecimalDigit c = false) (hpoint : c ≠ '.')
    (rest : Text) : numberAt (c :: rest) = [] := by
  have hends : EndsNumber [] (c :: rest) :=
    ⟨by simp [hdigit], fun _ => fractionDigits_of_ne (by simp [hpoint])⟩
  exact numberAt_append (.whole (by simp)) hends

/-- What starts no number starts none whatever stands behind it, if it starts a mark. -/
theorem numberAt_of_mark {c : Char} {rest : Text} {symbol : Symbol}
    (hnumber : numberAt (c :: rest) = []) (hmark : markAt? (c :: rest) = some symbol) (rest' : Text) :
    numberAt (c :: rest') = [] := by
  obtain ⟨left, hleft, -, hends⟩ := numberAt_spec (c :: rest)
  rw [hnumber, List.nil_append] at hleft
  rw [hnumber, ← hleft] at hends
  refine numberAt_cons_of_ne (hends.1 c rfl) ?_ rest'
  rintro rfl
  cases hmark

/-- A single mark goes on with what makes a longer one of it. -/
theorem goesOnWith_of_single {c : Char} {symbol : Symbol} (h : singleMark? c = some symbol)
    (d : Char) : symbol.goesOnWith d = (pairMark? c d).isSome := by
  unfold singleMark? at h
  split at h
  all_goals
    cases h
    try rfl
  all_goals
    unfold pairMark? goesOnWith
    simp only [Char.reduceEq, true_and, false_and, if_false]
    split <;> simp_all

/-- The mark in front of a text, exchanged for another one that does not lengthen it. -/
theorem markAt?_congr {c : Char} {more left left' : Text} {symbol : Symbol}
    (h : markAt? (c :: (more ++ left)) = some symbol) (htext : symbol.text = c :: more)
    (hleft : ∀ d ∈ left'.head?, symbol.goesOnWith d = false) :
    markAt? (c :: (more ++ left')) = some symbol := by
  rcases markAt?_cases h with ⟨hsingle, -⟩ | ⟨d, rest, hrest, hpair⟩
  · rw [singleMark?_text hsingle] at htext
    obtain rfl : [] = more := (List.cons.inj htext).2
    refine markAt?_of_single hsingle fun d hd => ?_
    have hends := hleft d hd
    rw [goesOnWith_of_single hsingle] at hends
    exact Option.isNone_iff_eq_none.mp (Option.isSome_eq_false_iff.mp hends)
  · rw [pairMark?_text hpair] at htext
    obtain rfl : [d] = more := (List.cons.inj htext).2
    show markAt? (c :: d :: left') = some symbol
    rw [markAt?_cons, hpair]
    rfl

/-- **What stands behind a symbol may be exchanged**, unless it would lengthen the symbol. -/
theorem read?_congr {c : Char} {more left left' : Text} {symbol : Symbol}
    (h : read? c (more ++ left) = some symbol) (htext : symbol.text = c :: more)
    (hleft : ∀ d ∈ left'.head?, symbol.goesOnWith d = false) :
    read? c (more ++ left') = some symbol := by
  -- A word ends where its letters do, a number where its digits do, and a mark has one character or two.
  rcases read?_cases h with ⟨hc, rfl⟩ | ⟨hc, hnumber, rfl⟩ | ⟨hc, hnumber, hmark⟩
  · rw [ofWord_text] at htext
    have hrun := (List.cons.inj htext).2
    have hletters := (takeWhile_eq_iff.mp hrun).1
    have hends : ∀ d ∈ left'.head?, d.isAlphanum = false := fun d hd =>
      (goesOnWith_ofWord _ d).symm.trans (hleft d hd)
    unfold read?
    rw [if_pos hc, hrun, takeWhile_eq_iff.mpr ⟨hletters, hends⟩]
  · have hdigits : numberAt (c :: (more ++ left)) = c :: more := htext
    obtain ⟨-, -, hspec, -⟩ := numberAt_spec (c :: (more ++ left))
    rw [hdigits] at hspec hleft ⊢
    have hends : EndsNumber (c :: more) left' := by
      constructor
      · intro d hd
        have := hleft d hd
        simp only [goesOnWith, Bool.or_eq_false_iff] at this
        exact this.1
      · intro hpoint
        refine fractionDigits_of_ne fun d hd => ?_
        rintro rfl
        have := hleft '.' hd
        simp only [goesOnWith, Bool.or_eq_false_iff, Bool.and_eq_false_iff] at this
        simp [hpoint] at this
    have hsame : numberAt (c :: (more ++ left')) = c :: more := numberAt_append hspec hends
    rw [read?_of_number hc (by simp [hsame]), hsame]
  · have hsame := numberAt_of_mark hnumber hmark (more ++ left')
    rw [read?_of_mark hc hsame]
    exact markAt?_congr hmark htext hleft

end Symbol

/-! ## The characters of a symbol -/

/-- White space lies between the digits of two scripts. -/
theorem isBlank_of_isDecimalDigit {c : Char} (h : isDecimalDigit c = true) : isBlank c = false := by
  have hzeros : ∀ first ∈ digitZeros, first = 0x30 ∨ (0x660 ≤ first ∧ first + 10 ≤ 0x1680)
      ∨ (0x1681 ≤ first ∧ first + 10 ≤ 0x2000) ∨ 0x3001 ≤ first := by
    decide
  obtain ⟨first, hmem, hbounds⟩ := List.any_eq_true.mp h
  have hfirst := hzeros first hmem
  simp only [Bool.and_eq_true, decide_eq_true_eq] at hbounds
  simp only [isBlank, Bool.or_eq_false_iff, Bool.and_eq_false_iff, decide_eq_false_iff_not,
    beq_eq_false_iff_ne]
  omega

/-- Letters and digits are no white space. -/
theorem isBlank_of_isAlphanum {c : Char} (h : c.isAlphanum = true) : isBlank c = false := by
  have hbounds : (48 ≤ c.toNat ∧ c.toNat ≤ 57) ∨ (65 ≤ c.toNat ∧ c.toNat ≤ 90)
      ∨ (97 ≤ c.toNat ∧ c.toNat ≤ 122) := by
    have := h
    simp [Char.isAlphanum, Char.isAlpha, Char.isUpper, Char.isLower, Char.isDigit,
      UInt32.le_iff_toNat_le] at this
    omega
  simp only [isBlank, Bool.or_eq_false_iff, Bool.and_eq_false_iff, decide_eq_false_iff_not,
    beq_eq_false_iff_ne]
  omega

namespace Symbol

/-- The characters of a word or of a number. -/
def isWordChar (c : Char) : Prop :=
  c.isAlphanum = true ∨ isDecimalDigit c = true ∨ c = '.'

/-- A number is written with digits and a point. -/
theorem NumberText.isDecimalDigit_or_point {digits : Text} (h : NumberText digits) :
    ∀ c ∈ digits, isDecimalDigit c = true ∨ c = '.' := by
  cases h with
  | whole hdigits => exact fun c hc => .inl (hdigits c hc)
  | @fraction whole decimals hwhole _ hdecimals =>
    intro c hc
    rcases List.mem_append.mp hc with hmem | hmem
    · exact .inl (hwhole c hmem)
    · rcases List.mem_cons.mp hmem with rfl | hmem
      · exact .inr rfl
      · exact .inl (hdecimals c hmem)

/-- A number is written with characters of words: digits and a point. -/
theorem NumberText.isWordChar {digits : Text} (h : NumberText digits) :
    ∀ c ∈ digits, isWordChar c :=
  fun c hc => .inr (h.isDecimalDigit_or_point c hc)

/-- A symbol is made of the characters of words and numbers, or it is a mark. -/
theorem isWordChar_or_mark {c : Char} {rest : Text} {symbol : Symbol}
    (h : read? c rest = some symbol) :
    (∀ d ∈ symbol.text, isWordChar d) ∨ markAt? (c :: rest) = some symbol := by
  rcases read?_cases h with ⟨hc, rfl⟩ | ⟨-, -, rfl⟩ | ⟨-, -, hmark⟩
  · rw [ofWord_text]
    refine .inl (List.forall_mem_cons.mpr ⟨.inl ?_, fun d hd => .inl ?_⟩)
    · simp [Char.isAlphanum, hc]
    · exact List.all_eq_true.mp List.all_takeWhile d hd
  · obtain ⟨_, -, hnumber, -⟩ := numberAt_spec (c :: rest)
    exact .inl hnumber.isWordChar
  · exact .inr hmark

/-- No character of a word is white space. -/
theorem isWordChar_not_blank {c : Char} (h : isWordChar c) : isBlank c = false := by
  rcases h with h | h | rfl
  · exact isBlank_of_isAlphanum h
  · exact isBlank_of_isDecimalDigit h
  · decide

/-- A character of a word is none of the marks. -/
theorem isWordChar_ne {c d : Char} (h : isWordChar c)
    (hd : d.isAlphanum = false ∧ isDecimalDigit d = false ∧ d ≠ '.') : c ≠ d := by
  rintro rfl
  rcases h with h | h | h
  · exact absurd (hd.1.symm.trans h) Bool.noConfusion
  · exact absurd (hd.2.1.symm.trans h) Bool.noConfusion
  · exact hd.2.2 h

end Symbol

/-! ## In front of a text that can be read -/

/-- A point that is not part of a number starts no symbol. -/
theorem symbolsOf_point {rest : Text} (h : Symbol.fractionDigits ('.' :: rest) = []) :
    symbolsOf ('.' :: rest) = none := by
  have hends : Symbol.EndsNumber [] ('.' :: rest) :=
    ⟨by simp [Symbol.not_isDecimalDigit_point], fun _ => h⟩
  have hnumber : Symbol.numberAt ('.' :: rest) = [] :=
    Symbol.numberAt_append (.whole (by simp)) hends
  have hread : Symbol.read? '.' rest = none := by
    rw [Symbol.read?_of_mark (by decide) hnumber]
    rfl
  unfold symbolsOf
  rw [symbolsFrom, if_neg (by decide), hread]

/-- **The character behind a symbol does not lengthen it**, when the text behind it can be read. -/
theorem Symbol.not_goesOnWith {c : Char} {more left : Text} {symbol : Symbol} {row : List Symbol}
    (h : read? c (more ++ left) = some symbol) (htext : symbol.text = c :: more)
    (hrow : symbolsOf left = some row) : ∀ d ∈ left.head?, symbol.goesOnWith d = false := by
  intro d hd
  obtain ⟨rest, rfl⟩ := List.head?_eq_some_iff.mp hd
  -- A word and a number have taken all they could. A mark of one character could only grow to one of two.
  rcases read?_cases h with ⟨hc, rfl⟩ | ⟨hc, hnumber, rfl⟩ | ⟨hc, hnumber, hmark⟩
  · rw [ofWord_text] at htext
    rw [goesOnWith_ofWord]
    exact (takeWhile_eq_iff.mp (List.cons.inj htext).2).2 d rfl
  · have hdigits : numberAt (c :: (more ++ d :: rest)) = c :: more := htext
    obtain ⟨left, hleft, -, hends⟩ := numberAt_spec (c :: (more ++ d :: rest))
    rw [hdigits] at hleft hends ⊢
    have hsame : (c :: more) ++ d :: rest = (c :: more) ++ left := hleft
    obtain rfl : d :: rest = left := List.append_cancel_left hsame
    have hdigit : isDecimalDigit d = false := hends.1 d rfl
    by_cases hpoint : d = '.' ∧ '.' ∉ c :: more
    · -- A point that gives the number no fraction could not be read.
      obtain ⟨rfl, hnone⟩ := hpoint
      rw [symbolsOf_point (hends.2 hnone)] at hrow
      cases hrow
    · simp only [goesOnWith, hdigit, Bool.false_or, Bool.and_eq_false_iff]
      by_cases hd : d = '.'
      · refine .inr ?_
        simpa using not_and.mp hpoint hd
      · exact .inl (by simpa using hd)
  · rcases markAt?_cases hmark with ⟨hsingle, hnone⟩ | ⟨e, others, hothers, hpair⟩
    · rw [singleMark?_text hsingle] at htext
      obtain rfl : [] = more := (List.cons.inj htext).2
      rw [goesOnWith_of_single hsingle, hnone d rfl]
      rfl
    · unfold pairMark? at hpair
      repeat' split at hpair
      all_goals
        cases hpair
        try rfl

/-! ## Reading symbol by symbol -/

/-- A symbol stands at the front of its text, and the rest is read behind it. -/
theorem symbolsOf_append {c : Char} {more left : Text} {symbol : Symbol} (hc : isBlank c = false)
    (h : Symbol.read? c (more ++ left) = some symbol) (htext : symbol.text = c :: more) :
    symbolsOf (c :: (more ++ left)) = (symbolsOf left).map (symbol :: ·) := by
  rw [symbolsOf_symbol hc h, htext, List.length_cons, Nat.add_sub_cancel, List.drop_left]

/-- A text that can be split and does not start with white space starts with a symbol, and the text behind
the symbol can be split. -/
theorem exists_read?_of_symbolsOf {c : Char} {rest : Text} {row : List Symbol} (hc : isBlank c = false)
    (h : symbolsOf (c :: rest) = some row) :
    ∃ symbol more left others, rest = more ++ left ∧ Symbol.read? c (more ++ left) = some symbol
      ∧ symbol.text = c :: more ∧ symbolsOf left = some others ∧ row = symbol :: others := by
  cases hread : Symbol.read? c rest with
  | none =>
    unfold symbolsOf at h
    rw [symbolsFrom, hread] at h
    simp [hc] at h
  | some symbol =>
    rw [symbolsOf_symbol hc hread] at h
    obtain ⟨others, hothers, rfl⟩ := Option.map_eq_some_iff.mp h
    have htext := Symbol.read?_eq_append hread
    obtain ⟨first, more, hmore⟩ := List.exists_cons_of_ne_nil (Symbol.read?_isPrefix hread).2
    rw [hmore] at htext hothers
    rw [List.cons_append, List.length_cons, Nat.add_sub_cancel] at htext
    rw [List.length_cons, Nat.add_sub_cancel] at hothers
    obtain ⟨rfl, hrest⟩ := List.cons.inj htext
    exact ⟨symbol, more, rest.drop more.length, others, hrest.symm, hrest.symm ▸ hread, hmore, hothers, rfl⟩

/-- A text that can be split is empty, or white space or a symbol in front of such a text. -/
@[elab_as_elim]
theorem symbolsOf_induction {motive : Text → List Symbol → Prop} (nil : motive [] [])
    (blank : ∀ c rest row, isBlank c = true → symbolsOf rest = some row → motive rest row →
      motive (c :: rest) row)
    (symbol : ∀ c more left symbol row, isBlank c = false →
      Symbol.read? c (more ++ left) = some symbol → symbol.text = c :: more →
      symbolsOf left = some row → motive left row → motive (c :: (more ++ left)) (symbol :: row))
    {text : Text} {row : List Symbol} (h : symbolsOf text = some row) : motive text row := by
  induction hlength : text.length using Nat.strongRecOn generalizing text row with
  -- The text behind a symbol is shorter, but no tail of one character, so the induction is on the length.
  | _ n ih =>
    cases text with
    | nil =>
      cases h
      exact nil
    | cons c rest =>
      rw [List.length_cons] at hlength
      by_cases hc : isBlank c = true
      · rw [symbolsOf_blank hc] at h
        exact blank c rest row hc h (ih rest.length (by omega) h rfl)
      · have hc : isBlank c = false := Bool.eq_false_iff.mpr hc
        obtain ⟨found, more, left, others, rfl, hread, hmore, hothers, rfl⟩ :=
          exists_read?_of_symbolsOf hc h
        have hshort : left.length < n := by
          rw [List.length_append] at hlength
          omega
        exact symbol c more left found others hc hread hmore hothers (ih _ hshort hothers rfl)

/-- **Two texts in a row** have the symbols of both, when the first character of the second text does not
lengthen the last symbol of the first. -/
theorem symbolsOf_join {a b : Text} {first second : List Symbol} (ha : symbolsOf a = some first)
    (hb : symbolsOf b = some second)
    (hseam : ∀ symbol ∈ first.getLast?, ∀ d ∈ b.head?, symbol.goesOnWith d = false) :
    symbolsOf (a ++ b) = some (first ++ second) := by
  revert hseam
  refine symbolsOf_induction (motive := fun a first =>
    (∀ symbol ∈ first.getLast?, ∀ d ∈ b.head?, symbol.goesOnWith d = false) →
      symbolsOf (a ++ b) = some (first ++ second)) ?_ ?_ ?_ ha
  · exact fun _ => hb
  · intro c rest row hc _ ih hseam
    rw [List.cons_append, symbolsOf_blank hc, ih hseam]
  · intro c more left symbol row hc hread htext hleft ih hseam
    have hrow : ∀ symbol ∈ row.getLast?, ∀ d ∈ b.head?, symbol.goesOnWith d = false := by
      intro last hlast
      refine hseam last ?_
      rw [List.getLast?_cons, Option.mem_def.mp hlast]
      rfl
    -- What stands behind the symbol is the rest of the first text, or the second one.
    have hends : ∀ d ∈ (left ++ b).head?, symbol.goesOnWith d = false := by
      cases left with
      | nil =>
        cases hleft
        exact hseam symbol rfl
      | cons d left =>
        have hends := Symbol.not_goesOnWith hread htext hleft
        exact hends
    have hwhole : c :: (more ++ left) ++ b = c :: (more ++ (left ++ b)) := by simp
    rw [hwhole, symbolsOf_append hc (Symbol.read?_congr hread htext hends) htext, ih hrow]
    rfl

end MathScribe

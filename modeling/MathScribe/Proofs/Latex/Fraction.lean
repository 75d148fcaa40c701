/-
A fraction anywhere in a formula.

A fraction in the source of a formula is not cut by what stands around it: every reader that starts in
front of it leaves it behind, or takes it as a whole into a text that the piece shows (`Piece.Front.holds`).
So in a readable normal form the numerator and the denominator appear between parentheses with a slash
between them (`showsQuotient`), however deep the fraction lies. What happens to them on the way out is only
that white space around arrows is dropped, once for each limit under which the fraction stands.

The one reader that takes something and does not show it is that of a limit, whose superscript is dropped;
`ClearOfLimits` says that no such superscript is in the way.
-/
import MathScribe.Proofs.Latex.Clean

set_option autoImplicit false

namespace MathScribe.Latex

/-! ## A fraction is not cut -/

/-- What ends without a backslash ends in front of the fraction. -/
theorem exists_of_append_eq (start : Text) {front behind rest : Text} (hstart : '\\' ∉ start)
    (h : front ++ fractionAt behind = start ++ rest) :
    ∃ more, front = start ++ more ∧ rest = more ++ fractionAt behind := by
  rcases List.append_eq_append_iff.mp h with ⟨beyond, hbeyond, hrest⟩ | ⟨more, hmore, hrest⟩
  · cases beyond with
    | nil => exact ⟨[], by simpa using hbeyond.symm, hrest.symm⟩
    | cons c beyond =>
      have hc : '\\' = c := (List.cons.inj hrest).1
      exact absurd (by rw [hbeyond, hc]; simp) hstart
  · exact ⟨more, hmore, hrest⟩

/-- A character that no fraction macro has. -/
def OutsideMacro (c : Char) : Prop :=
  c ∉ fractionAt []

instance (c : Char) : Decidable (OutsideMacro c) :=
  inferInstanceAs (Decidable (c ∉ fractionAt []))

/-- A delimiter stands in front of the fraction, or behind its macro. -/
theorem split_of_append_eq {front behind inside rest : Text} {d : Char} (hd : OutsideMacro d)
    (h : front ++ fractionAt behind = inside ++ d :: rest) :
    (∃ more, front = inside ++ d :: more ∧ rest = more ++ fractionAt behind)
    ∨ ∃ cut, inside = front ++ fractionAt cut ∧ behind = cut ++ d :: rest := by
  -- The delimiter stands behind the front, or in it. It is not one of the characters of the macro.
  rcases List.append_eq_append_iff.mp h with ⟨beyond, hbeyond, hrest⟩ | ⟨more, hmore, hrest⟩
  · refine .inr ?_
    have hcommand : fractionAt behind = fractionAt [] ++ behind := rfl
    rw [hcommand] at hrest
    rcases List.append_eq_append_iff.mp hrest with ⟨cut, hcut, hbehind⟩ | ⟨cut, hcut, hbehind⟩
    · refine ⟨cut, ?_, hbehind⟩
      rw [hbeyond, hcut]
      rfl
    · cases cut with
      | nil => exact ⟨[], by rw [hbeyond, hcut]; simp, by simpa using hbehind.symm⟩
      | cons c cut =>
        have hc : d = c := (List.cons.inj hbehind).1
        exact absurd (by rw [hcut, hc]; simp) hd
  · cases more with
    | nil =>
      have hc : d = '\\' := (List.cons.inj hrest).1
      exact absurd (by rw [hc]; simp [fractionAt]) hd
    | cons c more =>
      obtain ⟨rfl, hbehind⟩ := List.cons.inj hrest
      exact .inl ⟨more, hmore, hbehind⟩

/-- Something is read off a text with a fraction in it, and the fraction is left over, or it stands in
one of the texts inside. -/
def Holds (front behind : Text) (insides : List Text) (left : Text) : Prop :=
  ∃ more, more <:+ front ∧ (left = more ++ fractionAt behind
    ∨ ∃ inside ∈ insides, ∃ cut rest, inside = more ++ fractionAt cut ∧ behind = cut ++ rest
      ∧ startsWithLetter rest = false)

section

variable {front behind left : Text}

/-- What is left over holds the fraction. -/
theorem Holds.of_left {more : Text} {insides : List Text} (hmore : more <:+ front)
    (h : left = more ++ fractionAt behind) : Holds front behind insides left :=
  ⟨more, hmore, .inl h⟩

/-- Reading on behind a part of the front is reading behind the front. -/
theorem Holds.of_suffix {more : Text} {insides : List Text} (h : Holds more behind insides left)
    (hmore : more <:+ front) : Holds front behind insides left := by
  obtain ⟨deeper, hdeeper, h⟩ := h
  exact ⟨deeper, hdeeper.trans hmore, h⟩

/-- More texts inside hold the fraction as well. -/
theorem Holds.mono {insides others : List Text} (h : Holds front behind insides left)
    (hsub : insides ⊆ others) : Holds front behind others left := by
  obtain ⟨more, hmore, hleft | ⟨inside, hmem, hcut⟩⟩ := h
  · exact .of_left hmore hleft
  · exact ⟨more, hmore, .inr ⟨inside, hsub hmem, hcut⟩⟩

/-- One reader goes on where another one ended. -/
theorem Holds.andThen {middle : Text} {insides others : List Text}
    (h : Holds front behind insides middle)
    (hnext : ∀ more, middle = more ++ fractionAt behind → Holds more behind others left) :
    Holds front behind (insides ++ others) left := by
  obtain ⟨more, hmore, hmiddle | ⟨inside, hmem, hcut⟩⟩ := h
  · exact ((hnext more hmiddle).of_suffix hmore).mono (List.subset_append_right _ _)
  · exact ⟨more, hmore, .inr ⟨inside, List.mem_append_left _ hmem, hcut⟩⟩

/-- A group in delimiters that no fraction macro has. -/
theorem holds_group (start : Text) (d : Char) {inside : Text} (hstart : '\\' ∉ start) (hd : OutsideMacro d)
    (hletter : d.isAlpha = false)
    (h : front ++ fractionAt behind = start ++ (inside ++ d :: left)) :
    Holds front behind [inside] left := by
  obtain ⟨more, rfl, hmore⟩ := exists_of_append_eq start hstart h
  rcases split_of_append_eq hd hmore.symm with ⟨deeper, rfl, hleft⟩ | ⟨cut, hinside, hbehind⟩
  · refine .of_left ?_ hleft
    exact ⟨start ++ (inside ++ [d]), by simp⟩
  · refine ⟨more, List.suffix_append .., .inr ⟨inside, List.mem_cons_self, cut, d :: left, hinside,
      hbehind, hletter⟩⟩

/-- A brace group in front of the fraction leaves it over, or has it inside. -/
theorem readPaddedBraces_holds {inside : Text}
    (h : readPaddedBraces (front ++ fractionAt behind) = some (inside, left)) :
    Holds front behind [inside] left := by
  obtain ⟨pads, hpads, htext, -⟩ := readPaddedBraces_eq_some_iff.mp h
  have hstart : '\\' ∉ pads ++ ['{'] := by
    intro hmem
    rcases List.mem_append.mp hmem with hpad | hopen
    · exact absurd (hpads _ hpad) (by decide)
    · simp at hopen
  exact holds_group _ '}' hstart (by decide) (by decide) (by rw [htext]; simp)

/-- A bracket group in front of the fraction leaves it over, or has it inside: no fraction macro has a
bracket, so the closer is not part of one. -/
theorem readBrackets_holds {inside : Text}
    (h : readBrackets (front ++ fractionAt behind) = some (inside, left)) :
    Holds front behind [inside] left := by
  obtain ⟨htext, -⟩ := (readGroup_eq_some_iff delimiters_brackets).mp h
  exact holds_group ['['] ']' (by decide) (by decide) (by decide) htext

/-- A macro name is made of letters. -/
theorem MacroName.not_mem {name : Text} (h : MacroName name left) : '\\' ∉ name :=
  fun hmem => absurd (h.letters _ hmem) (by decide)

/-- The name of the fraction macro has letters only. -/
theorem fraction_letters : ∀ c ∈ ['f', 'r', 'a', 'c'], c.isAlpha = true :=
  List.all_eq_true.mp rfl

/-- A macro that starts as a fraction does has a name that goes on with what stands behind it. -/
theorem MacroName.of_fraction {name : Text} (h : MacroName name left)
    (htext : name ++ left = ['f', 'r', 'a', 'c'] ++ behind) :
    ∃ cut, name = ['f', 'r', 'a', 'c'] ++ cut ∧ behind = cut ++ left := by
  rcases List.append_eq_append_iff.mp htext with ⟨beyond, hbeyond, hleft⟩ | ⟨cut, hcut, hbehind⟩
  · cases beyond with
    | nil => exact ⟨[], by rw [hbeyond]; simp, by simpa using hleft.symm⟩
    | cons c beyond =>
      have hmem : c ∈ ['f', 'r', 'a', 'c'] := by
        rw [hbeyond]
        simp
      have hends := h.ends
      rw [hleft] at hends
      exact absurd ((fraction_letters c hmem).symm.trans hends) Bool.noConfusion
  · exact ⟨cut, hcut, hbehind⟩

/-- A script behind its mark leaves the fraction over, or has it inside its group. As a bare macro it
would be the fraction's own, which the group behind it rules out. -/
theorem readMarked_holds {mark : Char} (hmark : mark ≠ '\\') {argument : Text}
    (h : readMarked mark (front ++ fractionAt behind) = some (argument, left)) :
    Holds front behind [argument] left := by
  obtain ⟨script, rfl, htext, hstands⟩ := readMarked_eq_some_iff.mp h
  have hnot : ∀ text : Text, '\\' ∉ text → '\\' ∉ mark :: text := by
    intro text htext hmem
    exact (List.mem_cons.mp hmem).elim (fun heq => hmark heq.symm) htext
  cases script with
  | group inside =>
    refine holds_group [mark, '{'] '}' (hnot _ (by decide)) (by decide) (by decide) ?_
    rw [htext]
    simp [Script.source, Script.argument]
  | letter c =>
    obtain ⟨more, rfl, hmore⟩ := exists_of_append_eq [mark, c]
      (hnot _ (by simpa using Ne.symm hstands.1)) htext
    exact .of_left (List.suffix_append ..) hmore
  | command name =>
    obtain ⟨more, rfl, hmore⟩ := exists_of_append_eq [mark] (hnot _ (by simp)) htext
    cases more with
    | nil =>
      -- The command is the fraction macro itself, without its groups.
      obtain ⟨cut, hname, hbehind⟩ := MacroName.of_fraction hstands (List.cons.inj hmore).2
      refine ⟨[], List.nil_suffix, .inr ⟨_, List.mem_cons_self, cut, left, ?_, hbehind,
        hstands.ends⟩⟩
      rw [hname]
      rfl
    | cons c more =>
      obtain ⟨rfl, hrest⟩ := List.cons.inj hmore
      obtain ⟨deeper, rfl, hleft⟩ := exists_of_append_eq name (MacroName.not_mem hstands) hrest.symm
      refine .of_left ?_ hleft
      exact ⟨mark :: '\\' :: name, by simp⟩

/-- The scripts of a big operator leave the fraction over, or have it inside one of them, in either order.
-/
theorem ScriptsRead.holds {scripts : Scripts}
    (h : ScriptsRead (front ++ fractionAt behind) scripts left) :
    Holds front behind (scripts.lower.toList ++ scripts.upper.toList) left := by
  cases h with
  | none => exact .of_left (List.suffix_refl _) rfl
  | lower hlower => exact readMarked_holds (by decide) hlower
  | lowerUpper hlower hupper =>
    refine (readMarked_holds (by decide) hlower).andThen ?_
    rintro more rfl
    exact readMarked_holds (by decide) hupper
  | upper hupper => exact readMarked_holds (by decide) hupper
  | upperLower hupper hlower =>
    have hboth : Holds front behind ([_] ++ [_]) left :=
      (readMarked_holds (by decide) hupper).andThen fun more hmiddle =>
        readMarked_holds (by decide) (hmiddle ▸ hlower)
    exact hboth.mono (by simp)

end

/-! ## Limits -/

/-- A text that starts with a superscript does not start with a subscript. -/
theorem readMarked_lower_of_upper {text upper left : Text}
    (h : readMarked '^' text = some (upper, left)) : readMarked '_' text = none := by
  obtain ⟨script, -, rfl, -⟩ := readMarked_eq_some_iff.mp h
  rfl

/-- Scripts with a superscript stay so when more text follows, and nothing is left that was not left
before. -/
theorem readScripts_append {text more : Text} (hmore : startsWithLetter more = false)
    (h : (readScripts text).1.upper ≠ none) :
    (readScripts (text ++ more)).1.upper ≠ none
      ∧ (readScripts (text ++ more)).2 <:+ (readScripts text).2 ++ more := by
  have hread := scriptsRead text
  generalize (readScripts text).1 = scripts, (readScripts text).2 = left at hread h ⊢
  cases hread with
  | none => exact absurd rfl h
  | lower => exact absurd rfl h
  | lowerUpper hlower hupper =>
    unfold readScripts
    simp [readMarked_append hmore hlower, readMarked_append hmore hupper]
  | upper hupper _ =>
    have hlong := readMarked_append hmore hupper
    -- A subscript may appear that was not complete before.
    unfold readScripts
    simp only [readMarked_lower_of_upper hlong, hlong]
    split
    · next hlower => exact ⟨Option.some_ne_none _, readMarked_suffix hlower⟩
    · exact ⟨Option.some_ne_none _, List.suffix_refl _⟩
  | upperLower hupper hlower =>
    have hlong := readMarked_append hmore hupper
    unfold readScripts
    simp [readMarked_lower_of_upper hlong, hlong, readMarked_append hmore hlower]

/-- No limit in front of the fraction takes it into its scripts when one of them is a superscript. -/
def ClearOfLimits (front fraction : Text) : Prop :=
  ∀ before after, front = before ++ '\\' :: (limitMacro ++ after) →
    (readScripts (after ++ fraction)).1.upper = none
      ∨ fraction <:+ (readScripts (after ++ fraction)).2

/-- What is clear of limits stays so when the front is cut off. -/
theorem ClearOfLimits.of_suffix {front more fraction : Text} (h : ClearOfLimits front fraction)
    (hmore : more <:+ front) : ClearOfLimits more fraction := by
  obtain ⟨start, rfl⟩ := hmore
  intro before after hsplit
  refine h (start ++ before) after ?_
  rw [hsplit, List.append_assoc]

/-- What holds of a fraction holds of it when the text behind is cut off. -/
theorem ClearOfLimits.cut {front cut rest : Text} (hrest : startsWithLetter rest = false)
    (h : ClearOfLimits front (fractionAt (cut ++ rest))) : ClearOfLimits front (fractionAt cut) := by
  intro before after hsplit
  by_cases hupper : (readScripts (after ++ fractionAt cut)).1.upper = none
  · exact .inl hupper
  · have hlong : after ++ fractionAt (cut ++ rest) = after ++ fractionAt cut ++ rest := by
      simp [fractionAt]
    obtain ⟨hstill, hleft⟩ := readScripts_append hrest hupper
    have hclear := h before after hsplit
    rw [hlong] at hclear
    rcases hclear with hnone | ⟨start, hstart⟩
    · exact absurd hnone hstill
    · obtain ⟨more, hsame⟩ := hleft
      refine .inr ⟨more ++ start, ?_⟩
      rw [← hstart] at hsame
      have hboth : more ++ start ++ fractionAt cut ++ rest
          = (readScripts (after ++ fractionAt cut)).2 ++ rest := by
        rw [← hsame]
        simp [fractionAt]
      exact List.append_cancel_right hboth

/-! ## Pieces keep a fraction -/

namespace Piece

/-- **A known macro keeps the fraction.** It leaves the fraction over or shows it in one of its arguments;
only a limit shows less than it takes, and no limit stands in the way. -/
theorem Made.holds {name front behind left : Text} {piece : Piece}
    (h : Made name (front ++ fractionAt behind) piece left)
    (hclear : ClearOfLimits ('\\' :: (name ++ front)) (fractionAt behind)) :
    Holds front behind piece.shown left := by
  cases h with
  | word => exact .of_left (List.suffix_refl _) rfl
  | fraction _ hnumerator hdenominator =>
    refine (readPaddedBraces_holds hnumerator).andThen ?_
    rintro more rfl
    exact readPaddedBraces_holds hdenominator
  | root _ hindex hradicand =>
    refine (readBrackets_holds hindex).andThen ?_
    rintro more rfl
    exact readPaddedBraces_holds hradicand
  | squareRoot _ _ hradicand => exact readPaddedBraces_holds hradicand
  | bigOperator _ hscripts => exact hscripts.holds
  | @limit approach _ upper hname hscripts =>
    have hread := scriptsRead (front ++ fractionAt behind)
    rw [hscripts] at hread
    have hholds : Holds front behind ([approach] ++ upper.toList) left := hread.holds
    -- A limit with both scripts shows the lower one alone, which is why it has to be clear of the fraction.
    rcases hclear [] front (by rw [hname]; rfl) with hnone | ⟨more, hleft⟩
    · rw [hscripts] at hnone
      obtain rfl : upper = none := hnone
      simpa [shown] using hholds
    · rw [hscripts] at hleft
      obtain ⟨start, hstart⟩ := hread.suffix
      refine .of_left ⟨start, ?_⟩ hleft.symm
      rw [← hleft, ← List.append_assoc] at hstart
      exact List.append_cancel_right hstart
  | bareLimit => exact .of_left (List.suffix_refl _) rfl
  | styled _ hinside => exact readPaddedBraces_holds hinside

/-- **The piece at the front of a text leaves a fraction behind, or shows the text that it stands in.** -/
theorem Front.holds {inner : Text → Text} {c : Char} {front behind left : Text} {piece : Piece}
    (h : Front c (front ++ fractionAt behind) piece left) (hclean : Clean (piece.normal inner))
    (hclear : ClearOfLimits (c :: front) (fractionAt behind)) :
    Holds front behind piece.shown left := by
  cases h with
  | plain => exact .of_left (List.suffix_refl _) rfl
  | group _ hgroup =>
    obtain ⟨htext, -⟩ := of_readBraces hgroup
    exact holds_group [] '}' (by simp) (by decide) (by decide)
      (List.cons.inj htext).2
  | escaped => exact absurd rfl (clean_cons.mp hclean).1.1
  | command hslash hrest hname hmade =>
    subst hslash
    obtain ⟨more, rfl, rfl⟩ := exists_of_append_eq _ hname.not_mem hrest
    exact (hmade.holds hclear).of_suffix (List.suffix_append ..)
  | verbatim => exact absurd rfl (clean_cons.mp hclean).1.1

end Piece

/-! ## The quotient that is shown -/

/-- A text, with the white space around its arrows dropped any number of times. -/
inductive Tightened (text : Text) : Text → Prop
  | same : Tightened text text
  | again {tight : Text} : Tightened text tight → Tightened text (tightenArrows tight)

/-- Somewhere in the text stand two texts in parentheses with a slash between them: the numerator and the
denominator, but for the white space around arrows. -/
def ShowsQuotient (numerator denominator text : Text) : Prop :=
  ∃ before upper lower behind, Tightened numerator upper ∧ Tightened denominator lower
    ∧ text = before ++ '(' :: (upper ++ ')' :: '/' :: '(' :: (lower ++ ')' :: behind))

namespace ShowsQuotient

variable {numerator denominator text : Text}

/-- A text that shows the quotient shows it with more behind it. -/
theorem append_right (h : ShowsQuotient numerator denominator text) (more : Text) :
    ShowsQuotient numerator denominator (text ++ more) := by
  obtain ⟨before, upper, lower, behind, hupper, hlower, rfl⟩ := h
  exact ⟨before, upper, lower, behind ++ more, hupper, hlower, by simp⟩

/-- A text that shows the quotient shows it with more in front of it. -/
theorem append_left (h : ShowsQuotient numerator denominator text) (more : Text) :
    ShowsQuotient numerator denominator (more ++ text) := by
  obtain ⟨before, upper, lower, behind, hupper, hlower, rfl⟩ := h
  exact ⟨more ++ before, upper, lower, behind, hupper, hlower, by simp⟩

theorem cons (h : ShowsQuotient numerator denominator text) (c : Char) :
    ShowsQuotient numerator denominator (c :: text) :=
  h.append_left [c]

/-- Parentheses around a text that shows the quotient keep it. -/
theorem parenthesized (h : ShowsQuotient numerator denominator text) :
    ShowsQuotient numerator denominator (Latex.parenthesized text) :=
  (h.cons '(').append_right [')']

/-- Dropping white space around arrows keeps the quotient, with the same done to what stands in its
numerator and denominator. -/
theorem tightenArrows (h : ShowsQuotient numerator denominator text) :
    ShowsQuotient numerator denominator (Latex.tightenArrows text) := by
  obtain ⟨before, upper, lower, behind, hupper, hlower, rfl⟩ := h
  have hopen : outsideArrows '(' := by decide
  have hclose : outsideArrows ')' := by decide
  refine ⟨Latex.tightenArrows before, Latex.tightenArrows upper, Latex.tightenArrows lower,
    Latex.tightenArrows behind, hupper.again, hlower.again, ?_⟩
  rw [tightenArrows_append_cons hopen, tightenArrows_append_cons hclose]
  have hmiddle : Latex.tightenArrows ('/' :: '(' :: (lower ++ ')' :: behind))
      = '/' :: '(' :: Latex.tightenArrows (lower ++ ')' :: behind) := by
    unfold Latex.tightenArrows
    rw [replaceAll_of_none (findArrow_eq_none (by decide) (by decide) _),
      replaceAll_of_none (findArrow_eq_none (by decide) (by decide) _)]
  rw [hmiddle, tightenArrows_append_cons hclose]

end ShowsQuotient

/-- White space is dropped from the front only up to a character that is none. -/
theorem trimStart_append_cons {c : Char} (hc : isBlank c = false) (before behind : Text) :
    trimStart (before ++ c :: behind) = trimStart before ++ c :: behind :=
  dropWhile_append_head (by simp [hc])

/-- White space is dropped from the back only up to a character that is none. -/
theorem trimEnd_append_cons {c : Char} (hc : isBlank c = false) (before behind : Text) :
    trimEnd (before ++ c :: behind) = before ++ c :: trimEnd behind := by
  have hreverse : (before ++ c :: behind).reverse = behind.reverse ++ c :: before.reverse := by
    simp
  unfold trimEnd
  rw [hreverse, dropWhile_append_head (by simp [hc])]
  simp

namespace ShowsQuotient

variable {numerator denominator text : Text}

/-- The parentheses of the quotient are no white space, so trimming keeps it. -/
theorem trim (h : ShowsQuotient numerator denominator text) :
    ShowsQuotient numerator denominator (MathScribe.trim text) := by
  obtain ⟨before, upper, lower, behind, hupper, hlower, rfl⟩ := h
  refine ⟨trimStart before, upper, lower, trimEnd behind, hupper, hlower, ?_⟩
  -- The last parenthesis of the quotient is where trimming the end stops at the latest.
  have hlast : trimStart before ++ '(' :: (upper ++ ')' :: '/' :: '(' :: (lower ++ ')' :: behind))
      = (trimStart before ++ '(' :: (upper ++ ')' :: '/' :: '(' :: lower)) ++ ')' :: behind := by
    simp
  unfold MathScribe.trim
  rw [trimStart_append_cons (by decide), hlast, trimEnd_append_cons (by decide)]
  simp

/-- A piece shows the quotients that its texts show. -/
theorem normal {inner : Text → Text} {piece : Piece} {inside : Text} (hmem : inside ∈ piece.shown)
    (h : ShowsQuotient numerator denominator (inner inside)) :
    ShowsQuotient numerator denominator (piece.normal inner) := by
  -- Every piece puts the normal forms of its texts into its own, between other characters. Only a limit
  -- changes them, and that leaves quotients alone.
  cases piece with
  | plain | escaped | word | verbatim => cases hmem
  | group found =>
    obtain rfl := List.mem_singleton.mp hmem
    exact h.parenthesized
  | fraction upper lower =>
    rcases List.mem_cons.mp hmem with rfl | hlower
    · exact h.parenthesized.append_right _
    · obtain rfl := List.mem_singleton.mp hlower
      exact (h.parenthesized.cons '/').append_left _
  | squareRoot radicand =>
    obtain rfl := List.mem_singleton.mp hmem
    exact h.parenthesized.append_left _
  | root index radicand =>
    rcases List.mem_cons.mp hmem with rfl | hradicand
    · exact (h.parenthesized.append_left _).append_right _
    · obtain rfl := List.mem_singleton.mp hradicand
      exact h.parenthesized.append_left _
  | bigOperator name scripts =>
    obtain ⟨lower, upper⟩ := scripts
    rcases List.mem_append.mp hmem with hlower | hupper
    · obtain rfl : lower = some inside := Option.mem_toList.mp hlower
      exact ((h.cons '_').append_left name).append_right _
    · obtain rfl : upper = some inside := Option.mem_toList.mp hupper
      exact (h.cons '^').append_left _
  | limit approach =>
    obtain rfl := List.mem_singleton.mp hmem
    exact (h.tightenArrows.trim.parenthesized.cons '_').append_left _
  | styled found =>
    obtain rfl := List.mem_singleton.mp hmem
    exact h

end ShowsQuotient

/-- A fraction with its groups in front of a text is a fraction piece, when it can be read at all. -/
theorem Piece.Front.fraction {inner : Text → Text} {behind left : Text} {piece : Piece}
    (hbehind : startsWithLetter behind = false)
    (h : Front '\\' ('f' :: 'r' :: 'a' :: 'c' :: behind) piece left)
    (hclean : Clean (piece.normal inner)) :
    ∃ numerator middle denominator, piece = .fraction numerator denominator
      ∧ readPaddedBraces behind = some (numerator, middle)
      ∧ readPaddedBraces middle = some (denominator, left) := by
  -- The name is read to its end, so it is the one that makes fractions; if it made none, a backslash would
  -- stay.
  cases h with
  | plain => exact absurd rfl (clean_cons.mp hclean).1.1
  | group hbrace _ => exact absurd hbrace (by decide)
  | escaped => exact absurd rfl (clean_cons.mp hclean).1.1
  | verbatim => exact absurd rfl (clean_cons.mp hclean).1.1
  | command _ hrest hname hmade =>
    have hfrac : MacroName ['f', 'r', 'a', 'c'] behind :=
      ⟨by decide, fraction_letters, hbehind⟩
    obtain ⟨rfl, rfl⟩ := hfrac.unique hname hrest
    cases hmade with
    | fraction _ hnumerator hdenominator => exact ⟨_, _, _, rfl, hnumerator, hdenominator⟩
    | word hword =>
      have hnone : wordOf? ['f', 'r', 'a', 'c'] = none := by decide
      rw [hnone] at hword
      cases hword
    | root hroot => exact absurd hroot (by decide)
    | squareRoot hroot => exact absurd hroot (by decide)
    | bigOperator hbig => exact absurd hbig (by decide)
    | limit hlimit => exact absurd hlimit (by decide)
    | bareLimit hlimit => exact absurd hlimit (by decide)
    | styled hstyle => exact absurd hstyle (by decide)

/-- The groups behind a fraction macro, and a text that shows the quotient of their normal forms. -/
def Quoted (levels : Nat) (behind text : Text) : Prop :=
  ∃ numerator middle denominator left deeper,
    readPaddedBraces behind = some (numerator, middle)
    ∧ readPaddedBraces middle = some (denominator, left)
    ∧ deeper < levels ∧ Clean (normalTo deeper numerator) ∧ Clean (normalTo deeper denominator)
    ∧ ShowsQuotient (normalTo deeper numerator) (normalTo deeper denominator) text

/-- Text behind a fraction does not matter to it, and the quotient may be shown in a larger text. -/
theorem Quoted.mono {levels more : Nat} {behind text larger : Text} (rest : Text)
    (h : Quoted levels behind text) (hle : levels ≤ more)
    (hlarger : ∀ numerator denominator, ShowsQuotient numerator denominator text →
      ShowsQuotient numerator denominator larger) : Quoted more (behind ++ rest) larger := by
  obtain ⟨numerator, middle, denominator, left, deeper, hnumerator, hdenominator, hdeeper, hupper,
    hlower, hshows⟩ := h
  exact ⟨numerator, middle ++ rest, denominator, left ++ rest, deeper,
    readPaddedBraces_append rest hnumerator, readPaddedBraces_append rest hdenominator,
    Nat.lt_of_lt_of_le hdeeper hle, hupper, hlower, hlarger _ _ hshows⟩

/-- A text whose continuation does not start with a letter does not start with one itself. -/
theorem startsWithLetter_of_append {cut rest : Text} (h : startsWithLetter (cut ++ rest) = false) :
    startsWithLetter cut = false := by
  cases cut with
  | nil => rfl
  | cons c cut => exact h

/-- **A fraction shows.** In a readable normal form of a text stands the quotient of every fraction in the
text, with the normal forms of its numerator and its denominator. -/
theorem quoted {levels : Nat} {front behind : Text} (hbehind : startsWithLetter behind = false)
    (hclean : Clean (normalTo levels (front ++ fractionAt behind)))
    (hclear : ClearOfLimits front (fractionAt behind)) :
    Quoted levels behind (normalTo levels (front ++ fractionAt behind)) := by
  -- At level zero the macro would still stand there. Above it the pieces are taken one by one, so the inner
  -- induction is on the length of what stands in front of the fraction.
  induction levels generalizing front behind with
  | zero =>
    have hslash : '\\' ∈ front ++ fractionAt behind := by simp [fractionAt]
    exact absurd rfl (hclean _ hslash).1
  | succ levels ih =>
    induction hlength : front.length using Nat.strongRecOn generalizing front with
    | _ n ihlength =>
      cases front with
      | nil =>
        -- The fraction is the piece at the front.
        have hfront := Piece.read_front '\\' ('f' :: 'r' :: 'a' :: 'c' :: behind)
        rw [List.nil_append, fractionAt, normalTo_cons, clean_append] at hclean
        rw [List.nil_append, fractionAt, normalTo_cons]
        obtain ⟨numerator, middle, denominator, hpiece, hnumerator, hdenominator⟩ :=
          hfront.fraction hbehind hclean.1
        have hparts := Piece.clean_inner hclean.1
        rw [hpiece] at hparts ⊢
        have hshows : ShowsQuotient (normalTo levels numerator) (normalTo levels denominator)
            ((Piece.fraction numerator denominator).normal (normalTo levels)) := by
          refine ⟨[], normalTo levels numerator, normalTo levels denominator, [], .same, .same, ?_⟩
          simp [Piece.normal, parenthesized]
        exact ⟨numerator, middle, denominator, _, levels, hnumerator, hdenominator,
          Nat.lt_succ_self levels, hparts _ (by simp [Piece.shown]), hparts _ (by simp [Piece.shown]),
          hshows.append_right _⟩
      | cons c front =>
        have hfront := Piece.read_front c (front ++ fractionAt behind)
        rw [List.cons_append, normalTo_cons, clean_append] at hclean
        rw [List.cons_append, normalTo_cons]
        obtain ⟨more, hmore, hleft | ⟨inside, hmem, cut, rest, hinside, rfl, hrest⟩⟩ :=
          hfront.holds hclean.1 hclear
        · -- The fraction is left over behind the piece.
          rw [hleft] at hclean ⊢
          have hshort : more.length < n := by
            have hle := hmore.length_le
            rw [← hlength, List.length_cons]
            omega
          have hquoted := ihlength _ hshort hclean.2
            (hclear.of_suffix (hmore.trans (List.suffix_cons ..))) rfl
          have hwhole := hquoted.mono [] (Nat.le_refl _) fun _ _ hshows =>
            hshows.append_left ((Piece.read c (front ++ fractionAt behind)).1.normal (normalTo levels))
          rwa [List.append_nil] at hwhole
        · -- The fraction stands in a text that the piece shows, one level deeper.
          have hdeeper := Piece.clean_inner hclean.1 inside hmem
          rw [hinside] at hdeeper
          have hsuffix : more <:+ c :: front := hmore.trans (List.suffix_cons ..)
          have hquoted := ih (startsWithLetter_of_append hbehind) hdeeper
            ((hclear.of_suffix hsuffix).cut hrest)
          refine hquoted.mono rest (Nat.le_succ levels) fun _ _ hshows => ?_
          rw [← hinside] at hshows
          exact (hshows.normal hmem).append_right _

end MathScribe.Latex

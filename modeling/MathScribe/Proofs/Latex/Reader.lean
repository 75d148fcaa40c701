/-
What the readers of arguments take.

Every reader takes some source off the front of a text and leaves the rest. This file says for each of
them which source that is, in both directions where later files need it: a macro is a backslash with the
longest run of letters, a script is a group, a macro or one character, a padded group is a group behind
spaces and tabs. From these follow that whatever a reader leaves is the end of the text
(`Piece.read_suffix`), so that the pieces of a text can be taken off one after another (`pieces_cons`).
-/
import MathScribe.Latex.Normal
import MathScribe.Proofs.Latex.Balance

set_option autoImplicit false

namespace MathScribe.Latex

/-! ## Macros -/

/-- Behind the longest run of letters stands no letter. -/
theorem startsWithLetter_dropWhile (text : Text) :
    startsWithLetter (text.dropWhile Char.isAlpha) = false := by
  induction text with
  | nil => rfl
  | cons c rest ih =>
    by_cases hc : c.isAlpha = true
    · rwa [List.dropWhile_cons_of_pos hc]
    · rw [List.dropWhile_cons_of_neg hc]
      exact Bool.eq_false_iff.mpr hc

/-- Where no letter starts the text, no name is taken. -/
theorem takeWhile_of_not_letter {text : Text} (h : startsWithLetter text = false) :
    text.takeWhile Char.isAlpha = [] ∧ text.dropWhile Char.isAlpha = text := by
  cases text with
  | nil => exact ⟨rfl, rfl⟩
  | cons c rest =>
    have hc : ¬ c.isAlpha = true := Bool.eq_false_iff.mp h
    exact ⟨List.takeWhile_cons_of_neg hc, List.dropWhile_cons_of_neg hc⟩

/-- The name of a macro: a run of letters that the text behind it does not lengthen. -/
structure MacroName (name left : Text) : Prop where
  ne_nil : name ≠ []
  letters : ∀ c ∈ name, c.isAlpha = true
  ends : startsWithLetter left = false

/-- A macro is a backslash with the longest run of letters behind it, and there is at least one. -/
theorem readMacro_eq_some_iff {text name left : Text} :
    readMacro text = some (name, left) ↔ text = '\\' :: (name ++ left) ∧ MacroName name left := by
  constructor
  · intro h
    unfold readMacro at h
    split at h
    · next rest =>
      split at h
      · cases h
      · next hname =>
        cases h
        refine ⟨?_, hname, ?_, startsWithLetter_dropWhile rest⟩
        · rw [List.takeWhile_append_dropWhile]
        · exact List.all_eq_true.mp List.all_takeWhile
    · cases h
  · rintro ⟨rfl, hname⟩
    obtain ⟨htake, hdrop⟩ := takeWhile_of_not_letter hname.ends
    unfold readMacro
    simp only [List.takeWhile_append_of_pos hname.letters, List.dropWhile_append_of_pos hname.letters,
      htake, hdrop, List.append_nil]
    obtain ⟨c, name, rfl⟩ := List.exists_cons_of_ne_nil hname.ne_nil
    rfl

/-- A backslash without a letter behind it is no macro. -/
theorem readMacro_of_not_letter {rest : Text} (h : startsWithLetter rest = false) :
    readMacro ('\\' :: rest) = none := by
  unfold readMacro
  simp only [(takeWhile_of_not_letter h).1]

/-- A macro starts with a backslash. -/
theorem readMacro_of_ne {c : Char} (hc : c ≠ '\\') (rest : Text) : readMacro (c :: rest) = none := by
  unfold readMacro
  split
  · next h => exact absurd (List.cons.inj h).1 hc
  · rfl

/-- The name of a macro is the longest run of letters, so two of them agree. -/
theorem MacroName.unique {name name' left left' : Text} (h : MacroName name left)
    (h' : MacroName name' left') (heq : name ++ left = name' ++ left') :
    name = name' ∧ left = left' := by
  have hread := readMacro_eq_some_iff.mpr ⟨rfl, h⟩
  rw [heq, readMacro_eq_some_iff.mpr ⟨rfl, h'⟩] at hread
  cases hread
  exact ⟨rfl, rfl⟩

/-! ## Groups behind white space -/

/-- Nothing but spaces and tabs. -/
def Padding (text : Text) : Prop :=
  ∀ c ∈ text, isPad c = true

/-- What a brace group behind spaces and tabs is, told without the reader. -/
theorem readPaddedBraces_eq_some_iff {text inside left : Text} :
    readPaddedBraces text = some (inside, left)
      ↔ ∃ pads, Padding pads ∧ text = pads ++ '{' :: (inside ++ '}' :: left) ∧ Balanced inside := by
  constructor
  · intro h
    obtain ⟨htext, hbalanced⟩ := of_readBraces h
    refine ⟨text.takeWhile isPad, List.all_eq_true.mp List.all_takeWhile, ?_, hbalanced⟩
    rw [← htext, List.takeWhile_append_dropWhile]
  · rintro ⟨pads, hpads, rfl, hbalanced⟩
    unfold readPaddedBraces
    rw [List.dropWhile_append_of_pos hpads, List.dropWhile_cons_of_neg (by decide)]
    exact readBraces_of_balanced hbalanced left

/-- A group is read alike whatever stands behind it. -/
theorem readPaddedBraces_append {text inside left : Text} (more : Text)
    (h : readPaddedBraces text = some (inside, left)) :
    readPaddedBraces (text ++ more) = some (inside, left ++ more) := by
  obtain ⟨pads, hpads, rfl, hbalanced⟩ := readPaddedBraces_eq_some_iff.mp h
  exact readPaddedBraces_eq_some_iff.mpr ⟨pads, hpads, by simp, hbalanced⟩

/-- Spaces and tabs hold no brace. -/
theorem Padding.balanced {text : Text} (h : Padding text) : Balanced text := by
  refine balanced_of_forall fun c hc => ?_
  have hpad := h c hc
  refine ⟨?_, ?_, ?_⟩ <;> rintro rfl <;> exact absurd hpad (by decide)

/-! ## Scripts -/

/-- A script that the reader takes in front of a text. -/
def Script.Stands (left : Text) : Script → Prop
  | group inside => Balanced inside
  | command name => MacroName name left
  | letter c => c ≠ '\\' ∧ c ≠ '{' ∧ c ≠ '}' ∧ isBlank c = false

/-- A brace group starts with a brace. -/
theorem readBraces_of_ne {c : Char} (hc : c ≠ '{') (rest : Text) : readBraces (c :: rest) = none := by
  show (if c = '{' ∧ c ≠ '\\' then _ else none) = none
  rw [if_neg fun h => hc h.1]

/-- **What `read_script` reads**, told without the reader: the script as it is written, where what follows
allows it to end. -/
theorem Script.read?_eq_some_iff {text left : Text} {script : Script} :
    Script.read? text = some (script, left)
      ↔ text = script.source ++ left ∧ script.Stands left := by
  -- A script is a group, else a command, else one character, and each way is read back from its source.
  constructor
  · intro h
    unfold Script.read? at h
    split at h
    · cases h
    · next c rest =>
      split at h
      · next inside left hgroup =>
        cases h
        obtain ⟨htext, hbalanced⟩ := of_readBraces hgroup
        exact ⟨by simp [htext, source], hbalanced⟩
      · split at h
        · cases h
        · next hbrace =>
          split at h
          · next name left hcommand =>
            cases h
            obtain ⟨htext, hname⟩ := readMacro_eq_some_iff.mp hcommand
            exact ⟨by simp [htext, source], hname⟩
          · split at h
            · cases h
            · next hblank =>
              cases h
              simp only [not_or] at hbrace hblank
              exact ⟨rfl, hblank.2, hbrace.1, hbrace.2, Bool.eq_false_iff.mpr hblank.1⟩
  · rintro ⟨rfl, hstands⟩
    cases script with
    | group inside =>
      have hgroup := readBraces_of_balanced hstands left
      have htext : (group inside).source ++ left = '{' :: (inside ++ '}' :: left) := by
        simp [source]
      rw [htext]
      simp only [Script.read?, hgroup]
    | command name =>
      have hcommand : readMacro ('\\' :: (name ++ left)) = some (name, left) :=
        readMacro_eq_some_iff.mpr ⟨rfl, hstands⟩
      have hbraces : readBraces ('\\' :: (name ++ left)) = none := readBraces_of_ne (by decide) _
      show Script.read? ('\\' :: (name ++ left)) = _
      simp [Script.read?, hbraces, hcommand]
    | letter c =>
      obtain ⟨hslash, hopen, hclose, hblank⟩ := hstands
      show Script.read? (c :: left) = _
      simp [Script.read?, readBraces_of_ne hopen, readMacro_of_ne hslash, hopen, hclose, hslash,
        hblank]

/-- A text behind which a macro name can end as it ends at the end of a text. -/
theorem startsWithLetter_append {left more : Text} (h : startsWithLetter left = false)
    (hmore : startsWithLetter more = false) : startsWithLetter (left ++ more) = false := by
  cases left with
  | nil => exact hmore
  | cons c left => exact h

/-- A script is read alike in front of anything that does not go on with a letter, which a macro would
take. -/
theorem Script.read?_append {text left more : Text} {script : Script}
    (hmore : startsWithLetter more = false) (h : Script.read? text = some (script, left)) :
    Script.read? (text ++ more) = some (script, left ++ more) := by
  obtain ⟨rfl, hstands⟩ := Script.read?_eq_some_iff.mp h
  refine Script.read?_eq_some_iff.mpr ⟨by simp, ?_⟩
  cases script with
  | group inside => exact hstands
  | command name => exact ⟨hstands.ne_nil, hstands.letters, startsWithLetter_append hstands.ends hmore⟩
  | letter c => exact hstands

/-- What a script behind a given mark is, told without the reader. -/
theorem readMarked_eq_some_iff {mark : Char} {text argument left : Text} :
    readMarked mark text = some (argument, left)
      ↔ ∃ script : Script, argument = script.argument ∧ text = mark :: (script.source ++ left)
        ∧ script.Stands left := by
  cases text with
  | nil => simp [readMarked]
  | cons c rest =>
    dsimp only [readMarked]
    by_cases hc : c = mark
    · rw [if_pos hc]
      constructor
      · intro h
        obtain ⟨⟨script, behind⟩, hscript, hsame⟩ := Option.map_eq_some_iff.mp h
        cases hsame
        obtain ⟨htext, hstands⟩ := Script.read?_eq_some_iff.mp hscript
        exact ⟨script, rfl, by rw [hc, htext], hstands⟩
      · rintro ⟨script, rfl, htext, hstands⟩
        have hscript := Script.read?_eq_some_iff.mpr ⟨(List.cons.inj htext).2, hstands⟩
        rw [hscript]
        rfl
    · rw [if_neg hc]
      constructor
      · intro h
        cases h
      · rintro ⟨_, -, htext, -⟩
        exact absurd (List.cons.inj htext).1 hc

/-- It is read alike in front of anything that does not go on with a letter. -/
theorem readMarked_append {mark : Char} {text argument left more : Text}
    (hmore : startsWithLetter more = false) (h : readMarked mark text = some (argument, left)) :
    readMarked mark (text ++ more) = some (argument, left ++ more) := by
  obtain ⟨script, rfl, rfl, hstands⟩ := readMarked_eq_some_iff.mp h
  have hscript := Script.read?_append hmore (Script.read?_eq_some_iff.mpr ⟨rfl, hstands⟩)
  obtain ⟨htext, hstill⟩ := Script.read?_eq_some_iff.mp hscript
  exact readMarked_eq_some_iff.mpr ⟨script, rfl, by rw [← htext]; rfl, hstill⟩

/-- The scripts of a big operator are at most one of each kind, in either order. -/
inductive ScriptsRead (text : Text) : Scripts → Text → Prop
  | none : readMarked '_' text = none → readMarked '^' text = none →
      ScriptsRead text ⟨none, none⟩ text
  | lower {lower left : Text} : readMarked '_' text = some (lower, left) →
      readMarked '^' left = none → ScriptsRead text ⟨some lower, none⟩ left
  | lowerUpper {lower upper middle left : Text} : readMarked '_' text = some (lower, middle) →
      readMarked '^' middle = some (upper, left) → ScriptsRead text ⟨some lower, some upper⟩ left
  | upper {upper left : Text} : readMarked '^' text = some (upper, left) →
      readMarked '_' left = none → ScriptsRead text ⟨none, some upper⟩ left
  | upperLower {lower upper middle left : Text} : readMarked '^' text = some (upper, middle) →
      readMarked '_' middle = some (lower, left) → ScriptsRead text ⟨some lower, some upper⟩ left

/-- The scripts of a big operator are read as `ScriptsRead` says: at most one of each, in either order,
and the second one only where it follows the first. -/
theorem scriptsRead (text : Text) : ScriptsRead text (readScripts text).1 (readScripts text).2 := by
  unfold readScripts
  split
  · next hlower =>
    split
    · next hupper => exact .lowerUpper hlower hupper
    · next hupper => exact .lower hlower hupper
  · next hlower =>
    split
    · next hupper =>
      split
      · next hlower => exact .upperLower hupper hlower
      · next hlower => exact .upper hupper hlower
    · next hupper => exact .none hlower hupper

/-! ## Arguments -/

/-- An argument that the reader takes in front of a text. Script marks count only when `scripts` is set. -/
def Argument.Stands (scripts : Bool) (left : Text) : Argument → Prop
  | option inside => levelFrom '[' ']' 0 inside = some 0
  | group inside => Balanced inside
  | script mark body => scripts = true ∧ (mark = '_' ∨ mark = '^') ∧ body.Stands left

/-- What one argument is, told without the reader. -/
theorem Argument.read?_eq_some_iff {scripts : Bool} {text left : Text} {argument : Argument} :
    Argument.read? scripts text = some (argument, left)
      ↔ text = argument.source ++ left ∧ argument.Stands scripts left := by
  -- The first character tells which argument it can be, and each one is read back from its source.
  constructor
  · intro h
    unfold Argument.read? at h
    split at h
    · cases h
    · next c rest =>
      split at h
      · obtain ⟨⟨inside, behind⟩, hgroup, hsame⟩ := Option.map_eq_some_iff.mp h
        cases hsame
        obtain ⟨htext, hinside⟩ := (readGroup_eq_some_iff delimiters_brackets).mp hgroup
        exact ⟨by simp [htext, source], hinside⟩
      · split at h
        · obtain ⟨⟨inside, behind⟩, hgroup, hsame⟩ := Option.map_eq_some_iff.mp h
          cases hsame
          obtain ⟨htext, hinside⟩ := of_readBraces hgroup
          exact ⟨by simp [htext, source], hinside⟩
        · split at h
          · next hmark =>
            obtain ⟨⟨body, behind⟩, hscript, hsame⟩ := Option.map_eq_some_iff.mp h
            cases hsame
            obtain ⟨htext, hstands⟩ := Script.read?_eq_some_iff.mp hscript
            exact ⟨by rw [htext]; rfl, hmark.1, hmark.2, hstands⟩
          · cases h
  · rintro ⟨rfl, hstands⟩
    cases argument with
    | option inside =>
      have hgroup : readBrackets ('[' :: (inside ++ ']' :: left)) = some (inside, left) :=
        (readGroup_eq_some_iff delimiters_brackets).mpr ⟨rfl, hstands⟩
      simp [source, Argument.read?, hgroup]
    | group inside =>
      have hgroup := readBraces_of_balanced hstands left
      simp [source, Argument.read?, hgroup]
    | script mark body =>
      obtain ⟨rfl, hmark, hbody⟩ := hstands
      have hscript := Script.read?_eq_some_iff.mpr ⟨rfl, hbody⟩
      rcases hmark with rfl | rfl <;> simp [source, Argument.read?, hscript]

/-- Where scripts do not count an argument is a group in brackets or in braces. -/
theorem Argument.read?_group {text left : Text} {argument : Argument}
    (h : Argument.read? false text = some (argument, left)) :
    ∃ inside, readBrackets text = some (inside, left) ∨ readBraces text = some (inside, left) := by
  obtain ⟨rfl, hstands⟩ := Argument.read?_eq_some_iff.mp h
  cases argument with
  | option inside =>
    exact ⟨inside, .inl ((readGroup_eq_some_iff delimiters_brackets).mpr ⟨by simp [source], hstands⟩)⟩
  | group inside =>
    exact ⟨inside, .inr ((readGroup_eq_some_iff delimiters_braces).mpr ⟨by simp [source], hstands⟩)⟩
  | script mark body => cases hstands.1

/-! ## What is left is the end of the text -/

/-- What is left behind a group is an end of the text. -/
theorem readGroup_suffix {opener closer : Char} (hd : Delimiters opener closer)
    {text inside left : Text} (h : readGroup opener closer text = some (inside, left)) :
    left <:+ text := by
  rw [((readGroup_eq_some_iff hd).mp h).1]
  exact ⟨opener :: (inside ++ [closer]), by simp⟩

/-- What is left behind a group with spaces in front of it is an end of the text. -/
theorem readPaddedBraces_suffix {text inside left : Text}
    (h : readPaddedBraces text = some (inside, left)) : left <:+ text :=
  (readGroup_suffix delimiters_braces h).trans (List.dropWhile_suffix _)

/-- What is left behind a script and its mark is an end of the text. -/
theorem readMarked_suffix {mark : Char} {text argument left : Text}
    (h : readMarked mark text = some (argument, left)) : left <:+ text := by
  obtain ⟨script, -, rfl, -⟩ := readMarked_eq_some_iff.mp h
  exact ⟨mark :: script.source, by simp⟩

/-- What is left behind the scripts of a big operator is an end of the text. -/
theorem ScriptsRead.suffix {text left : Text} {scripts : Scripts}
    (h : ScriptsRead text scripts left) : left <:+ text := by
  cases h with
  | none => exact List.suffix_refl _
  | lower hlower => exact readMarked_suffix hlower
  | lowerUpper hlower hupper => exact (readMarked_suffix hupper).trans (readMarked_suffix hlower)
  | upper hupper => exact readMarked_suffix hupper
  | upperLower hupper hlower => exact (readMarked_suffix hlower).trans (readMarked_suffix hupper)

/-- The sources of the arguments with what is left behind them are the text. -/
theorem readArgumentsUpTo_source (scripts : Bool) (bound : Nat) (text : Text) :
    (readArgumentsUpTo scripts bound text).1.flatMap Argument.source
      ++ (readArgumentsUpTo scripts bound text).2 = text := by
  induction bound generalizing text with
  | zero => rfl
  | succ bound ih =>
    unfold readArgumentsUpTo
    split
    · rfl
    · next argument left hargument =>
      rw [List.flatMap_cons, List.append_assoc, ih left, ← (Argument.read?_eq_some_iff.mp hargument).1]

/-- What is left behind a row of arguments is an end of the text. -/
theorem readArgumentsUpTo_suffix (scripts : Bool) (bound : Nat) (text : Text) :
    (readArgumentsUpTo scripts bound text).2 <:+ text :=
  ⟨_, readArgumentsUpTo_source scripts bound text⟩

/-- The arguments are at the front of the text. -/
theorem argumentsSource_prefix (scripts : Bool) (text : Text) : argumentsSource scripts text <+: text :=
  ⟨_, readArgumentsUpTo_source scripts text.length text⟩

/-! ## Pieces -/

namespace Piece

/-- A known macro with its arguments: the piece that it makes of the text behind its name, and what is
left. -/
inductive Made (name after : Text) : Piece → Text → Prop
  | word {text : Text} : wordOf? name = some text → Made name after (word text) after
  | fraction {numerator middle denominator left : Text} : name ∈ fractionMacros →
      readPaddedBraces after = some (numerator, middle) →
      readPaddedBraces middle = some (denominator, left) →
      Made name after (fraction numerator denominator) left
  | root {index middle radicand left : Text} : name = rootMacro →
      readBrackets after = some (index, middle) →
      readPaddedBraces middle = some (radicand, left) → Made name after (root index radicand) left
  | squareRoot {radicand left : Text} : name = rootMacro → readBrackets after = none →
      readPaddedBraces after = some (radicand, left) → Made name after (squareRoot radicand) left
  | bigOperator {scripts : Scripts} {left : Text} : name ∈ bigOperatorMacros →
      ScriptsRead after scripts left → Made name after (bigOperator name scripts) left
  | limit {approach left : Text} {upper : Option Text} : name = limitMacro →
      readScripts after = (⟨some approach, upper⟩, left) → Made name after (limit approach) left
  | bareLimit : name = limitMacro → Made name after (word limitMacro) after
  | styled {inside left : Text} : name ∈ styleMacros →
      readPaddedBraces after = some (inside, left) → Made name after (styled inside) left

/-- **A known macro is read by one of the rules of `Made`**, each of which says which arguments it takes
and what is left. -/
theorem ofMacro?_made {name after left : Text} {piece : Piece}
    (h : ofMacro? name after = some (piece, left)) : Made name after piece left := by
  -- The lists of macros are tried in the order of the definition.
  unfold ofMacro? at h
  split at h
  · next hword =>
    cases h
    exact .word hword
  · split at h
    · next hname =>
      obtain ⟨⟨numerator, middle⟩, hnumerator, h⟩ := Option.bind_eq_some_iff.mp h
      obtain ⟨⟨denominator, behind⟩, hdenominator, h⟩ := Option.bind_eq_some_iff.mp h
      cases h
      exact .fraction hname hnumerator hdenominator
    · split at h
      · next hname =>
        split at h
        · next hindex =>
          obtain ⟨⟨radicand, behind⟩, hradicand, hsame⟩ := Option.map_eq_some_iff.mp h
          cases hsame
          exact .root hname hindex hradicand
        · next hindex =>
          obtain ⟨⟨radicand, behind⟩, hradicand, hsame⟩ := Option.map_eq_some_iff.mp h
          cases hsame
          exact .squareRoot hname hindex hradicand
      · split at h
        · next hname =>
          cases h
          exact .bigOperator hname (scriptsRead after)
        · split at h
          · next hname =>
            split at h
            · next hscripts =>
              cases h
              exact .limit hname hscripts
            · cases h
              exact .bareLimit hname
          · split at h
            · next hname =>
              obtain ⟨⟨inside, behind⟩, hinside, hsame⟩ := Option.map_eq_some_iff.mp h
              cases hsame
              exact .styled hname hinside
            · cases h

/-- What a known macro leaves is an end of what stood behind its name. -/
theorem Made.suffix {name after left : Text} {piece : Piece} (h : Made name after piece left) :
    left <:+ after := by
  cases h with
  | word => exact List.suffix_refl _
  | fraction _ hnumerator hdenominator =>
    exact (readPaddedBraces_suffix hdenominator).trans (readPaddedBraces_suffix hnumerator)
  | root _ hindex hradicand =>
    exact (readPaddedBraces_suffix hradicand).trans (readGroup_suffix delimiters_brackets hindex)
  | squareRoot _ _ hradicand => exact readPaddedBraces_suffix hradicand
  | bigOperator _ hscripts => exact hscripts.suffix
  | limit _ hscripts =>
    have hread := scriptsRead after
    rw [hscripts] at hread
    exact hread.suffix
  | bareLimit => exact List.suffix_refl _
  | styled _ hinside => exact readPaddedBraces_suffix hinside

/-- What stands at the front of a text: the piece, and what is left behind it. -/
inductive Front (c : Char) (rest : Text) : Piece → Text → Prop
  | plain : (c = '\\' → rest = []) → Front c rest (plain c) rest
  | group {inside left : Text} : c = '{' → readBraces (c :: rest) = some (inside, left) →
      Front c rest (group inside) left
  | escaped {hidden : Char} {left : Text} : c = '\\' → rest = hidden :: left →
      Front c rest (escaped hidden) left
  | command {name after left : Text} {piece : Piece} : c = '\\' → rest = name ++ after →
      MacroName name after → Made name after piece left → Front c rest piece left
  | verbatim {name after : Text} : c = '\\' → rest = name ++ after → MacroName name after →
      Front c rest
        (verbatim ('\\' :: name ++ (readArguments false after).1.flatMap Argument.source))
        (readArguments false after).2

/-- **A piece is read by one of the rules of `Front`**: a plain character, a group, an escaped character,
a known macro, or an unknown command with its arguments. -/
theorem read_front (c : Char) (rest : Text) : Front c rest (read c rest).1 (read c rest).2 := by
  unfold read
  by_cases hopen : c = '{'
  · rw [if_pos hopen]
    split
    · next hgroup => exact .group hopen hgroup
    · exact .plain fun hslash => absurd (hopen.symm.trans hslash) (by decide)
  · rw [if_neg hopen]
    by_cases hslash : c = '\\'
    · rw [if_pos hslash]
      split
      · next name after hcommand =>
        obtain ⟨htext, hname⟩ := readMacro_eq_some_iff.mp hcommand
        have hrest := (List.cons.inj htext).2
        split
        · next found hmade => exact .command hslash hrest hname (ofMacro?_made hmade)
        · exact hslash ▸ .verbatim rfl hrest hname
      · cases rest with
        | nil => exact .plain fun _ => rfl
        | cons hidden left => exact .escaped hslash rfl
    · rw [if_neg hslash]
      exact .plain fun h => absurd h hslash

/-- A character that starts neither a command nor a group is a piece of its own. -/
theorem read_plain {c : Char} (hslash : c ≠ '\\') (hopen : c ≠ '{') (rest : Text) :
    read c rest = (plain c, rest) := by
  unfold read
  rw [if_neg hopen, if_neg hslash]

/-- A balanced group is one piece. -/
theorem read_group {inside : Text} (h : Balanced inside) (left : Text) :
    read '{' (inside ++ '}' :: left) = (group inside, left) := by
  unfold read
  rw [if_pos rfl, readBraces_of_balanced h]

/-- A known macro with its arguments is one piece. -/
theorem read_command {name after left : Text} {piece : Piece} (hname : MacroName name after)
    (hmade : ofMacro? name after = some (piece, left)) : read '\\' (name ++ after) = (piece, left) := by
  unfold read
  rw [if_neg (by decide), if_pos rfl, readMacro_eq_some_iff.mpr ⟨rfl, hname⟩]
  simp only [hmade]

/-- What a piece leaves is an end of the text. -/
theorem Front.suffix {c : Char} {rest left : Text} {piece : Piece} (h : Front c rest piece left) :
    left <:+ rest := by
  cases h with
  | plain => exact List.suffix_refl _
  | group _ hgroup =>
    obtain ⟨htext, -⟩ := of_readBraces hgroup
    rw [(List.cons.inj htext).2]
    exact (List.suffix_cons ..).trans (List.suffix_append ..)
  | escaped _ hrest =>
    rw [hrest]
    exact List.suffix_cons ..
  | command _ hrest _ hmade =>
    rw [hrest]
    exact hmade.suffix.trans (List.suffix_append ..)
  | verbatim _ hrest =>
    rw [hrest]
    exact (readArgumentsUpTo_suffix ..).trans (List.suffix_append ..)

end Piece

/-- An end of a text is found again by its length. -/
theorem drop_of_suffix {left rest : Text} (h : left <:+ rest) :
    rest.drop (rest.length - left.length) = left := by
  obtain ⟨taken, rfl⟩ := h
  simp

/-- **The pieces of a text are the piece at its front and the pieces of what is left.** -/
theorem pieces_cons (c : Char) (rest : Text) :
    pieces (c :: rest) = (Piece.read c rest).1 :: pieces (Piece.read c rest).2 := by
  unfold pieces
  rw [chop_cons, drop_of_suffix (Piece.read_front c rest).suffix]

/-- What holds of the empty text, and of a text when it holds of what is left behind the piece at its front,
holds of every text. -/
@[elab_as_elim]
theorem piecesInduction {motive : Text → Prop} (nil : motive [])
    (piece : ∀ c rest, motive (Piece.read c rest).2 → motive (c :: rest)) : ∀ text, motive text
  | [] => nil
  | c :: rest => piece c rest (piecesInduction nil piece (Piece.read c rest).2)
termination_by text => text.length
decreasing_by exact Nat.lt_succ_of_le (Piece.read_front c rest).suffix.length_le

/-- An empty text has no pieces. -/
@[simp] theorem pieces_nil : pieces [] = [] :=
  rfl

/-- An empty text is its own normal form. -/
@[simp] theorem normalTo_nil (levels : Nat) : normalTo levels [] = [] := by
  cases levels <;> rfl

/-- The normal form of a text is that of its first piece, and behind it that of what the piece leaves. -/
theorem normalTo_cons (levels : Nat) (c : Char) (rest : Text) :
    normalTo (levels + 1) (c :: rest)
      = (Piece.read c rest).1.normal (normalTo levels)
        ++ normalTo (levels + 1) (Piece.read c rest).2 := by
  rw [normalTo, normalTo, pieces_cons, List.flatMap_cons]

/-- A command that is understood, in front of what its arguments leave. -/
theorem normalTo_command (levels : Nat) {name after left : Text} {piece : Piece}
    (hname : MacroName name after) (hmade : Piece.ofMacro? name after = some (piece, left)) :
    normalTo (levels + 1) ('\\' :: (name ++ after))
      = piece.normal (normalTo levels) ++ normalTo (levels + 1) left := by
  rw [normalTo_cons, Piece.read_command hname hmade]

end MathScribe.Latex

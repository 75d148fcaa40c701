/-
Groups that are not nested too deep.

The normal form enters groups only so many levels deep, and leaves what lies deeper as it is written.
`nestsBelow` bounds how deep the groups of a text are nested, and below the bound one level more or less
makes no difference (`normalTo_succ_of_nestsBelow`). Nothing has to be known about what the normal form
looks like: commands that are unknown and groups that are never closed may stand in the text.

The work is to follow what becomes deeper. A piece shows the inside of a group that is read at a place where
no backslash hides the opener, or it shows a script without braces, which is one piece that shows nothing
(`Piece.Front.shows`).
-/
import MathScribe.Proofs.Latex.Clean

set_option autoImplicit false

namespace MathScribe.Latex

/-! ## Places that no backslash hides -/

/-- A text whose backslashes all hide a character of the text, so what stands behind it is not hidden. -/
inductive Complete : Text → Prop
  | nil : Complete []
  | hidden {c : Char} {rest : Text} : Complete rest → Complete ('\\' :: c :: rest)
  | plain {c : Char} {rest : Text} : c ≠ '\\' → Complete rest → Complete (c :: rest)

/-- Two texts that end in no lone backslash make such a text. -/
theorem Complete.append {first second : Text} (h₁ : Complete first) (h₂ : Complete second) :
    Complete (first ++ second) := by
  induction h₁ with
  | nil => exact h₂
  | hidden _ ih => exact ih.hidden
  | plain hc _ ih => exact .plain hc ih

/-- Without a backslash there is no lone one. -/
theorem complete_of_forall {text : Text} (h : ∀ c ∈ text, c ≠ '\\') : Complete text := by
  induction text with
  | nil => exact .nil
  | cons c rest ih =>
    obtain ⟨hc, hrest⟩ := List.forall_mem_cons.mp h
    exact .plain hc (ih hrest)

/-- A text with a level behind it does not end with a lone backslash. -/
theorem complete_of_level {opener closer : Char} {level last : Nat} {text : Text}
    (h : levelFrom opener closer level text = some last) : Complete text := by
  induction text using escapeInduction generalizing level with
  | nil => exact .nil
  | lone => cases h
  | hidden c rest ih => exact (ih h).hidden
  | plain c rest hc ih =>
    obtain ⟨next, -, hrest⟩ := (levelFrom_cons_eq_some_iff hc).mp h
    exact .plain hc (ih hrest)

/-- The backslash of a macro hides the first letter of its name. -/
theorem MacroName.complete {name left : Text} (h : MacroName name left) : Complete ('\\' :: name) := by
  obtain ⟨c, more, rfl⟩ := List.exists_cons_of_ne_nil h.ne_nil
  refine .hidden (complete_of_forall fun d hd => ?_)
  rintro rfl
  exact absurd (h.letters _ (List.mem_cons_of_mem c hd)) (by decide)

/-- What `read_group` takes ends with a closer, which no backslash hides. -/
theorem complete_of_readGroup {opener closer : Char} (hd : Delimiters opener closer)
    {text inside left : Text} (h : readGroup opener closer text = some (inside, left)) :
    ∃ front, text = front ++ left ∧ Complete front := by
  obtain ⟨htext, hlevel⟩ := (readGroup_eq_some_iff hd).mp h
  refine ⟨opener :: (inside ++ [closer]), by simp [htext], ?_⟩
  exact .plain hd.opener_ne ((complete_of_level hlevel).append (.plain hd.closer_ne .nil))

/-- The arguments of a macro hide nothing behind them. -/
theorem complete_readArgumentsUpTo (bound : Nat) (text : Text) :
    ∃ front, text = front ++ (readArgumentsUpTo false bound text).2 ∧ Complete front := by
  induction bound generalizing text with
  | zero => exact ⟨[], rfl, .nil⟩
  | succ bound ih =>
    unfold readArgumentsUpTo
    split
    · exact ⟨[], rfl, .nil⟩
    · next argument left hargument =>
      have hfront : ∃ front, text = front ++ left ∧ Complete front := by
        obtain ⟨inside, hgroup | hgroup⟩ := Argument.read?_group hargument
        · exact complete_of_readGroup delimiters_brackets hgroup
        · exact complete_of_readGroup delimiters_braces hgroup
      obtain ⟨front, rfl, hcomplete⟩ := hfront
      obtain ⟨more, hleft, hmore⟩ := ih left
      exact ⟨front ++ more, by rw [List.append_assoc, ← hleft], hcomplete.append hmore⟩

/-! ## The groups of a text -/

/-- The insides of all groups of a text, in braces or in brackets, pass a check. A group counts where no
backslash hides its opener, and only when it is closed. -/
def everyGroup (ok : Text → Bool) : Text → Bool
  | [] => true
  | ['\\'] => true
  | '\\' :: _ :: rest => everyGroup ok rest
  | c :: rest =>
    (readBraces (c :: rest)).all (fun (inside, _) => ok inside)
      && (readBrackets (c :: rest)).all (fun (inside, _) => ok inside)
      && everyGroup ok rest

/-- The groups of a text are nested in fewer than so many levels. A text without groups has none. -/
def nestsBelow : Nat → Text → Bool
  | 0, _ => false
  | levels + 1, text => everyGroup (nestsBelow levels) text

section

variable {ok : Text → Bool}

/-- Every group of a text passes a check when those do that start at its first character, and those of the
rest. -/
theorem everyGroup_cons {c : Char} (hc : c ≠ '\\') (rest : Text) :
    everyGroup ok (c :: rest) = true
      ↔ (∀ inside left, readBraces (c :: rest) = some (inside, left) → ok inside = true)
        ∧ (∀ inside left, readBrackets (c :: rest) = some (inside, left) → ok inside = true)
        ∧ everyGroup ok rest = true := by
  rw [everyGroup.eq_def]
  split
  · next h => cases h
  · next h => exact absurd (List.cons.inj h).1 hc
  · next h => exact absurd (List.cons.inj h).1 hc
  · next h =>
    cases h
    simp [Option.all_eq_true, and_assoc]

/-- What is left behind a complete text has its groups among those of the whole. -/
theorem everyGroup_of_append {front rest : Text} (hfront : Complete front)
    (h : everyGroup ok (front ++ rest) = true) : everyGroup ok rest = true := by
  induction hfront with
  | nil => exact h
  | hidden _ ih => exact ih h
  | plain hc _ ih => exact ih ((everyGroup_cons hc _).mp h).2.2

/-- When every group of a text passes, the brace group at its front does. -/
theorem everyGroup_of_readBraces {text inside left : Text} (h : everyGroup ok text = true)
    (hread : readBraces text = some (inside, left)) : ok inside = true := by
  obtain ⟨rfl, -⟩ := of_readBraces hread
  exact ((everyGroup_cons (by decide) _).mp h).1 inside left hread

/-- When every group of a text passes, the bracket group at its front does. -/
theorem everyGroup_of_readBrackets {text inside left : Text} (h : everyGroup ok text = true)
    (hread : readBrackets text = some (inside, left)) : ok inside = true := by
  obtain ⟨rfl, -⟩ := (readGroup_eq_some_iff delimiters_brackets).mp hread
  exact ((everyGroup_cons (by decide) _).mp h).2.1 inside left hread

end

/-! ## Scripts without braces -/

/-- A script without braces: one command or one character. -/
inductive Lone : Text → Prop
  | command {name : Text} : MacroName name [] → Lone ('\\' :: name)
  | letter {c : Char} : c ≠ '\\' → c ≠ '{' → Lone [c]

/-- Nothing is read behind the name of a macro where the text ends. -/
theorem Piece.Made.shown_nil {name left : Text} {piece : Piece} (h : Made name [] piece left) :
    piece.shown = [] ∧ left = [] := by
  cases h with
  | word | bareLimit => exact ⟨rfl, rfl⟩
  | fraction _ hnumerator => cases hnumerator
  | root _ hindex => cases hindex
  | squareRoot _ _ hradicand => cases hradicand
  | bigOperator _ hscripts =>
    cases hscripts with
    | none => exact ⟨rfl, rfl⟩
    | lower hlower | lowerUpper hlower => cases hlower
    | upper hupper | upperLower hupper => cases hupper
  | limit _ hscripts => cases hscripts
  | styled _ hinside => cases hinside

/-- A script without braces shows no text inside. -/
theorem Lone.shown_nil {text : Text} (h : Lone text) : ∀ piece ∈ pieces text, piece.shown = [] := by
  cases h with
  | @letter c hslash hopen =>
    rw [pieces_cons, Piece.read_plain hslash hopen]
    simp [Piece.shown]
  | @command name hname =>
    have hmacro : readMacro ('\\' :: name) = some (name, []) :=
      readMacro_eq_some_iff.mpr ⟨by simp, hname⟩
    have hread : (Piece.read '\\' name).1.shown = [] ∧ (Piece.read '\\' name).2 = [] := by
      unfold Piece.read
      rw [if_neg (by decide), if_pos rfl, hmacro]
      dsimp only
      split
      · next hmade => exact (Piece.ofMacro?_made hmade).shown_nil
      · exact ⟨rfl, rfl⟩
    rw [pieces_cons, hread.2]
    simp [hread.1]

/-! ## What the pieces show -/

/-- A reader takes something off a text whose groups all pass a check. It shows insides that pass, or
scripts without braces, and the groups of what it leaves pass again. -/
def Shows (ok : Text → Bool) (text : Text) (insides : List Text) (left : Text) : Prop :=
  everyGroup ok text = true →
    (∀ inside ∈ insides, ok inside = true ∨ Lone inside) ∧ everyGroup ok left = true

section

variable {ok : Text → Bool} {text middle left : Text} {insides others : List Text}

/-- What is passed over shows nothing, as long as no hidden brace comes to the front. -/
theorem Shows.nothing {front : Text} (hfront : Complete front) : Shows ok (front ++ left) [] left :=
  fun h => ⟨nofun, everyGroup_of_append hfront h⟩

/-- One reader goes on where another one ended. -/
theorem Shows.andThen (h : Shows ok text insides middle) (hnext : Shows ok middle others left) :
    Shows ok text (insides ++ others) left := by
  intro htext
  obtain ⟨hinsides, hmiddle⟩ := h htext
  obtain ⟨hothers, hleft⟩ := hnext hmiddle
  exact ⟨List.forall_mem_append.mpr ⟨hinsides, hothers⟩, hleft⟩

/-- Fewer insides are shown. -/
theorem Shows.mono (h : Shows ok text insides left) (hsub : others ⊆ insides) :
    Shows ok text others left :=
  fun htext => ⟨fun inside hmem => (h htext).1 inside (hsub hmem), (h htext).2⟩

/-- A group shows its inside, when it is one of those that pass. -/
theorem readGroup_shows {opener closer : Char} (hd : Delimiters opener closer) {inside : Text}
    (h : readGroup opener closer text = some (inside, left))
    (hinside : everyGroup ok text = true → ok inside = true) : Shows ok text [inside] left := by
  intro htext
  obtain ⟨front, rfl, hfront⟩ := complete_of_readGroup hd h
  refine ⟨fun found hfound => .inl ?_, everyGroup_of_append hfront htext⟩
  rw [List.mem_singleton.mp hfound]
  exact hinside htext

/-- A brace group shows its inside. -/
theorem readBraces_shows {inside : Text} (h : readBraces text = some (inside, left)) :
    Shows ok text [inside] left :=
  readGroup_shows delimiters_braces h fun htext => everyGroup_of_readBraces htext h

/-- A bracket group shows its inside. -/
theorem readBrackets_shows {inside : Text} (h : readBrackets text = some (inside, left)) :
    Shows ok text [inside] left :=
  readGroup_shows delimiters_brackets h fun htext => everyGroup_of_readBrackets htext h

/-- A brace group shows its inside, whatever spaces stand in front of it. -/
theorem readPaddedBraces_shows {inside : Text} (h : readPaddedBraces text = some (inside, left)) :
    Shows ok text [inside] left := by
  have hpads : Complete (text.takeWhile isPad) := by
    refine complete_of_forall fun c hc => ?_
    rintro rfl
    exact absurd (List.all_eq_true.mp List.all_takeWhile _ hc) (by decide)
  have hskip : Shows ok text [] (text.dropWhile isPad) := by
    have hnothing : Shows ok (text.takeWhile isPad ++ text.dropWhile isPad) [] (text.dropWhile isPad) :=
      .nothing hpads
    rwa [List.takeWhile_append_dropWhile] at hnothing
  exact hskip.andThen (readBraces_shows h)

/-- A script shows the inside of its group, or a single character or macro, in which nothing is nested. -/
theorem Script.Stands.shows {script : Script} (h : script.Stands left) :
    Shows ok (script.source ++ left) [script.argument] left := by
  cases script with
  | group inside =>
    have hread := readBraces_of_balanced h left
    have hsource : (Script.group inside).source ++ left = '{' :: (inside ++ '}' :: left) := by
      simp [Script.source]
    rw [hsource]
    exact readBraces_shows hread
  | command name =>
    intro htext
    refine ⟨fun inside hinside => .inr ?_, everyGroup_of_append h.complete htext⟩
    rw [List.mem_singleton.mp hinside]
    exact .command ⟨h.ne_nil, h.letters, rfl⟩
  | letter c =>
    intro htext
    refine ⟨fun inside hinside => .inr ?_, everyGroup_of_append (.plain h.1 .nil) htext⟩
    rw [List.mem_singleton.mp hinside]
    exact .letter h.1 h.2.1

/-- A script behind its mark shows the inside of its group, or has nothing nested in it. -/
theorem readMarked_shows {mark : Char} {argument : Text} (hmark : mark ≠ '\\')
    (h : readMarked mark text = some (argument, left)) : Shows ok text [argument] left := by
  obtain ⟨script, rfl, rfl, hstands⟩ := readMarked_eq_some_iff.mp h
  have hskip : Shows ok (mark :: (script.source ++ left)) [] (script.source ++ left) :=
    Shows.nothing (.plain hmark .nil)
  exact hskip.andThen hstands.shows

/-- The scripts of a big operator show what each of them shows. -/
theorem ScriptsRead.shows {scripts : Scripts} (h : ScriptsRead text scripts left) :
    Shows ok text (scripts.lower.toList ++ scripts.upper.toList) left := by
  cases h with
  | none => exact .nothing .nil
  | lower hlower => exact readMarked_shows (by decide) hlower
  | lowerUpper hlower hupper =>
    exact (readMarked_shows (by decide) hlower).andThen (readMarked_shows (by decide) hupper)
  | upper hupper => exact readMarked_shows (by decide) hupper
  | upperLower hupper hlower =>
    refine ((readMarked_shows (by decide) hupper).andThen
      (readMarked_shows (by decide) hlower)).mono ?_
    simp

/-- The arguments behind an unknown command are copied as they are and show nothing. -/
theorem readArgumentsUpTo_shows (bound : Nat) (text : Text) :
    Shows ok text [] (readArgumentsUpTo false bound text).2 := by
  obtain ⟨front, hfront, hcomplete⟩ := complete_readArgumentsUpTo bound text
  have hskip : Shows ok (front ++ (readArgumentsUpTo false bound text).2) []
      (readArgumentsUpTo false bound text).2 := .nothing hcomplete
  rwa [← hfront] at hskip

namespace Piece

/-- **A known macro shows groups of the text.** Whichever arguments it takes, they pass the check or are
scripts without braces, and the groups behind it pass again. -/
theorem Made.shows {name after : Text} {piece : Piece} (h : Made name after piece left) :
    Shows ok after piece.shown left := by
  cases h with
  | word | bareLimit => exact .nothing .nil
  | fraction _ hnumerator hdenominator =>
    exact (readPaddedBraces_shows hnumerator).andThen (readPaddedBraces_shows hdenominator)
  | root _ hindex hradicand =>
    exact (readBrackets_shows hindex).andThen (readPaddedBraces_shows hradicand)
  | squareRoot _ _ hradicand => exact readPaddedBraces_shows hradicand
  | bigOperator _ hscripts => exact hscripts.shows
  | limit _ hscripts =>
    have hread := scriptsRead after
    rw [hscripts] at hread
    refine hread.shows.mono ?_
    simp [shown]
  | styled _ hinside => exact readPaddedBraces_shows hinside

/-- **A piece shows insides of groups and scripts without braces**, and the groups of what is left behind it
are groups of the text. -/
theorem Front.shows {c : Char} {rest : Text} {piece : Piece} (h : Front c rest piece left) :
    Shows ok (c :: rest) piece.shown left := by
  cases h with
  | plain hlone =>
    by_cases hc : c = '\\'
    · rw [hlone hc]
      exact fun _ => ⟨nofun, rfl⟩
    · exact Shows.nothing (.plain hc .nil)
  | group _ hgroup => exact readBraces_shows hgroup
  | escaped hslash hrest =>
    rw [hslash, hrest]
    exact Shows.nothing (.hidden .nil)
  | command hslash hrest hname hmade =>
    rw [hslash, hrest]
    exact (Shows.nothing hname.complete).andThen hmade.shows
  | verbatim hslash hrest hname =>
    rw [hslash, hrest]
    exact (Shows.nothing hname.complete).andThen (readArgumentsUpTo_shows _ _)

end Piece

/-- The texts inside the pieces of a text are its groups, or scripts without braces. -/
theorem pieces_shows (h : everyGroup ok text = true) :
    ∀ piece ∈ pieces text, ∀ inside ∈ piece.shown, ok inside = true ∨ Lone inside := by
  induction text using piecesInduction with
  | nil => exact nofun
  | piece c rest ih =>
    obtain ⟨hinsides, hleft⟩ := (Piece.read_front c rest).shows h
    rw [pieces_cons]
    exact List.forall_mem_cons.mpr ⟨hinsides, ih hleft⟩

end

/-! ## Levels that make no difference -/

/-- A script without braces has its normal form at every level, however few are left. -/
theorem Lone.normalTo {text : Text} (h : Lone text) (levels more : Nat) :
    normalTo (levels + 1) text = Latex.normalTo (more + 1) text := by
  refine normalTo_congr fun piece hpiece inside hinside => ?_
  rw [h.shown_nil piece hpiece] at hinside
  cases hinside

/-- **One level more changes nothing** for a text whose groups are not nested that deep. -/
theorem normalTo_succ_of_nestsBelow {levels more : Nat} {text : Text} (h : nestsBelow levels text = true)
    (hle : levels ≤ more) : normalTo (more + 2) text = normalTo (more + 1) text := by
  induction more generalizing levels text with
  | zero =>
    obtain rfl := Nat.le_zero.mp hle
    cases h
  | succ more ih =>
    cases levels with
    | zero => cases h
    | succ levels =>
      refine normalTo_congr fun piece hpiece inside hinside => ?_
      rcases pieces_shows h piece hpiece inside hinside with hdeeper | hlone
      · exact ih hdeeper (Nat.le_of_succ_le_succ hle)
      · exact hlone.normalTo (more + 1) more

end MathScribe.Latex

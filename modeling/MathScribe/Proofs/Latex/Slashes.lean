/-
No step makes a backslash.

Normalization takes backslashes off a formula, those of the commands that it understands, and writes none of its own.
So a text that comes out as it went in has lost none on the way, and that a step drops one can be seen at the end,
whatever the other steps do (`slashes_normalTo_le`, `LightPass.slashes_lt`).

As for the depth of groups the argument follows the readers: what a reader shows and what it leaves stand beside each
other in the text that it reads, so they have no more backslashes than the text (`Spends`).
-/
import MathScribe.Proofs.Latex.Preparation

set_option autoImplicit false

namespace MathScribe.Latex

/-- The number of backslashes of a text. -/
def slashes (text : Text) : Nat :=
  text.count '\\'

/-- An empty text has no backslash. -/
@[simp] theorem slashes_nil : slashes [] = 0 :=
  rfl

/-- Backslashes add up over two texts. -/
@[simp] theorem slashes_append (first second : Text) :
    slashes (first ++ second) = slashes first + slashes second :=
  List.count_append

/-- The first character counts when it is a backslash. -/
theorem slashes_cons (c : Char) (rest : Text) :
    slashes (c :: rest) = slashes rest + if c = '\\' then 1 else 0 := by
  simp [slashes, List.count_cons]

/-- A backslash in front is one more. -/
@[simp] theorem slashes_slash (rest : Text) : slashes ('\\' :: rest) = slashes rest + 1 := by
  rw [slashes_cons, if_pos rfl]

/-- Any other character in front changes nothing. -/
theorem slashes_cons_of_ne {c : Char} (hc : c ≠ '\\') (rest : Text) : slashes (c :: rest) = slashes rest := by
  rw [slashes_cons, if_neg hc, Nat.add_zero]

/-- A longer text has no fewer. -/
theorem slashes_le_cons (c : Char) (rest : Text) : slashes rest ≤ slashes (c :: rest) := by
  rw [slashes_cons]
  exact Nat.le_add_right ..

/-- An end of a text has no more than the text. -/
theorem slashes_le_of_suffix {left text : Text} (h : left <:+ text) : slashes left ≤ slashes text :=
  h.sublist.count_le _

/-- Parentheses are no backslashes. -/
@[simp] theorem slashes_parenthesized (text : Text) : slashes (parenthesized text) = slashes text := by
  unfold parenthesized
  rw [slashes_append, slashes_cons_of_ne (by decide)]
  rfl

/-! ## The passes -/

section

variable {find : Text → Option Text} {replacement text : Text}

/-- Nothing that is put in the place of something else has a backslash, so there are no more than before. -/
theorem slashes_replaceAll_le (hfind : Shortens find) (hreplacement : slashes replacement = 0) :
    slashes (replaceAll find replacement text) ≤ slashes text := by
  induction text using restInduction with
  | step text ih =>
    cases text with
    | nil => rw [replaceAll_nil]
    | cons c rest =>
      cases hfound : find (c :: rest) with
      | none =>
        have := ih [c] rest rfl (List.cons_ne_nil _ _)
        rw [replaceAll_of_none hfound, slashes_cons, slashes_cons]
        omega
      | some left =>
        obtain ⟨taken, rfl⟩ := hfind c rest left hfound
        have hleft := ih (c :: taken) left rfl (List.cons_ne_nil _ _)
        rw [replaceAll_of_some hfind hfound, slashes_append, hreplacement, Nat.zero_add]
        exact hleft.trans (slashes_le_of_suffix (List.suffix_append (c :: taken) left))

/-- What such a pass puts in the place of a command has no backslash. -/
theorem LightPass.slashes_replacement (hp : LightPass find replacement) : slashes replacement = 0 := by
  rcases hp.replaces with rfl | ⟨rfl, -⟩ <;> rfl

/-- **A pass that finds something drops a backslash.** -/
theorem LightPass.slashes_lt (hp : LightPass find replacement) {c : Char} {behind : Text}
    (hsuffix : c :: behind <:+ text) (hfound : (find (c :: behind)).isSome = true) :
    slashes (replaceAll find replacement text) < slashes text := by
  -- The pass may find something that reaches over the place, but then it drops the backslash of that.
  induction text using restInduction with
  | step text ih =>
    cases text with
    | nil => exact absurd (List.suffix_nil.mp hsuffix) (List.cons_ne_nil _ _)
    | cons d rest =>
      cases hfirst : find (d :: rest) with
      | some left =>
        obtain ⟨pads, hidden, more, htext, -, -⟩ := hp.takes _ _ hfirst
        have hleft : slashes (replaceAll find replacement left) ≤ slashes left :=
          slashes_replaceAll_le hp.shortens hp.slashes_replacement
        rw [replaceAll_of_some hp.shortens hfirst, slashes_append, hp.slashes_replacement, htext]
        simp only [slashes_append, slashes_slash]
        have := slashes_le_of_suffix (List.suffix_append (hidden :: more) left)
        rw [List.cons_append] at this
        omega
      | none =>
        rcases List.suffix_cons_iff.mp hsuffix with heq | hrest
        · rw [heq, hfirst] at hfound
          cases hfound
        · have := ih [d] rest rfl (List.cons_ne_nil _ _) hrest
          rw [replaceAll_of_none hfirst, slashes_cons, slashes_cons]
          omega

end

/-! ## The readers -/

/-- A reader takes something off a text. What it shows and what it leaves have no more backslashes than the text. -/
def Spends (text : Text) (insides : List Text) (left : Text) : Prop :=
  (insides.map slashes).sum + slashes left ≤ slashes text

section

variable {text middle left : Text} {insides others : List Text}

/-- What is passed over is spent on nothing. -/
theorem Spends.nothing (h : left <:+ text) : Spends text [] left := by
  simpa [Spends] using slashes_le_of_suffix h

/-- Two readers one after the other show and leave no more than the text has. -/
theorem Spends.andThen (h : Spends text insides middle) (hnext : Spends middle others left) :
    Spends text (insides ++ others) left := by
  unfold Spends at *
  rw [List.map_append, List.sum_append]
  omega

/-- In which order the texts inside are shown does not matter. -/
theorem Spends.comm (h : Spends text (insides ++ others) left) : Spends text (others ++ insides) left := by
  unfold Spends at *
  rw [List.map_append, List.sum_append] at *
  omega

/-- A group shows its inside and leaves what stands behind its closer; neither has backslashes of the
other. -/
theorem readGroup_spends {opener closer : Char} (hd : Delimiters opener closer) {inside : Text}
    (h : readGroup opener closer text = some (inside, left)) : Spends text [inside] left := by
  rw [Spends, ((readGroup_eq_some_iff hd).mp h).1]
  simp [slashes_cons_of_ne hd.opener_ne, slashes_cons_of_ne hd.closer_ne]

theorem readPaddedBraces_spends {inside : Text} (h : readPaddedBraces text = some (inside, left)) :
    Spends text [inside] left :=
  (Spends.nothing (List.dropWhile_suffix isPad)).andThen (readGroup_spends delimiters_braces h)

/-- A script behind its mark shows its argument. -/
theorem readMarked_spends {mark : Char} {argument : Text} (h : readMarked mark text = some (argument, left)) :
    Spends text [argument] left := by
  obtain ⟨script, rfl, rfl, -⟩ := readMarked_eq_some_iff.mp h
  have hsource : slashes script.argument ≤ slashes script.source := by
    cases script with
    | group inside => simp [Script.argument, Script.source, slashes_cons_of_ne]
    | command | letter => exact le_rfl
  have := slashes_le_cons mark (script.source ++ left)
  rw [slashes_append] at this
  simp only [Spends, List.map_cons, List.map_nil, List.sum_cons, List.sum_nil]
  omega

/-- The scripts of a big operator show both arguments. -/
theorem ScriptsRead.spends {scripts : Scripts} (h : ScriptsRead text scripts left) :
    Spends text (scripts.lower.toList ++ scripts.upper.toList) left := by
  cases h with
  | none => exact .nothing (List.suffix_refl _)
  | lower hlower => exact readMarked_spends hlower
  | lowerUpper hlower hupper => exact (readMarked_spends hlower).andThen (readMarked_spends hupper)
  | upper hupper => exact readMarked_spends hupper
  | upperLower hupper hlower => exact ((readMarked_spends hupper).andThen (readMarked_spends hlower)).comm

/-- **A known macro shows no more backslashes than stand behind its name.** Each rule of `Made` is a row
of readers, so the rules above add up. -/
theorem Piece.Made.spends {name after : Text} {piece : Piece} (h : Piece.Made name after piece left) :
    Spends after piece.shown left := by
  cases h with
  | word | bareLimit => exact .nothing (List.suffix_refl _)
  | fraction _ hnumerator hdenominator =>
    exact (readPaddedBraces_spends hnumerator).andThen (readPaddedBraces_spends hdenominator)
  | root _ hindex hradicand =>
    exact (readGroup_spends delimiters_brackets hindex).andThen (readPaddedBraces_spends hradicand)
  | squareRoot _ _ hradicand => exact readPaddedBraces_spends hradicand
  | bigOperator _ hscripts => exact hscripts.spends
  | limit _ hscripts =>
    have hread := (scriptsRead after).spends
    rw [hscripts] at hread
    simp only [Spends, Option.toList, List.map_append, List.sum_append, Piece.shown] at hread ⊢
    omega
  | styled _ hinside => exact readPaddedBraces_spends hinside

end

/-! ## The normal form -/

/-- Trimming adds no backslash. -/
theorem slashes_trim_le (text : Text) : slashes (trim text) ≤ slashes text := by
  unfold trim trimEnd trimStart
  have hstart := slashes_le_of_suffix (List.dropWhile_suffix (l := text) isBlank)
  have hend := slashes_le_of_suffix (List.dropWhile_suffix (l := (text.dropWhile isBlank).reverse) isBlank)
  simp only [slashes, List.count_reverse] at *
  exact hend.trans hstart

/-- What a macro without arguments becomes has no backslash. -/
theorem slashes_of_wordOf? {name text : Text} (h : wordOf? name = some text) : slashes text = 0 := by
  have hsymbols : ∀ entry ∈ symbolMacros, slashes entry.2 = 0 := by decide
  have hnames : ∀ name ∈ namedMacros, slashes name = 0 := by decide
  unfold wordOf? at h
  split at h
  · next hsymbol =>
    cases h
    obtain ⟨front, behind, hmacros, -⟩ := List.lookup_eq_some_iff.mp hsymbol
    exact hsymbols (name, text) (by rw [hmacros]; simp)
  · split at h
    · next hname =>
      cases h
      exact hnames _ hname
    · cases h

namespace Piece

/-- What a piece writes itself, without the normal forms of the texts that it shows. -/
def own : Piece → Text
  | plain c => [c]
  | escaped c => ['\\', c]
  | word text => text
  | bigOperator name _ => name
  | verbatim source => source
  | group _ | fraction _ _ | squareRoot _ | root _ _ | limit _ | styled _ => []

/-- The normal form of a piece has at most the backslashes of its own and those of the texts inside it. -/
theorem slashes_normal_le {inner : Text → Text} (h : ∀ text, slashes (inner text) ≤ slashes text)
    (piece : Piece) : slashes (piece.normal inner) ≤ slashes piece.own + (piece.shown.map slashes).sum := by
  cases piece with
  | plain | escaped | word | verbatim => simp [normal, own, shown]
  | group inside | styled inside => simpa [normal, own, shown] using h inside
  | fraction numerator denominator =>
    simpa [normal, own, shown, slashes_cons_of_ne] using Nat.add_le_add (h numerator) (h denominator)
  | squareRoot radicand =>
    have hmacro : slashes rootMacro = 0 := by decide
    simpa [normal, own, shown, hmacro] using h radicand
  | root index radicand =>
    have hmacro : slashes "root".toList = 0 := by decide
    have := Nat.add_le_add (h index) (h radicand)
    simp only [normal, own, shown, slashes_append, slashes_parenthesized, hmacro, slashes_nil, List.map_cons,
      List.map_nil, List.sum_cons, List.sum_nil]
    omega
  | bigOperator name scripts =>
    obtain ⟨_ | lower, _ | upper⟩ := scripts
    · simp [normal, own, shown]
    · simpa [normal, own, shown, slashes_cons_of_ne] using h upper
    · simpa [normal, own, shown, slashes_cons_of_ne] using h lower
    · simpa [normal, own, shown, slashes_cons_of_ne, Nat.add_assoc] using Nat.add_le_add (h lower) (h upper)
  | limit approach =>
    have hmacro : slashes limitMacro = 0 := by decide
    have harrows : slashes (trim (tightenArrows (inner approach))) ≤ slashes (inner approach) :=
      (slashes_trim_le _).trans (slashes_replaceAll_le findArrow_shortens (by decide))
    simpa [normal, own, shown, hmacro, slashes_cons_of_ne] using harrows.trans (h approach)

/-- A command that is understood writes no backslash itself. -/
theorem Made.slashes_own {name after left : Text} {piece : Piece} (h : Made name after piece left) :
    slashes piece.own = 0 := by
  cases h with
  | word hword => exact slashes_of_wordOf? hword
  | bigOperator hname =>
    have hnames : ∀ name ∈ bigOperatorMacros, slashes name = 0 := by decide
    exact hnames name hname
  | bareLimit => decide
  | _ => rfl

/-- **A piece has no more backslashes in its normal form** than it has in the text. -/
theorem Front.slashes_le {c : Char} {rest left : Text} {piece : Piece} (h : Front c rest piece left)
    {inner : Text → Text} (hinner : ∀ text, slashes (inner text) ≤ slashes text) :
    slashes (piece.normal inner) + slashes left ≤ slashes (c :: rest) := by
  have hnormal := slashes_normal_le hinner piece
  cases h with
  | plain =>
    simp only [normal, slashes_cons, slashes_nil]
    omega
  | group _ hgroup =>
    have hspends : _ ≤ _ := readGroup_spends delimiters_braces hgroup
    simp only [own, shown, slashes_nil] at hnormal hspends
    omega
  | escaped hslash hrest =>
    subst hslash hrest
    simp only [normal, slashes_cons, slashes_nil]
    omega
  -- A command spends its own backslash, and its arguments keep theirs at most.
  | command hslash hrest _ hmade =>
    subst hslash hrest
    have hspends : _ ≤ _ := hmade.spends
    rw [hmade.slashes_own] at hnormal
    rw [slashes_slash, slashes_append]
    omega
  | @verbatim name after hslash hrest =>
    subst hslash hrest
    have hsource : slashes ((readArguments false after).1.flatMap Argument.source)
        + slashes (readArguments false after).2 = slashes after := by
      rw [← slashes_append]
      exact congrArg slashes (readArgumentsUpTo_source false after.length after)
    simp only [normal, slashes_append, slashes_slash]
    omega

end Piece

/-- **No step of the normal form makes a backslash.** -/
theorem slashes_normalTo_le (levels : Nat) (text : Text) : slashes (normalTo levels text) ≤ slashes text := by
  induction levels generalizing text with
  | zero => exact le_rfl
  | succ levels ih =>
    induction text using piecesInduction with
    | nil => rw [normalTo_nil]
    | piece c rest ihleft =>
      rw [normalTo_cons, slashes_append]
      exact (Nat.add_le_add_left ihleft _).trans ((Piece.read_front c rest).slashes_le ih)

end MathScribe.Latex

/-
Replacing inside a larger text.

Sizing and spacing commands are dropped, and arrows tightened, by `replaceAll`, which looks for
something from left to right. When nothing that is looked for reaches over a place, the text in front of
the place and the text behind it can be treated apart (`replaceAll_append`). The fences of a fraction are
such places: `prepare_fraction` says that the first two passes treat the parts of a fraction, and what
stands around it, each on its own.
-/
import Mathlib
import MathScribe.Latex.Normal

set_option autoImplicit false

namespace MathScribe

/-! ## Step by step -/

/-- What holds of a text when it holds of everything further back in it holds of every text. -/
@[elab_as_elim]
theorem restInduction {motive : Text → Prop}
    (step : ∀ text, (∀ front left, text = front ++ left → front ≠ [] → motive left) → motive text)
    (text : Text) : motive text := by
  induction hlength : text.length using Nat.strongRecOn generalizing text with
  | _ n ih =>
    refine step text fun front left htext hne => ih left.length ?_ left rfl
    have hpos := List.length_pos_of_ne_nil hne
    rw [← hlength, htext, List.length_append]
    omega

/-- Something to look for, which takes at least one character off the front of a text. -/
def Shortens (find : Text → Option Text) : Prop :=
  ∀ c rest left, find (c :: rest) = some left → left <:+ rest

section

variable {find : Text → Option Text} {replacement : Text}

/-- There is nothing to find in an empty text. -/
@[simp] theorem replaceAll_nil : replaceAll find replacement [] = [] := by
  simp [replaceAll]

/-- Where nothing is found, one character is passed over. -/
theorem replaceAll_of_none {c : Char} {rest : Text} (h : find (c :: rest) = none) :
    replaceAll find replacement (c :: rest) = c :: replaceAll find replacement rest := by
  unfold replaceAll
  rw [chop_cons, h]
  rfl

/-- What is found is replaced, and looking goes on behind it. The text has to become shorter, or the
number of characters to skip would come out wrong. -/
theorem replaceAll_of_some (hfind : Shortens find) {c : Char} {rest left : Text}
    (h : find (c :: rest) = some left) :
    replaceAll find replacement (c :: rest)
      = replacement ++ replaceAll find replacement left := by
  obtain ⟨taken, rfl⟩ := hfind c rest left h
  unfold replaceAll
  rw [chop_cons, h]
  simp

/-- A place that nothing found in front of it reaches over: looking does not depend on whether the text
ends there or goes on. -/
def Fence (find : Text → Option Text) (front behind : Text) : Prop :=
  ∀ text, text <:+ front → text ≠ [] → find (text ++ behind) = (find text).map (· ++ behind)

/-- A fence stays one when the front is cut off. -/
theorem Fence.of_suffix {front text behind : Text} (h : Fence find front behind)
    (hsuffix : text <:+ front) : Fence find text behind :=
  fun part hpart hne => h part (hpart.trans hsuffix) hne

/-- **The texts on both sides of a fence are treated apart.** -/
theorem replaceAll_append (hfind : Shortens find) {front behind : Text}
    (hfence : Fence find front behind) :
    replaceAll find replacement (front ++ behind)
      = replaceAll find replacement front ++ replaceAll find replacement behind := by
  induction front using restInduction with
  | step front ih =>
    cases front with
    | nil => simp
    | cons c rest =>
      -- At every place in front of the fence the same is found, and what is left ends at the fence as well.
      have hlook := hfence (c :: rest) (List.suffix_refl _) (List.cons_ne_nil _ _)
      rw [List.cons_append] at hlook ⊢
      cases hfound : find (c :: rest) with
      | none =>
        have hnone : find (c :: (rest ++ behind)) = none := by rw [hlook, hfound]; rfl
        rw [replaceAll_of_none hnone, replaceAll_of_none hfound,
          ih [c] rest rfl (List.cons_ne_nil _ _) (hfence.of_suffix (List.suffix_cons ..))]
        rfl
      | some left =>
        have hsome : find (c :: (rest ++ behind)) = some (left ++ behind) := by
          rw [hlook, hfound]
          rfl
        obtain ⟨taken, rfl⟩ := hfind c rest left hfound
        rw [replaceAll_of_some hfind hsome, replaceAll_of_some hfind hfound,
          ih (c :: taken) left rfl (List.cons_ne_nil _ _)
            (hfence.of_suffix (List.suffix_append (c :: taken) left)),
          List.append_assoc]

end

/-! ## What stands at the front of a text -/

/-- Characters are dropped from the front of a text as if nothing stood behind it, unless the text
behind goes on with more of them. -/
theorem dropWhile_append_head {kind : Char → Bool} {text behind : Text}
    (h : ∀ c ∈ behind.head?, kind c = false) :
    (text ++ behind).dropWhile kind = text.dropWhile kind ++ behind := by
  rw [List.dropWhile_append]
  by_cases hempty : (text.dropWhile kind).isEmpty = true
  · rw [if_pos hempty, List.isEmpty_iff.mp hempty, List.nil_append]
    cases behind with
    | nil => rfl
    | cons c behind => rw [List.dropWhile_cons_of_neg (by simp [h c rfl])]
  · rw [if_neg hempty]

/-- Every text starts with the empty text. -/
theorem dropStart?_nil (text : Text) : dropStart? [] text = some text := by
  simp [dropStart?]

/-- A start is compared character by character. -/
theorem dropStart?_cons (a c : Char) (start rest : Text) :
    dropStart? (a :: start) (c :: rest) = if a = c then dropStart? start rest else none := by
  unfold dropStart?
  by_cases h : a = c
  · simp [h]
  · simp [h]

/-- An empty text starts with no character. -/
theorem dropStart?_cons_nil (a : Char) (start : Text) : dropStart? (a :: start) [] = none := by
  simp [dropStart?]

/-- What is left behind a start, told without the comparison. -/
theorem dropStart?_eq_some_iff {start text left : Text} :
    dropStart? start text = some left ↔ text = start ++ left := by
  induction start generalizing text with
  | nil => rw [dropStart?_nil, List.nil_append, Option.some.injEq]
  | cons a start ih =>
    cases text with
    | nil => simp [dropStart?_cons_nil]
    | cons c rest =>
      rw [dropStart?_cons]
      by_cases h : a = c
      · rw [if_pos h, ih, h]
        simp
      · rw [if_neg h]
        simp [Ne.symm h]

/-- What is looked for does not start in a text and go on behind it with a character that is not in
it. -/
theorem dropStart?_append {start text behind : Text} (h : ∀ c ∈ behind.head?, c ∉ start) :
    dropStart? start (text ++ behind) = (dropStart? start text).map (· ++ behind) := by
  induction start generalizing text with
  | nil => simp [dropStart?_nil]
  | cons a start ih =>
    cases text with
    | nil =>
      rw [List.nil_append, dropStart?_cons_nil]
      cases behind with
      | nil => rw [dropStart?_cons_nil]; rfl
      | cons c behind =>
        have hne : a ≠ c := fun heq => h c rfl (heq ▸ List.mem_cons_self)
        rw [dropStart?_cons, if_neg hne]
        rfl
    | cons c rest =>
      rw [List.cons_append, dropStart?_cons, dropStart?_cons]
      by_cases heq : a = c
      · rw [if_pos heq, if_pos heq]
        exact ih fun c hc hmem => h c hc (List.mem_cons_of_mem _ hmem)
      · rw [if_neg heq, if_neg heq]
        rfl

namespace Latex

/-! ## The first two passes -/

/-- A text that no sizing command and no spacing command goes on with or reaches into. -/
structure Behind (text : Text) : Prop where
  letter : startsWithLetter text = false
  pad : ∀ c ∈ text.head?, isPad c = false
  mark : ∀ c ∈ text.head?, ¬ (c = ',' ∨ c = ';' ∨ c = ':' ∨ c = '!')
  spacing : dropSpacing? text = none

/-- Such a text does not start with a letter. -/
theorem Behind.head {text : Text} (h : Behind text) : ∀ c ∈ text.head?, c.isAlpha = false := by
  cases text with
  | nil => exact nofun
  | cons c rest =>
    intro d hd
    cases hd
    exact h.letter

/-- A macro of the given name is found in front of such a text as it is found at the end. -/
theorem dropMacro?_append {name text behind : Text} (hname : name.all Char.isAlpha = true)
    (hbehind : Behind behind) (hne : text ≠ []) :
    dropMacro? name (text ++ behind) = (dropMacro? name text).map (· ++ behind) := by
  obtain ⟨c, rest, rfl⟩ := List.exists_cons_of_ne_nil hne
  have hstart : dropStart? name (rest ++ behind) = (dropStart? name rest).map (· ++ behind) := by
    refine dropStart?_append fun d hd hmem => ?_
    exact absurd ((List.all_eq_true.mp hname d hmem).symm.trans (hbehind.head d hd)) Bool.noConfusion
  unfold dropMacro?
  rw [List.cons_append, dropStart?_cons, dropStart?_cons]
  by_cases hc : '\\' = c
  · rw [if_pos hc, if_pos hc, hstart]
    cases dropStart? name rest with
    | none => rfl
    | some left =>
      cases left with
      -- The macro ends where the text does, and the text behind does not lengthen its name.
      | nil =>
        show (if startsWithLetter behind = true then none else some behind) = some behind
        rw [hbehind.letter]
        rfl
      | cons d left =>
        show (if d.isAlpha = true then none else some (d :: left ++ behind))
          = (if d.isAlpha = true then none else some (d :: left)).map (· ++ behind)
        by_cases hd : d.isAlpha = true
        · rw [if_pos hd, if_pos hd]
          rfl
        · rw [if_neg hd, if_neg hd]
          rfl
  · rw [if_neg hc, if_neg hc]
    rfl

/-- A pass over a text that leaves fractions alone. -/
structure Pass (find : Text → Option Text) : Prop where
  shortens : Shortens find
  fence : ∀ front behind, Behind behind → Fence find front behind
  plain : ∀ c rest, c ≠ '\\' → isPad c = false → find (c :: rest) = none
  fraction : ∀ rest, find ('\\' :: 'f' :: rest) = none

/-- What is left behind a macro stands behind its backslash and its name. -/
theorem dropMacro?_eq_some {name text left : Text} (h : dropMacro? name text = some left) :
    text = '\\' :: name ++ left := by
  unfold dropMacro? at h
  cases hstart : dropStart? ('\\' :: name) text with
  | none => simp [hstart] at h
  | some found =>
    rw [hstart] at h
    simp only at h
    split at h
    · cases h
    · cases h
      exact dropStart?_eq_some_iff.mp hstart

/-- The pass over sizing commands leaves fractions alone. -/
theorem sizing_pass : Pass findSizing where
  shortens := by
    intro c rest left h
    unfold findSizing at h
    rcases Option.or_eq_some_iff.mp h with hleft | ⟨-, hright⟩
    · exact ⟨_, (List.cons.inj (dropMacro?_eq_some hleft)).2.symm⟩
    · exact ⟨_, (List.cons.inj (dropMacro?_eq_some hright)).2.symm⟩
  fence := by
    intro front behind hbehind text _ hne
    unfold findSizing
    rw [dropMacro?_append rfl hbehind hne, dropMacro?_append rfl hbehind hne]
    cases dropMacro? "left".toList text <;> rfl
  plain := by
    intro c rest hc _
    simp [findSizing, dropMacro?, dropStart?_cons, Ne.symm hc]
  fraction := by
    intro rest
    simp [findSizing, dropMacro?, dropStart?_cons]

/-- What is left behind a spacing command is an end of the text. -/
theorem dropSpacing?_suffix {c : Char} {rest left : Text} (h : dropSpacing? (c :: rest) = some left) :
    left <:+ rest := by
  unfold dropSpacing? at h
  split at h
  · next d behind heq =>
    obtain ⟨rfl, rfl⟩ := List.cons.inj heq
    split at h
    · cases h
      exact List.suffix_cons ..
    · rcases Option.or_eq_some_iff.mp h with hquad | ⟨-, hqquad⟩
      · exact ⟨_, (List.cons.inj (dropMacro?_eq_some hquad)).2.symm⟩
      · exact ⟨_, (List.cons.inj (dropMacro?_eq_some hqquad)).2.symm⟩
  · cases h

/-- A spacing command is a backslash with one of four marks, or one of two macros. -/
theorem dropSpacing?_cons (d : Char) (rest : Text) :
    dropSpacing? ('\\' :: d :: rest)
      = if d = ',' ∨ d = ';' ∨ d = ':' ∨ d = '!' then some rest
        else (dropMacro? "quad".toList ('\\' :: d :: rest)).or
          (dropMacro? "qquad".toList ('\\' :: d :: rest)) :=
  rfl

/-- A spacing command starts with a backslash. -/
theorem dropSpacing?_of_ne {c : Char} (hc : c ≠ '\\') (rest : Text) :
    dropSpacing? (c :: rest) = none := by
  unfold dropSpacing?
  split
  · next heq => exact absurd (List.cons.inj heq).1 hc
  · rfl

/-- A spacing macro is found in front of such a text as it is found at the end. -/
theorem dropQuad?_append {text behind : Text} (hbehind : Behind behind) (hne : text ≠ []) :
    (dropMacro? "quad".toList (text ++ behind)).or (dropMacro? "qquad".toList (text ++ behind))
      = ((dropMacro? "quad".toList text).or (dropMacro? "qquad".toList text)).map
          (· ++ behind) := by
  rw [dropMacro?_append rfl hbehind hne, dropMacro?_append rfl hbehind hne]
  cases dropMacro? "quad".toList text <;> rfl

/-- A spacing command does not reach into what no command goes on with. -/
theorem dropSpacing?_append {text behind : Text} (hbehind : Behind behind) :
    dropSpacing? (text ++ behind) = (dropSpacing? text).map (· ++ behind) := by
  cases text with
  | nil => rw [List.nil_append, hbehind.spacing]; rfl
  | cons c text =>
    by_cases hc : c = '\\'
    · have hcommand := dropQuad?_append hbehind (List.cons_ne_nil c text)
      subst hc
      cases text with
      | cons d rest =>
        rw [List.cons_append, List.cons_append] at hcommand ⊢
        rw [dropSpacing?_cons, dropSpacing?_cons, hcommand]
        by_cases hd : d = ',' ∨ d = ';' ∨ d = ':' ∨ d = '!'
        · rw [if_pos hd, if_pos hd]
          rfl
        · rw [if_neg hd, if_neg hd]
      | nil =>
        -- A backslash alone: what it would hide is the front of the text behind, no spacing mark.
        cases behind with
        | nil => rfl
        | cons d behind =>
          rw [List.cons_append, List.nil_append] at hcommand ⊢
          rw [dropSpacing?_cons, if_neg (hbehind.mark d rfl), hcommand]
          rfl
    · rw [List.cons_append, dropSpacing?_of_ne hc, dropSpacing?_of_ne hc]
      rfl

/-- The pass over spacing commands leaves fractions alone. It takes the spaces around a command too, and a
fraction starts and ends with none. -/
theorem spacing_pass : Pass findSpacing where
  shortens := by
    intro c rest left h
    obtain ⟨found, hfound, rfl⟩ := Option.map_eq_some_iff.mp h
    refine (List.dropWhile_suffix _).trans ?_
    -- Spaces in front of the command are dropped with it, one at least in the first case.
    by_cases hc : isPad c = true
    · rw [List.dropWhile_cons_of_pos hc] at hfound
      have hpads : rest.dropWhile isPad <:+ rest := List.dropWhile_suffix _
      cases hrest : rest.dropWhile isPad with
      | nil => simp [hrest, dropSpacing?] at hfound
      | cons d more =>
        rw [hrest] at hfound hpads
        exact ((dropSpacing?_suffix hfound).trans (List.suffix_cons ..)).trans hpads
    · rw [List.dropWhile_cons_of_neg hc] at hfound
      exact dropSpacing?_suffix hfound
  fence := by
    intro front behind hbehind text _ _
    unfold findSpacing
    rw [dropWhile_append_head hbehind.pad, dropSpacing?_append hbehind, Option.map_map,
      Option.map_map]
    refine congrArg (fun f => Option.map f _) (funext fun left => ?_)
    exact dropWhile_append_head hbehind.pad
  plain := by
    intro c rest hc hpad
    unfold findSpacing
    rw [List.dropWhile_cons_of_neg (by simp [hpad])]
    simp [dropSpacing?, hc]
  fraction := by
    intro rest
    unfold findSpacing
    rw [List.dropWhile_cons_of_neg (by decide)]
    simp [dropSpacing?, dropMacro?, dropStart?_cons]

/-! ## Fractions -/

/-- A fraction macro in front of a text. -/
def fractionAt (behind : Text) : Text :=
  '\\' :: 'f' :: 'r' :: 'a' :: 'c' :: behind

/-- A fraction as it is written. -/
def fractionSource (numerator denominator : Text) : Text :=
  fractionAt ('{' :: (numerator ++ '}' :: '{' :: (denominator ++ ['}'])))

/-- A fraction as it is written, in front of a text, brace by brace. -/
theorem fractionSource_append (numerator denominator behind : Text) :
    fractionSource numerator denominator ++ behind
      = fractionAt ('{' :: (numerator ++ '}' :: '{' :: (denominator ++ '}' :: behind))) := by
  simp [fractionSource, fractionAt]

/-- No command of the two passes goes on with a fraction or reaches into it. -/
theorem behind_fraction (rest : Text) : Behind ('\\' :: 'f' :: rest) where
  letter := rfl
  pad := by simp [isPad]
  mark := by simp
  spacing := by simp [dropSpacing?_cons, dropMacro?, dropStart?_cons]

/-- No command of the two passes goes on with a closing brace. -/
theorem behind_closer (rest : Text) : Behind ('}' :: rest) where
  letter := rfl
  pad := by simp [isPad]
  mark := by simp
  spacing := dropSpacing?_of_ne (by decide) rest

section

variable {find : Text → Option Text} {replacement : Text}

/-- A character that starts nothing is passed over. -/
theorem Pass.replaceAll_plain (hp : Pass find) {c : Char} (hc : c ≠ '\\') (hpad : isPad c = false)
    (rest : Text) :
    replaceAll find replacement (c :: rest) = c :: replaceAll find replacement rest :=
  replaceAll_of_none (hp.plain c rest hc hpad)

/-- A pass works on each side of such a place for itself. -/
theorem Pass.replaceAll_append (hp : Pass find) {front behind : Text} (hbehind : Behind behind) :
    replaceAll find replacement (front ++ behind)
      = replaceAll find replacement front ++ replaceAll find replacement behind :=
  MathScribe.replaceAll_append hp.shortens (hp.fence front behind hbehind)

/-- **A pass treats the parts of a fraction, and what stands around it, each on its own.** -/
theorem Pass.replaceAll_fraction (hp : Pass find) (front numerator denominator behind : Text) :
    replaceAll find replacement (front ++ (fractionSource numerator denominator ++ behind))
      = replaceAll find replacement front
        ++ (fractionSource (replaceAll find replacement numerator)
              (replaceAll find replacement denominator)
          ++ replaceAll find replacement behind) := by
  rw [fractionSource_append, fractionSource_append]
  unfold fractionAt
  rw [hp.replaceAll_append (behind_fraction _), replaceAll_of_none (hp.fraction _)]
  repeat rw [hp.replaceAll_plain (by decide) (by decide)]
  rw [hp.replaceAll_append (behind_closer _)]
  repeat rw [hp.replaceAll_plain (by decide) (by decide)]
  rw [hp.replaceAll_append (behind_closer _), hp.replaceAll_plain (by decide) (by decide)]

end

/-- A formula without its sizing commands, and with one space for each spacing command. -/
def prepare (text : Text) : Text :=
  replaceAll findSpacing [' '] (replaceAll findSizing [] text)

/-- The normal form is that of the prepared text, with all levels allowed. -/
theorem normalize_eq (text : Text) : normalize text = normalTo maxLevels (prepare text) :=
  rfl

/-- **The first two passes leave a fraction a fraction.** -/
theorem prepare_fraction (front numerator denominator behind : Text) :
    prepare (front ++ (fractionSource numerator denominator ++ behind))
      = prepare front ++ (fractionSource (prepare numerator) (prepare denominator)
        ++ prepare behind) := by
  unfold prepare
  rw [sizing_pass.replaceAll_fraction, spacing_pass.replaceAll_fraction]

/-! ## Arrows -/

/-- An arrow takes at least its minus off the text. -/
theorem findArrow_shortens : Shortens findArrow := by
  intro c rest left h
  obtain ⟨found, hfound, rfl⟩ := Option.map_eq_some_iff.mp h
  refine (List.dropWhile_suffix _).trans ?_
  have htext := dropStart?_eq_some_iff.mp hfound
  by_cases hc : isBlank c = true
  · rw [List.dropWhile_cons_of_pos hc] at htext
    exact (List.suffix_append _ _).trans (htext ▸ List.dropWhile_suffix _)
  · rw [List.dropWhile_cons_of_neg hc] at htext
    exact ⟨['>'], (List.cons.inj htext).2.symm⟩

/-- Nothing of an arrow, and no white space that would go with one. -/
def outsideArrows (c : Char) : Prop :=
  isBlank c = false ∧ c ≠ '-' ∧ c ≠ '>'

instance (c : Char) : Decidable (outsideArrows c) :=
  inferInstanceAs (Decidable (_ ∧ _))

/-- An arrow starts with white space or with its minus. -/
theorem findArrow_eq_none {c : Char} (hblank : isBlank c = false) (hminus : c ≠ '-') (rest : Text) :
    findArrow (c :: rest) = none := by
  unfold findArrow
  rw [List.dropWhile_cons_of_neg (by simp [hblank])]
  simp [dropStart?_cons, Ne.symm hminus]

/-- No arrow reaches over a character that is neither white space nor part of one. -/
theorem findArrow_fence {c : Char} (hc : outsideArrows c) (front rest : Text) :
    Fence findArrow front (c :: rest) := by
  obtain ⟨hblank, hminus, hgreater⟩ := hc
  have hhead : ∀ d ∈ (c :: rest).head?, isBlank d = false := by
    simp [hblank]
  have harrow : ∀ d ∈ (c :: rest).head?, d ∉ "->".toList := by
    simp [hminus, hgreater]
  intro text _ _
  unfold findArrow
  rw [dropWhile_append_head hhead, dropStart?_append harrow, Option.map_map, Option.map_map]
  refine congrArg (fun f => Option.map f _) (funext fun left => ?_)
  exact dropWhile_append_head hhead

/-- **Arrows are tightened apart on both sides of a character that belongs to none.** -/
theorem tightenArrows_append_cons {c : Char} (hc : outsideArrows c) (front rest : Text) :
    tightenArrows (front ++ c :: rest) = tightenArrows front ++ c :: tightenArrows rest := by
  unfold tightenArrows
  rw [replaceAll_append findArrow_shortens (findArrow_fence hc front rest),
    replaceAll_of_none (findArrow_eq_none hc.1 hc.2.1 rest)]

/-- Such a character stays when arrows are tightened. -/
theorem mem_tightenArrows {c : Char} (hc : outsideArrows c) {text : Text} (h : c ∈ text) :
    c ∈ tightenArrows text := by
  obtain ⟨front, rest, rfl⟩ := List.append_of_mem h
  rw [tightenArrows_append_cons hc]
  simp

end Latex

end MathScribe

/-
What the first two passes keep.

Before anything else is done, commands that only set a size are dropped from a formula, and commands that
only make room become one space. The passes run over the whole text and know nothing of its groups. Still
every group of the prepared text is a group of the text, with the inside prepared as well, so its groups are
balanced when those of the text are, and are not nested deeper (`balanced_prepare`, `nestsBelow_prepare`).

`Lightened` says what a pass may do at most, one character after the other. That a pass does no more needs
every backslash to hide what stands behind it: of two backslashes the second one is hidden itself, and a
pass would take it for the start of a command. `BackslashesApart` excludes that.
-/
import MathScribe.Proofs.Latex.Nesting

set_option autoImplicit false

namespace MathScribe.Latex

/-! ## Lightened texts -/

/-- A character that neither hides another one nor delimits a group. -/
def Neutral (c : Char) : Prop :=
  c ∉ ['\\', '{', '}', '[', ']']

instance (c : Char) : Decidable (Neutral c) :=
  inferInstanceAs (Decidable (_ ∉ _))

/-- A neutral character is no backslash. -/
theorem Neutral.ne_slash {c : Char} (h : Neutral c) : c ≠ '\\' := by
  rintro rfl
  exact absurd h (by decide)

/-- A text after a pass: hidden characters may change or go, with their backslashes, and neutral ones may
go. Blanks may come. -/
inductive Lightened : Text → Text → Prop
  | nil : Lightened [] []
  | lone : Lightened ['\\'] ['\\']
  | hidden {c c' : Char} {text light : Text} : Lightened text light →
      Lightened ('\\' :: c :: text) ('\\' :: c' :: light)
  | plain {c : Char} {text light : Text} : c ≠ '\\' → Lightened text light →
      Lightened (c :: text) (c :: light)
  | dropHidden {c : Char} {text light : Text} : Lightened text light →
      Lightened ('\\' :: c :: text) light
  | dropNeutral {c : Char} {text light : Text} : Neutral c → Lightened text light →
      Lightened (c :: text) light
  | blank {text light : Text} : Lightened text light → Lightened text (' ' :: light)

namespace Lightened

variable {text light : Text}

/-- A row of neutral characters may go as one. -/
theorem drop {front : Text} (hfront : ∀ c ∈ front, Neutral c) (h : Lightened text light) :
    Lightened (front ++ text) light := by
  induction front with
  | nil => exact h
  | cons c front ih =>
    obtain ⟨hc, hfront⟩ := List.forall_mem_cons.mp hfront
    exact (ih hfront).dropNeutral hc

section

variable {opener closer : Char}

/-- What a pass drops or makes opens and closes nothing. -/
theorem levelFrom (hneutral : ∀ c, Neutral c → c ≠ opener ∧ c ≠ closer) (h : Lightened text light)
    (level : Nat) : levelFrom opener closer level light = Latex.levelFrom opener closer level text := by
  induction h generalizing level with
  | nil | lone => rfl
  | hidden _ ih => exact ih level
  | plain hc _ ih =>
    rw [levelFrom_cons hc, levelFrom_cons hc]
    simp only [ih]
  | dropHidden _ ih => exact ih level
  | dropNeutral hc _ ih =>
    obtain ⟨hopen, hclose⟩ := hneutral _ hc
    rw [levelFrom_plain hc.ne_slash hopen hclose, ih]
  | blank _ ih =>
    obtain ⟨hopen, hclose⟩ := hneutral ' ' (by decide)
    rw [levelFrom_plain (by decide) hopen hclose, ih]

/-- The inside of a group in the light text is a light inside. -/
theorem readInside (hneutral : ∀ c, Neutral c → c ≠ opener ∧ c ≠ closer) (h : Lightened text light)
    {inner : Nat} {inside' left' : Text}
    (hread : readInside opener closer inner light = some (inside', left')) :
    ∃ inside left, Latex.readInside opener closer inner text = some (inside, left)
      ∧ Lightened inside inside' ∧ Lightened left left' := by
  induction h generalizing inner inside' left' with
  | nil | lone => cases hread
  | hidden _ ih =>
    rw [readInside_hidden] at hread
    obtain ⟨⟨found, behind⟩, hfound, hsame⟩ := Option.map_eq_some_iff.mp hread
    cases hsame
    obtain ⟨inside, left, hinside, hlight, hleft⟩ := ih hfound
    exact ⟨_, left, by rw [readInside_hidden, hinside]; rfl, hlight.hidden, hleft⟩
  | @plain c text light hc htext ih =>
    -- Whatever the character does to the number of open groups, it does in both texts.
    obtain ⟨hend, rfl, rfl⟩ | ⟨next, hnext, more, rfl, hmore⟩ := (readInside_cons_eq_some_iff hc).mp hread
    · exact ⟨[], text, (readInside_cons_eq_some_iff hc).mpr (.inl ⟨hend, rfl, rfl⟩), .nil, htext⟩
    · obtain ⟨inside, left, hinside, hlight, hleft⟩ := ih hmore
      exact ⟨c :: inside, left, (readInside_cons_eq_some_iff hc).mpr (.inr ⟨next, hnext, inside, rfl, hinside⟩),
        hlight.plain hc, hleft⟩
  | dropHidden _ ih =>
    obtain ⟨inside, left, hinside, hlight, hleft⟩ := ih hread
    exact ⟨_, left, by rw [readInside_hidden, hinside]; rfl, hlight.dropHidden, hleft⟩
  | @dropNeutral c _ _ hc _ ih =>
    obtain ⟨hopen, hclose⟩ := hneutral c hc
    obtain ⟨inside, left, hinside, hlight, hleft⟩ := ih hread
    refine ⟨c :: inside, left, ?_, hlight.dropNeutral hc, hleft⟩
    rw [readInside_cons hc.ne_slash, if_neg hopen, if_neg hclose, hinside]
    rfl
  | blank _ ih =>
    obtain ⟨hopen, hclose⟩ := hneutral ' ' (by decide)
    rw [readInside_cons (by decide), if_neg hopen, if_neg hclose] at hread
    obtain ⟨⟨found, behind⟩, hfound, hsame⟩ := Option.map_eq_some_iff.mp hread
    cases hsame
    obtain ⟨inside, left, hinside, hlight, hleft⟩ := ih hfound
    exact ⟨inside, left, hinside, hlight.blank, hleft⟩

/-- A group of the lightened text is a group of the text: what went or changed was hidden or neutral, so
no delimiter of the group was touched. -/
theorem readGroup (hneutral : ∀ c, Neutral c → c ≠ opener ∧ c ≠ closer) (h : Lightened text light)
    {c : Char} {inside' left' : Text}
    (hread : readGroup opener closer (c :: light) = some (inside', left')) :
    ∃ inside left, Latex.readGroup opener closer (c :: text) = some (inside, left)
      ∧ Lightened inside inside' := by
  dsimp only [Latex.readGroup] at hread ⊢
  by_cases hc : c = opener ∧ c ≠ '\\'
  · rw [if_pos hc] at hread ⊢
    obtain ⟨inside, left, hinside, hlight, -⟩ := h.readInside hneutral hread
    exact ⟨inside, left, hinside, hlight⟩
  · rw [if_neg hc] at hread
    cases hread

end

theorem neutral_braces (c : Char) (hc : Neutral c) : c ≠ '{' ∧ c ≠ '}' := by
  constructor <;> rintro rfl <;> exact absurd hc (by decide)

theorem neutral_brackets (c : Char) (hc : Neutral c) : c ≠ '[' ∧ c ≠ ']' := by
  constructor <;> rintro rfl <;> exact absurd hc (by decide)

/-- A balanced text stays balanced when it is lightened. -/
theorem balanced (h : Lightened text light) (htext : Balanced text) : Balanced light :=
  (h.levelFrom neutral_braces 0).trans htext

/-- A check that lightening keeps is kept for the groups of a text. -/
theorem everyGroup {ok : Text → Bool}
    (hok : ∀ text light, Lightened text light → ok text = true → ok light = true)
    (h : Lightened text light) (htext : everyGroup ok text = true) : everyGroup ok light = true := by
  induction h with
  | nil | lone => rfl
  | hidden _ ih => exact ih htext
  | plain hc hlight ih =>
    obtain ⟨hbraces, hbrackets, hrest⟩ := (everyGroup_cons hc _).mp htext
    refine (everyGroup_cons hc _).mpr ⟨?_, ?_, ih hrest⟩
    · intro inside' left' hread
      obtain ⟨inside, left, hinside, hlight⟩ := hlight.readGroup neutral_braces hread
      exact hok _ _ hlight (hbraces inside left hinside)
    · intro inside' left' hread
      obtain ⟨inside, left, hinside, hlight⟩ := hlight.readGroup neutral_brackets hread
      exact hok _ _ hlight (hbrackets inside left hinside)
  | dropHidden _ ih => exact ih htext
  | dropNeutral hc _ ih => exact ih ((everyGroup_cons hc.ne_slash _).mp htext).2.2
  | blank _ ih =>
    refine (everyGroup_cons (by decide) _).mpr ⟨?_, ?_, ih htext⟩
    · intro inside' left' hread
      cases hread
    · intro inside' left' hread
      cases hread

/-- **Lightening a text does not nest its groups deeper.** -/
theorem nestsBelow {levels : Nat} (h : Lightened text light) (htext : nestsBelow levels text = true) :
    nestsBelow levels light = true := by
  induction levels generalizing text light with
  | zero => cases htext
  | succ levels ih => exact h.everyGroup (fun _ _ hlight hinside => ih hlight hinside) htext

end Lightened

/-! ## Backslashes that stand apart -/

/-- No two backslashes stand next to each other. -/
def BackslashesApart (text : Text) : Prop :=
  ¬ ['\\', '\\'] <:+: text

/-- Whether two backslashes touch is seen at the first character and in the rest. -/
theorem backslashesApart_cons {c : Char} {text : Text} :
    BackslashesApart (c :: text)
      ↔ ¬ (c = '\\' ∧ text.head? = some '\\') ∧ BackslashesApart text := by
  unfold BackslashesApart
  rw [List.infix_cons_iff, not_or]
  refine and_congr_left fun _ => not_congr ?_
  cases text with
  | nil => simp
  | cons d text => simp [List.cons_prefix_cons, eq_comm]

/-- The end of such a text is such a text. -/
theorem BackslashesApart.of_suffix {text left : Text} (h : BackslashesApart text)
    (hsuffix : left <:+ text) : BackslashesApart left :=
  fun hdouble => h (List.IsInfix.trans hdouble hsuffix.isInfix)

/-! ## The passes -/

/-- A pass that drops commands, with white space in front of them where it puts a blank in their place. -/
structure LightPass (find : Text → Option Text) (replacement : Text) : Prop where
  shortens : Shortens find
  takes : ∀ text left, find text = some left → ∃ pads hidden more,
    text = pads ++ '\\' :: hidden :: (more ++ left) ∧ Padding pads ∧ ∀ c ∈ more, Neutral c
  replaces : replacement = [' '] ∨ replacement = [] ∧ ∀ c rest, c ≠ '\\' → find (c :: rest) = none

/-- Spaces and tabs are neutral. -/
theorem Padding.neutral {pads : Text} (h : Padding pads) : ∀ c ∈ pads, Neutral c := by
  intro c hc
  have hpad := h c hc
  simp only [isPad, Bool.or_eq_true, beq_iff_eq] at hpad
  rcases hpad with rfl | rfl <;> decide

/-- What is taken as padding is padding. -/
theorem padding_takeWhile (text : Text) : Padding (text.takeWhile isPad) :=
  List.all_eq_true.mp List.all_takeWhile

/-- Letters are neutral. -/
theorem neutral_of_isAlpha {c : Char} (h : c.isAlpha = true) : Neutral c := by
  intro hmem
  simp only [List.mem_cons, List.not_mem_nil, or_false] at hmem
  rcases hmem with rfl | rfl | rfl | rfl | rfl <;> cases h

/-- Dropping a macro takes its backslash, the letter that the backslash hides, and more letters. -/
theorem dropMacro?_takes {name text left : Text} (hname : name.all Char.isAlpha = true)
    (hne : name ≠ []) (h : dropMacro? name text = some left) :
    ∃ hidden more, text = '\\' :: hidden :: (more ++ left) ∧ ∀ c ∈ more, Neutral c := by
  obtain ⟨hidden, more, rfl⟩ := List.exists_cons_of_ne_nil hne
  exact ⟨hidden, more, dropMacro?_eq_some h,
    fun c hc => neutral_of_isAlpha (List.all_eq_true.mp hname c (List.mem_cons_of_mem hidden hc))⟩

/-- The sizing pass drops commands and puts nothing in their place. -/
theorem sizing_lightPass : LightPass findSizing [] where
  shortens := sizing_pass.shortens
  takes := by
    intro text left h
    have hcommand : ∃ hidden more, text = '\\' :: hidden :: (more ++ left) ∧ ∀ c ∈ more, Neutral c := by
      rcases Option.or_eq_some_iff.mp h with hleft | ⟨-, hright⟩
      · exact dropMacro?_takes rfl (by decide) hleft
      · exact dropMacro?_takes rfl (by decide) hright
    obtain ⟨hidden, more, htext, hmore⟩ := hcommand
    exact ⟨[], hidden, more, htext, nofun, hmore⟩
  replaces := by
    refine .inr ⟨rfl, fun c rest hc => ?_⟩
    simp [findSizing, dropMacro?, dropStart?_cons, Ne.symm hc]

/-- Dropping a spacing command takes its backslash, the character that the backslash hides, and neutral
characters. -/
theorem dropSpacing?_takes {text left : Text} (h : dropSpacing? text = some left) :
    ∃ hidden more, text = '\\' :: hidden :: (more ++ left) ∧ ∀ c ∈ more, Neutral c := by
  unfold dropSpacing? at h
  split at h
  · next c behind =>
    split at h
    · cases h
      exact ⟨c, [], rfl, nofun⟩
    · rcases Option.or_eq_some_iff.mp h with hquad | ⟨-, hqquad⟩
      · exact dropMacro?_takes rfl (by decide) hquad
      · exact dropMacro?_takes rfl (by decide) hqquad
  · cases h

/-- The spacing pass puts a blank in the place of a command and of the spaces around it. -/
theorem spacing_lightPass : LightPass findSpacing [' '] where
  shortens := spacing_pass.shortens
  takes := by
    intro text left h
    obtain ⟨found, hfound, rfl⟩ := Option.map_eq_some_iff.mp h
    obtain ⟨hidden, more, htext, hmore⟩ := dropSpacing?_takes hfound
    refine ⟨text.takeWhile isPad, hidden, more ++ found.takeWhile isPad, ?_, padding_takeWhile text,
      List.forall_mem_append.mpr ⟨hmore, (padding_takeWhile found).neutral⟩⟩
    rw [List.append_assoc, List.takeWhile_append_dropWhile, ← htext, List.takeWhile_append_dropWhile]
  replaces := .inl rfl

/-- A command that is found can be dropped, with the white space in front of it. -/
theorem LightPass.drop {find : Text → Option Text} {replacement text left light : Text}
    (hp : LightPass find replacement) (hfound : find text = some left) (h : Lightened left light) :
    Lightened text light := by
  obtain ⟨pads, hidden, more, rfl, hpads, hmore⟩ := hp.takes text left hfound
  exact (h.drop hmore).dropHidden.drop hpads.neutral

/-- A command that is found can be dropped from a text that lacks the first blank in front of it. -/
theorem LightPass.drop_tail {find : Text → Option Text} {replacement rest left light : Text} {d : Char}
    (hp : LightPass find replacement) (hd : d ≠ '\\') (hfound : find (d :: rest) = some left)
    (h : Lightened left light) : Lightened rest light := by
  obtain ⟨pads, hidden, more, htext, hpads, hmore⟩ := hp.takes (d :: rest) left hfound
  cases pads with
  | nil => exact absurd (List.cons.inj htext).1 hd
  | cons pad pads =>
    have hneutral : ∀ c ∈ pads, Neutral c := fun c hc => hpads.neutral c (List.mem_cons_of_mem pad hc)
    rw [(List.cons.inj htext).2]
    exact (h.drop hmore).dropHidden.drop hneutral

/-- **A pass lightens a text**, when every backslash hides what stands behind it. -/
theorem LightPass.lightened {find : Text → Option Text} {replacement text : Text}
    (hp : LightPass find replacement) (h : BackslashesApart text) :
    Lightened text (replaceAll find replacement text) := by
  induction text using restInduction with
  | step text ih =>
    have hbehind : ∀ (front : Text) {left : Text}, text = front ++ left → front ≠ [] →
        Lightened left (replaceAll find replacement left) := by
      rintro front left rfl hne
      exact ih front left rfl hne (h.of_suffix (List.suffix_append ..))
    cases text with
    | nil =>
      rw [replaceAll_nil]
      exact .nil
    | cons c rest =>
      cases hfound : find (c :: rest) with
      | some left =>
        obtain ⟨taken, rfl⟩ := hp.shortens c rest left hfound
        have hleft := hp.drop hfound (hbehind (c :: taken) rfl (List.cons_ne_nil _ _))
        rw [replaceAll_of_some hp.shortens hfound]
        rcases hp.replaces with rfl | ⟨rfl, -⟩
        · exact hleft.blank
        · exact hleft
      | none =>
        rw [replaceAll_of_none hfound]
        by_cases hc : c = '\\'
        · subst hc
          cases rest with
          | nil =>
            rw [replaceAll_nil]
            exact .lone
          | cons d rest =>
            have hd : d ≠ '\\' := fun hd => (backslashesApart_cons.mp h).1 ⟨rfl, by rw [hd]; rfl⟩
            cases hnext : find (d :: rest) with
            | none =>
              rw [replaceAll_of_none hnext]
              exact (hbehind ['\\', d] rfl (List.cons_ne_nil _ _)).hidden
            | some left =>
              -- The hidden character is white space in front of a command, and becomes the blank.
              obtain ⟨taken, rfl⟩ := hp.shortens d rest left hnext
              have hleft := hp.drop_tail hd hnext
                (hbehind ('\\' :: d :: taken) rfl (List.cons_ne_nil _ _))
              rw [replaceAll_of_some hp.shortens hnext]
              rcases hp.replaces with rfl | ⟨rfl, hnone⟩
              · exact hleft.hidden
              · rw [hnone d _ hd] at hnext
                cases hnext
        · exact (hbehind [c] rfl (List.cons_ne_nil _ _)).plain hc

/-- A sizing command goes with its backslash, and nothing that goes stands behind one. -/
theorem backslashesApart_sizing {text : Text} (h : BackslashesApart text) :
    BackslashesApart (replaceAll findSizing [] text) := by
  induction text using restInduction with
  | step text ih =>
    cases text with
    | nil => rwa [replaceAll_nil]
    | cons c rest =>
      cases hfound : findSizing (c :: rest) with
      | some left =>
        obtain ⟨taken, rfl⟩ := sizing_pass.shortens c rest left hfound
        rw [replaceAll_of_some sizing_pass.shortens hfound]
        exact ih (c :: taken) left rfl (List.cons_ne_nil _ _)
          (h.of_suffix (List.suffix_append (c :: taken) left))
      | none =>
        obtain ⟨hapart, hrest⟩ := backslashesApart_cons.mp h
        rw [replaceAll_of_none hfound]
        refine backslashesApart_cons.mpr ⟨?_, ih [c] rest rfl (List.cons_ne_nil _ _) hrest⟩
        rintro ⟨rfl, hhead⟩
        cases rest with
        | nil => simp at hhead
        | cons d rest =>
          have hd : d ≠ '\\' := fun hd => hapart ⟨rfl, by rw [hd]; rfl⟩
          have hnone : findSizing (d :: rest) = none := by
            simp [findSizing, dropMacro?, dropStart?_cons, Ne.symm hd]
          rw [replaceAll_of_none hnone] at hhead
          exact hd (Option.some.inj hhead)

/-! ## The prepared text -/

section

variable {text : Text}

/-- **The groups of a prepared text are balanced** when those of the text are. -/
theorem balanced_prepare (hapart : BackslashesApart text) (h : Balanced text) :
    Balanced (prepare text) := by
  have hsized := (sizing_lightPass.lightened hapart).balanced h
  exact (spacing_lightPass.lightened (backslashesApart_sizing hapart)).balanced hsized

/-- **The groups of a prepared text are not nested deeper.** -/
theorem nestsBelow_prepare {levels : Nat} (hapart : BackslashesApart text)
    (h : nestsBelow levels text = true) : nestsBelow levels (prepare text) = true := by
  have hsized := (sizing_lightPass.lightened hapart).nestsBelow h
  exact (spacing_lightPass.lightened (backslashesApart_sizing hapart)).nestsBelow hsized

end

end MathScribe.Latex

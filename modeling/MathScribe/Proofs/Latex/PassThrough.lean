/-
What is not recognized passes through.

A formula is looked at three times: for sizing commands, for spacing commands, and for macros and groups. Only the
third time a backslash hides the character behind it. The first two passes take every backslash for the start of a
command, also the second one of a pair, so a line break in front of a comma or of the letters `left` comes out as a
backslash and a blank, or as one backslash.

`prepare_eq_self_iff` says when the first two passes change nothing, for every text. The third time nothing changes
where no macro is recognized and every brace stands in the arguments of a macro (`normalTo_eq_self`). Put together,
a text in which nothing is recognized passes through exactly when none of its pairs is halved
(`normalize_eq_self_iff`). That it does not when one is halved needs that the later steps do not make up for the
backslash that is lost, and they make none at all.
-/
import MathScribe.Proofs.Latex.Slashes

set_option autoImplicit false

namespace MathScribe.Latex

/-! ## Backslashes and what they hide -/

/-- What stands behind every backslash that is not hidden itself passes a check. A backslash hides the character
behind it. -/
def everyBackslash (ok : Text → Bool) : Text → Bool
  | [] => true
  | ['\\'] => ok []
  | '\\' :: c :: rest => ok (c :: rest) && everyBackslash ok rest
  | _ :: rest => everyBackslash ok rest

section

variable {ok : Text → Bool} {text behind : Text}

/-- Only a backslash is asked for what stands behind it. -/
theorem everyBackslash_plain {c : Char} (hc : c ≠ '\\') (rest : Text) :
    everyBackslash ok (c :: rest) = everyBackslash ok rest := by
  rw [everyBackslash.eq_def]
  split
  · next h => cases h
  · next h => exact absurd (List.cons.inj h).1 hc
  · next h => exact absurd (List.cons.inj h).1 hc
  · next h =>
    cases h
    rfl

/-- What holds behind every backslash of a text holds behind those of its end, when the front hides
nothing of it. -/
theorem everyBackslash_of_append {front rest : Text} (hfront : Complete front)
    (h : everyBackslash ok (front ++ rest) = true) : everyBackslash ok rest = true := by
  induction hfront with
  | nil => exact h
  | hidden _ ih => exact ih (Bool.and_eq_true_iff.mp h).2
  | plain hc _ ih =>
    rw [List.cons_append, everyBackslash_plain hc] at h
    exact ih h

/-- A backslash of a text is not hidden, or it is hidden by one that is not. -/
theorem backslash_cases (h : '\\' :: behind <:+ text) :
    (∀ ok, everyBackslash ok text = true → ok behind = true)
      ∨ ∀ ok, everyBackslash ok text = true → ok ('\\' :: behind) = true := by
  induction text using escapeInduction with
  | nil => exact absurd (List.suffix_nil.mp h) (List.cons_ne_nil _ _)
  | lone =>
    obtain rfl : behind = [] := List.length_eq_zero_iff.mp (by simpa using h.length_le)
    exact .inl fun _ hok => hok
  | hidden c rest ih =>
    have hboth : ∀ {ok}, everyBackslash ok ('\\' :: c :: rest) = true →
        ok (c :: rest) = true ∧ everyBackslash ok rest = true := Bool.and_eq_true_iff.mp
    rcases List.suffix_cons_iff.mp h with heq | h
    · rw [(List.cons.inj heq).2]
      exact .inl fun _ hok => (hboth hok).1
    · rcases List.suffix_cons_iff.mp h with heq | h
      · rw [heq]
        exact .inr fun _ hok => (hboth hok).1
      · exact (ih h).imp (fun hrest ok hok => hrest ok (hboth hok).2)
          fun hrest ok hok => hrest ok (hboth hok).2
  | plain c rest hc ih =>
    rcases List.suffix_cons_iff.mp h with heq | h
    · exact absurd (List.cons.inj heq).1.symm hc
    · simp only [everyBackslash_plain hc]
      exact ih h

/-- A check that passes behind every backslash of the text, hidden or not, passes behind the ones that
count. -/
theorem everyBackslash_of_forall (h : ∀ behind, '\\' :: behind <:+ text → ok behind = true) :
    everyBackslash ok text = true := by
  induction text using escapeInduction with
  | nil => rfl
  | lone => exact h [] (List.suffix_refl _)
  | hidden c rest ih =>
    refine Bool.and_eq_true_iff.mpr ⟨h (c :: rest) (List.suffix_refl _), ih fun behind hbehind => ?_⟩
    exact h behind (hbehind.trans ((List.suffix_cons c rest).trans (List.suffix_cons '\\' _)))
  | plain c rest hc ih =>
    rw [everyBackslash_plain hc]
    exact ih fun behind hbehind => h behind (hbehind.trans (List.suffix_cons c rest))

end

/-! ## The first two passes -/

/-- The marks that make a spacing command with a backslash. -/
def isSpacingMark (c : Char) : Bool :=
  c == ',' || c == ';' || c == ':' || c == '!'

/-- The macros that set a size or make room. -/
def lightMacros : List Text :=
  ["left", "right", "quad", "qquad"].map String.toList

/-- What stands behind a backslash makes a sizing or a spacing command of it. -/
def startsLight (behind : Text) : Bool :=
  behind.head?.any isSpacingMark || decide (behind.takeWhile Char.isAlpha ∈ lightMacros)

/-- What is left behind a macro of a given name, told without the reader. -/
theorem dropMacro?_eq_some_iff {name text left : Text} :
    dropMacro? name text = some left ↔ text = '\\' :: (name ++ left) ∧ startsWithLetter left = false := by
  unfold dropMacro?
  cases hstart : dropStart? ('\\' :: name) text with
  | none =>
    refine iff_of_false nofun ?_
    rintro ⟨rfl, -⟩
    rw [dropStart?_eq_some_iff.mpr (List.cons_append ..).symm] at hstart
    cases hstart
  | some found =>
    obtain rfl := dropStart?_eq_some_iff.mp hstart
    cases hletter : startsWithLetter found with
    | true =>
      refine iff_of_false (by simp [hletter]) ?_
      rintro ⟨heq, hleft⟩
      rw [List.append_cancel_left heq, hleft] at hletter
      cases hletter
    | false =>
      simp only [hletter, Bool.false_eq_true, if_false, Option.some.injEq, List.cons_append,
        List.cons.injEq, true_and, List.append_cancel_left_eq]
      exact ⟨fun h => ⟨h, h ▸ hletter⟩, And.left⟩

/-- A macro of the given name stands where the run of letters is that name. -/
theorem dropMacro?_isSome_iff {name behind : Text} (hname : name.all Char.isAlpha = true) :
    (dropMacro? name ('\\' :: behind)).isSome = true ↔ behind.takeWhile Char.isAlpha = name := by
  rw [Option.isSome_iff_exists]
  constructor
  · rintro ⟨left, h⟩
    obtain ⟨htext, hleft⟩ := dropMacro?_eq_some_iff.mp h
    rw [(List.cons.inj htext).2, List.takeWhile_append_of_pos (List.all_eq_true.mp hname),
      (takeWhile_of_not_letter hleft).1, List.append_nil]
  · rintro rfl
    exact ⟨_, dropMacro?_eq_some_iff.mpr
      ⟨by rw [List.takeWhile_append_dropWhile], startsWithLetter_dropWhile behind⟩⟩

/-- What starts like a light command behind a backslash is what the sizing and spacing passes find. -/
theorem startsLight_iff {behind : Text} :
    startsLight behind = true
      ↔ (findSizing ('\\' :: behind)).isSome = true ∨ (dropSpacing? ('\\' :: behind)).isSome = true := by
  have hsizing : (findSizing ('\\' :: behind)).isSome = true
      ↔ behind.takeWhile Char.isAlpha = "left".toList ∨ behind.takeWhile Char.isAlpha = "right".toList := by
    unfold findSizing
    rw [Option.isSome_or, Bool.or_eq_true, dropMacro?_isSome_iff rfl, dropMacro?_isSome_iff rfl]
  have hquad : ((dropMacro? "quad".toList ('\\' :: behind)).or
        (dropMacro? "qquad".toList ('\\' :: behind))).isSome = true
      ↔ behind.takeWhile Char.isAlpha = "quad".toList ∨ behind.takeWhile Char.isAlpha = "qquad".toList := by
    rw [Option.isSome_or, Bool.or_eq_true, dropMacro?_isSome_iff rfl, dropMacro?_isSome_iff rfl]
  have hlight : behind.takeWhile Char.isAlpha ∈ lightMacros
      ↔ behind.takeWhile Char.isAlpha = "left".toList ∨ behind.takeWhile Char.isAlpha = "right".toList
        ∨ behind.takeWhile Char.isAlpha = "quad".toList ∨ behind.takeWhile Char.isAlpha = "qquad".toList := by
    simp only [lightMacros, List.map_cons, List.map_nil, List.mem_cons, List.not_mem_nil, or_false]
  unfold startsLight
  rw [hsizing, Bool.or_eq_true, decide_eq_true_iff, hlight]
  cases behind with
  | nil => decide
  | cons c rest =>
    have hmark : isSpacingMark c = true ↔ c = ',' ∨ c = ';' ∨ c = ':' ∨ c = '!' := by
      simp [isSpacingMark, or_assoc]
    rw [dropSpacing?_cons, List.head?_cons, Option.any_some, hmark]
    by_cases hc : c = ',' ∨ c = ';' ∨ c = ':' ∨ c = '!'
    · rw [if_pos hc]
      exact iff_of_true (.inl hc) (.inr rfl)
    · rw [if_neg hc, hquad, or_iff_right hc, or_assoc]

/-- A pass that finds nothing changes nothing. -/
theorem replaceAll_eq_self {find : Text → Option Text} {replacement text : Text}
    (h : ∀ c behind, c :: behind <:+ text → find (c :: behind) = none) :
    replaceAll find replacement text = text := by
  induction text with
  | nil => exact replaceAll_nil
  | cons c rest ih =>
    rw [replaceAll_of_none (h c rest (List.suffix_refl _)),
      ih fun d behind hbehind => h d behind (hbehind.trans (List.suffix_cons c rest))]

/-- No backslash of a text, whether it is hidden or not, makes a sizing or a spacing command. -/
def NothingLight (text : Text) : Prop :=
  ∀ behind, '\\' :: behind <:+ text → startsLight behind = false

section

variable {text : Text}

/-- In a text without light commands the sizing pass finds nothing. -/
theorem NothingLight.findSizing (h : NothingLight text) {c : Char} {behind : Text}
    (hsuffix : c :: behind <:+ text) : findSizing (c :: behind) = none := by
  by_cases hc : c = '\\'
  · subst hc
    refine Option.not_isSome_iff_eq_none.mp fun hfound => ?_
    exact absurd (startsLight_iff.mpr (.inl hfound)) (Bool.eq_false_iff.mp (h behind hsuffix))
  · simp [Latex.findSizing, dropMacro?, dropStart?_cons, Ne.symm hc]

/-- In a text without light commands the spacing pass finds nothing, whether it looks from the command
itself or from a space in front of it. -/
theorem NothingLight.findSpacing (h : NothingLight text) {c : Char} {behind : Text}
    (hsuffix : c :: behind <:+ text) : findSpacing (c :: behind) = none := by
  unfold Latex.findSpacing
  -- What stands behind the white space is an end of the text as well.
  have hpads : (c :: behind).dropWhile isPad <:+ text := (List.dropWhile_suffix isPad).trans hsuffix
  cases hrest : (c :: behind).dropWhile isPad with
  | nil => rfl
  | cons d more =>
    rw [hrest] at hpads
    by_cases hd : d = '\\'
    · subst hd
      have hnone : dropSpacing? ('\\' :: more) = none := by
        refine Option.not_isSome_iff_eq_none.mp fun hfound => ?_
        exact absurd (startsLight_iff.mpr (.inr hfound)) (Bool.eq_false_iff.mp (h more hpads))
      rw [hnone]
      rfl
    · rw [dropSpacing?_of_ne hd]
      rfl

/-- The preparation leaves a text without light commands as it is. -/
theorem NothingLight.prepare (h : NothingLight text) : prepare text = text := by
  have hsized : replaceAll Latex.findSizing [] text = text := replaceAll_eq_self fun _ _ => h.findSizing
  unfold Latex.prepare
  rw [hsized]
  exact replaceAll_eq_self fun _ _ => h.findSpacing

/-- **A sizing or spacing command costs a backslash**, also where the backslash is hidden. -/
theorem slashes_prepare_lt {behind : Text} (hsuffix : '\\' :: behind <:+ text) (h : startsLight behind = true) :
    slashes (prepare text) < slashes text := by
  have hspaced : slashes (prepare text) ≤ slashes (replaceAll findSizing [] text) :=
    slashes_replaceAll_le spacing_pass.shortens (by decide)
  by_cases hsizing : ∃ c behind, c :: behind <:+ text ∧ (findSizing (c :: behind)).isSome = true
  · obtain ⟨c, found, hfound, hsome⟩ := hsizing
    exact hspaced.trans_lt (sizing_lightPass.slashes_lt hfound hsome)
  · -- Nothing sets a size, so the second pass sees the text as it is.
    have hnone : ∀ c behind, c :: behind <:+ text → findSizing (c :: behind) = none := fun c behind hbehind =>
      Option.not_isSome_iff_eq_none.mp fun hsome => hsizing ⟨c, behind, hbehind, hsome⟩
    have hspacing : (findSpacing ('\\' :: behind)).isSome = true := by
      rcases startsLight_iff.mp h with hsome | hsome
      · exact absurd ⟨_, behind, hsuffix, hsome⟩ hsizing
      · unfold findSpacing
        rwa [List.dropWhile_cons_of_neg (by decide), Option.isSome_map]
    unfold prepare
    rw [replaceAll_eq_self hnone]
    exact spacing_lightPass.slashes_lt hsuffix hspacing

/-- **The first two passes change nothing** exactly when no backslash makes a command for them. -/
theorem prepare_eq_self_iff : prepare text = text ↔ NothingLight text := by
  refine ⟨fun h behind hsuffix => Bool.eq_false_iff.mpr fun hlight => ?_, NothingLight.prepare⟩
  exact absurd (congrArg slashes h) (slashes_prepare_lt hsuffix hlight).ne

end

/-! ## Macros and groups -/

/-- All macros that mean something: symbols and words, the commands with arguments, and those of the first two
passes. -/
def recognizedMacros : List Text :=
  symbolMacros.map Prod.fst ++ namedMacros ++ fractionMacros ++ bigOperatorMacros ++ styleMacros
    ++ lightMacros ++ [rootMacro, limitMacro]

/-- A macro that means nothing is not understood, whatever stands behind it. -/
theorem ofMacro?_eq_none {name : Text} (h : name ∉ recognizedMacros) (after : Text) :
    Piece.ofMacro? name after = none := by
  simp only [recognizedMacros, List.mem_append, not_or, List.mem_cons, List.not_mem_nil, or_false] at h
  obtain ⟨⟨⟨⟨⟨⟨hsymbols, hnames⟩, hfractions⟩, hoperators⟩, hstyles⟩, -⟩, hroot, hlimit⟩ := h
  have hword : wordOf? name = none := by
    have hlookup : symbolMacros.lookup name = none := by
      refine List.lookup_eq_none_iff.mpr fun entry hentry => bne_iff_ne.mpr ?_
      exact fun hname => hsymbols (List.mem_map.mpr ⟨entry, hentry, hname.symm⟩)
    unfold wordOf?
    rw [hlookup]
    exact if_neg hnames
  unfold Piece.ofMacro?
  rw [hword]
  simp only [if_neg hfractions, if_neg hroot, if_neg hoperators, if_neg hlimit, if_neg hstyles]

/-- **Braces stand in arguments only.** Read from the left, a macro takes the complete groups directly behind it, in
brackets or in braces, and outside of those no brace opens a group, unless a backslash hides it. -/
inductive BracesInArguments : Text → Prop
  | nil : BracesInArguments []
  | lone : BracesInArguments ['\\']
  | hidden {c : Char} {rest : Text} : c.isAlpha = false → BracesInArguments rest →
      BracesInArguments ('\\' :: c :: rest)
  | plain {c : Char} {rest : Text} : c ≠ '\\' → c ≠ '{' → BracesInArguments rest →
      BracesInArguments (c :: rest)
  | command {name after : Text} : MacroName name after → BracesInArguments (readArguments false after).2 →
      BracesInArguments ('\\' :: (name ++ after))

/-- No macro of the text is recognized. -/
def NamesUnknown (text : Text) : Prop :=
  everyBackslash (fun behind => decide (behind.takeWhile Char.isAlpha ∉ recognizedMacros)) text = true

instance (text : Text) : Decidable (NamesUnknown text) :=
  inferInstanceAs (Decidable (_ = true))

/-- **Where no macro is recognized and no brace stands outside of arguments** the normal form of a text is the text. -/
theorem normalTo_eq_self {text : Text} (hbraces : BracesInArguments text) (hnames : NamesUnknown text)
    (levels : Nat) : normalTo levels text = text := by
  cases levels with
  | zero => rfl
  | succ levels =>
    induction hbraces with
    | nil => rw [normalTo_nil]
    | lone => rw [normalTo_cons]; rfl
    | @hidden c rest hc hrest ih =>
      have hread : Piece.read '\\' (c :: rest) = (.escaped c, rest) := by
        unfold Piece.read
        rw [if_neg (by decide), if_pos rfl, readMacro_of_not_letter (show startsWithLetter (c :: rest) = false from hc)]
      rw [normalTo_cons, hread, ih (Bool.and_eq_true_iff.mp hnames).2]
      rfl
    | @plain c rest hslash hopen hrest ih =>
      unfold NamesUnknown at hnames
      rw [everyBackslash_plain hslash] at hnames
      rw [normalTo_cons, Piece.read_plain hslash hopen, ih hnames]
      rfl
    | @command name after hname hrest ih =>
      have hunknown : name ∉ recognizedMacros := by
        obtain ⟨c, more, rfl⟩ := List.exists_cons_of_ne_nil hname.ne_nil
        have hcheck : ((c :: more) ++ after).takeWhile Char.isAlpha ∉ recognizedMacros :=
          of_decide_eq_true (Bool.and_eq_true_iff.mp hnames).1
        rwa [List.takeWhile_append_of_pos hname.letters,
          (takeWhile_of_not_letter hname.ends).1, List.append_nil] at hcheck
      have hread : Piece.read '\\' (name ++ after)
          = (.verbatim ('\\' :: name ++ (readArguments false after).1.flatMap Argument.source),
            (readArguments false after).2) := by
        unfold Piece.read
        rw [if_neg (by decide), if_pos rfl, readMacro_eq_some_iff.mpr ⟨rfl, hname⟩]
        simp only [ofMacro?_eq_none hunknown]
      have hsource : (readArguments false after).1.flatMap Argument.source ++ (readArguments false after).2
          = after := readArgumentsUpTo_source false after.length after
      -- Neither the macro nor its arguments hide anything behind them.
      have hleft : NamesUnknown (readArguments false after).2 := by
        obtain ⟨front, hfront, hcomplete⟩ := complete_readArgumentsUpTo after.length after
        refine everyBackslash_of_append (hname.complete.append hcomplete) ?_
        rw [List.append_assoc, List.cons_append]
        exact hfront ▸ hnames
      rw [normalTo_cons, hread, ih hleft]
      show '\\' :: name ++ _ ++ _ = _
      rw [List.append_assoc, hsource]
      rfl

/-! ## The three passes together -/

/-- **A text in which nothing is recognized**: no macro is, no hidden character is a spacing mark, and no brace opens
a group outside of the arguments of a macro. -/
structure Foreign (text : Text) : Prop where
  names : NamesUnknown text
  marks : everyBackslash (fun behind => !behind.head?.any isSpacingMark) text = true
  braces : BracesInArguments text

/-- No pair of backslashes stands in front of what makes a sizing or a spacing command with the second one. -/
def PairsWhole (text : Text) : Prop :=
  everyBackslash (fun behind =>
    match behind with
    | '\\' :: rest => !startsLight rest
    | _ => true) text = true

instance (text : Text) : Decidable (PairsWhole text) :=
  inferInstanceAs (Decidable (_ = true))

/-- Where nothing is recognized only the second backslash of a pair makes a command for the first two passes. -/
theorem Foreign.nothingLight_iff {text : Text} (h : Foreign text) : NothingLight text ↔ PairsWhole text := by
  constructor
  · intro hnothing
    refine everyBackslash_of_forall fun behind hbehind => ?_
    split
    · next rest => rw [hnothing rest ((List.suffix_cons '\\' _).trans hbehind)]; rfl
    · rfl
  · intro hpairs behind hbehind
    rcases backslash_cases hbehind with hshown | hhidden
    · have hmark : behind.head?.any isSpacingMark = false := (Bool.not_eq_true' _).mp (hshown _ h.marks)
      have hname : behind.takeWhile Char.isAlpha ∉ lightMacros := fun hlight =>
        of_decide_eq_true (hshown _ h.names) (by simp [recognizedMacros, hlight])
      rw [startsLight, hmark, Bool.false_or]
      exact decide_eq_false hname
    · exact (Bool.not_eq_true' _).mp (hhidden _ hpairs)

/-- **What is not recognized passes through**, unless a pair of backslashes is halved: a text in which no macro
is recognized, no hidden character is a spacing mark and no brace stands outside of the arguments of a macro is
left as it is by `normalize` exactly when no pair of backslashes stands in front of a spacing mark or of the
letters of a sizing or spacing macro. -/
theorem normalize_eq_self_iff {text : Text} (h : Foreign text) : normalize text = text ↔ PairsWhole text := by
  rw [← h.nothingLight_iff, normalize_eq]
  constructor
  · intro hsame behind hbehind
    refine Bool.eq_false_iff.mpr fun hlight => ?_
    have hlost : slashes (normalTo maxLevels (prepare text)) < slashes text :=
      (slashes_normalTo_le _ _).trans_lt (slashes_prepare_lt hbehind hlight)
    exact absurd (congrArg slashes hsame) hlost.ne
  · intro hnothing
    rw [hnothing.prepare]
    exact normalTo_eq_self h.braces h.names maxLevels

/-- The text `\\1 \foo{x}`: a pair of backslashes, and an unknown macro with its argument. -/
theorem normalize_eq_self_of_pair :
    Foreign ['\\', '\\', '1', ' ', '\\', 'f', 'o', 'o', '{', 'x', '}']
      ∧ normalize ['\\', '\\', '1', ' ', '\\', 'f', 'o', 'o', '{', 'x', '}']
        = ['\\', '\\', '1', ' ', '\\', 'f', 'o', 'o', '{', 'x', '}'] := by
  have hname : MacroName ['f', 'o', 'o'] ['{', 'x', '}'] := ⟨by decide, List.all_eq_true.mp rfl, rfl⟩
  have hforeign : Foreign ['\\', '\\', '1', ' ', '\\', 'f', 'o', 'o', '{', 'x', '}'] :=
    { names := by decide
      marks := by decide
      braces := .hidden rfl (.plain (by decide) (by decide) (.plain (by decide) (by decide) (.command hname .nil))) }
  exact ⟨hforeign, (normalize_eq_self_iff hforeign).mpr (by decide)⟩

/-- Nothing is recognized in the text `a\\,b`, and still a backslash and the comma become a blank. -/
theorem normalize_halves_pair :
    Foreign ['a', '\\', '\\', ',', 'b']
      ∧ normalize ['a', '\\', '\\', ',', 'b'] = ['a', '\\', ' ', 'b'] := by
  refine ⟨⟨by decide, by decide, ?_⟩, by decide⟩
  exact .plain (by decide) (by decide) (.hidden rfl (.plain (by decide) (by decide)
    (.plain (by decide) (by decide) .nil)))

end MathScribe.Latex

/-
The fragments of a page.

`Fragment.ofPage` cuts a page in three passes: it takes stretches off the front of the page, joins
neighbouring literal characters, and gives every stretch its place. This file says what comes out.
`Cuts` is the result of the first two passes, with what each stretch is (`Stands`): a math stretch is all
that the fragment at its front covers, and at no character of a literal stretch does a fragment start. The
second half is why no letter, no spacing command and no region that is closed is ever taken for prose.

`partition_ofPage` puts this together with the places: the fragments are a partition of the page, and each
one is what it is taken for.
-/
import MathScribe.Fragment
import MathScribe.Proofs.Latex.Reader
import MathScribe.Proofs.Latex.Replace

set_option autoImplicit false

namespace MathScribe

/-! ## The first occurrence of a mark -/

/-- A text does not start with a mark. -/
theorem dropStart?_eq_none_iff {start text : Text} : dropStart? start text = none ↔ ¬ start <+: text := by
  rw [Option.eq_none_iff_forall_ne_some]
  constructor
  · rintro h ⟨left, rfl⟩
    exact h left (dropStart?_eq_some_iff.mpr rfl)
  · intro h left hleft
    exact h ⟨left, (dropStart?_eq_some_iff.mp hleft).symm⟩

/-- A mark at the front splits the text there. -/
theorem splitAt?_of_append (mark : Text) {c : Char} {rest left : Text} (h : c :: rest = mark ++ left) :
    splitAt? mark (c :: rest) = some ([], left) := by
  rw [splitAt?, dropStart?_eq_some_iff.mpr h]

/-- Where the mark does not stand, the text is split further on. -/
theorem splitAt?_skip {mark : Text} {c : Char} {rest : Text} (h : ¬ mark <+: c :: rest) :
    splitAt? mark (c :: rest)
      = (splitAt? mark rest).map fun (before, left) => (c :: before, left) := by
  rw [splitAt?, dropStart?_eq_none_iff.mpr h]

/-- There is nothing to split at exactly when the mark does not occur. -/
theorem splitAt?_eq_none_iff {mark text : Text} : splitAt? mark text = none ↔ ¬ mark <:+: text := by
  induction text with
  | nil => cases mark <;> simp [splitAt?]
  | cons c rest ih =>
    rw [List.infix_cons_iff, not_or]
    by_cases h : mark <+: c :: rest
    · obtain ⟨left, hleft⟩ := h
      rw [splitAt?_of_append mark hleft.symm]
      exact iff_of_false (Option.some_ne_none _) fun hnot => hnot.1 ⟨left, hleft⟩
    · rw [splitAt?_skip h, Option.map_eq_none_iff, ih]
      exact ⟨fun hrest => ⟨h, hrest⟩, And.right⟩

/-- A text is split at the first occurrence: what stands in front of it is free of the mark. -/
theorem of_splitAt? {mark text before left : Text} (hmark : mark ≠ [])
    (h : splitAt? mark text = some (before, left)) :
    text = before ++ (mark ++ left) ∧ ¬ mark <:+: before := by
  induction text generalizing before with
  | nil => cases mark <;> simp_all [splitAt?]
  | cons c rest ih =>
    by_cases hprefix : mark <+: c :: rest
    · obtain ⟨behind, hbehind⟩ := hprefix
      rw [splitAt?_of_append mark hbehind.symm] at h
      cases h
      exact ⟨hbehind.symm, fun hinfix => hmark (List.infix_nil.mp hinfix)⟩
    · rw [splitAt?_skip hprefix] at h
      obtain ⟨⟨front, behind⟩, hsplit, hsame⟩ := Option.map_eq_some_iff.mp h
      cases hsame
      obtain ⟨rfl, hfree⟩ := ih hsplit
      refine ⟨rfl, fun hinfix => ?_⟩
      rcases List.infix_cons_iff.mp hinfix with hfront | hfront
      · exact hprefix (hfront.trans (List.prefix_append (c :: front) _))
      · exact hfree hfront

namespace Fragment

/-! ## Stretches -/

/-- What closes a region is a bracket or a parenthesis, and no backslash. -/
theorem regionCloser?_ne {mark closer : Char} (h : regionCloser? mark = some closer) : closer ≠ '\\' := by
  unfold regionCloser? at h
  split at h <;> cases h <;> decide

/-- A region reaches to its closer. -/
theorem mathReach?_region {mark closer : Char} (h : regionCloser? mark = some closer) (inside : Text) :
    mathReach? '\\' (mark :: inside)
      = (splitAt? ['\\', closer] inside).map fun (formula, _) => formula.length + 3 := by
  unfold mathReach?
  simp only [if_true, h]

section Commands

variable {mark : Char} {inside : Text} (h : regionCloser? mark = none)
include h

/-- A macro reaches to the end of its arguments. -/
theorem mathReach?_named {name after : Text}
    (hnamed : Latex.readMacro ('\\' :: mark :: inside) = some (name, after)) :
    mathReach? '\\' (mark :: inside)
      = some (name.length + (Latex.argumentsSource true after).length) := by
  unfold mathReach?
  simp only [if_true, h, hnamed]

/-- Where no macro starts, a backslash can only start a spacing command. -/
theorem mathReach?_spacing (hnamed : Latex.readMacro ('\\' :: mark :: inside) = none) :
    mathReach? '\\' (mark :: inside)
      = if mark = ',' ∨ mark = ';' ∨ mark = ':' ∨ mark = '!' then some 1 else none := by
  unfold mathReach?
  simp only [if_true, h, hnamed]

end Commands

/-- Without a backslash in front, mathematics is the longest run of letters and digits. -/
theorem mathReach?_of_ne {c : Char} (hc : c ≠ '\\') (rest : Text) :
    mathReach? c rest
      = if c.isAlphanum then some (rest.takeWhile Char.isAlphanum).length else none := by
  unfold mathReach?
  rw [if_neg hc]

/-- A fragment does not reach beyond the page. -/
theorem mathReach?_le {c : Char} {rest : Text} {reach : Nat} (h : mathReach? c rest = some reach) :
    reach ≤ rest.length := by
  -- The three beginnings of mathematics behind a backslash, and a run of letters and digits.
  by_cases hc : c = '\\'
  · subst hc
    cases rest with
    | nil => cases h
    | cons mark inside =>
      cases hcloser : regionCloser? mark with
      | some closer =>
        rw [mathReach?_region hcloser] at h
        obtain ⟨⟨formula, left⟩, hsplit, rfl⟩ := Option.map_eq_some_iff.mp h
        rw [(of_splitAt? (by simp) hsplit).1]
        simp only [List.length_cons, List.length_append]
        omega
      | none =>
        cases hnamed : Latex.readMacro ('\\' :: mark :: inside) with
        | some found =>
          obtain ⟨name, after⟩ := found
          rw [mathReach?_named hcloser hnamed] at h
          cases h
          have hsource : (Latex.argumentsSource true after).length ≤ after.length :=
            (Latex.argumentsSource_prefix true after).length_le
          have htext := congrArg List.length (Latex.readMacro_eq_some_iff.mp hnamed).1
          simp only [List.length_cons, List.length_append] at htext
          rw [List.length_cons]
          omega
        | none =>
          rw [mathReach?_spacing hcloser hnamed] at h
          split at h
          · cases h
            exact Nat.le_add_left 1 _
          · cases h
  · rw [mathReach?_of_ne hc] at h
    split at h
    · cases h
      exact (List.takeWhile_prefix _).length_le
    · cases h

/-- Where mathematics starts, the stretch is as long as it reaches. -/
theorem stretches_math {c : Char} {rest : Text} {reach : Nat} (h : mathReach? c rest = some reach) :
    stretches (c :: rest) = (.math, c :: rest.take reach) :: stretches (rest.drop reach) := by
  unfold stretches
  rw [chop_cons, h]

/-- Where none starts, one character is literal. -/
theorem stretches_literal {c : Char} {rest : Text} (h : mathReach? c rest = none) :
    stretches (c :: rest) = (.literal, [c]) :: stretches rest := by
  unfold stretches
  rw [chop_cons, h]
  rfl

/-- What a stretch is in front of the text behind it. A math stretch is all that the fragment at its front
covers, and at no character of a literal stretch does a fragment start. -/
inductive Stands (behind : Text) : FragmentKind → Text → Prop
  | math {c : Char} {inside : Text} :
      mathReach? c (inside ++ behind) = some inside.length → Stands behind .math (c :: inside)
  | literal {text : Text} : text ≠ [] →
      (∀ front c more, text = front ++ c :: more → mathReach? c (more ++ behind) = none) →
      Stands behind .literal text

/-- No stretch of a page is empty. -/
theorem Stands.ne_nil {kind : FragmentKind} {text behind : Text} (h : Stands behind kind text) :
    text ≠ [] := by
  cases h with
  | math => exact List.cons_ne_nil _ _
  | literal hne => exact hne

/-- At no character of a literal stretch does a fragment start. -/
theorem Stands.mathReach?_eq_none {behind front more : Text} {c : Char}
    (h : Stands behind .literal (front ++ c :: more)) : mathReach? c (more ++ behind) = none := by
  cases h with
  | literal _ hnone => exact hnone front c more rfl

/-- **A page cut into stretches**, of which no two neighbours are literal. -/
inductive Cuts : Text → List (FragmentKind × Text) → Prop
  | nil : Cuts [] []
  | cons {kind : FragmentKind} {text behind : Text} {others : List (FragmentKind × Text)} :
      Stands behind kind text → (∀ next ∈ others.head?, ¬ (kind = .literal ∧ next.1 = .literal)) →
      Cuts behind others → Cuts (text ++ behind) ((kind, text) :: others)

/-- A math stretch in front of a page that is cut. -/
theorem Cuts.math {c : Char} {rest : Text} {reach : Nat} {others : List (FragmentKind × Text)}
    (hreach : mathReach? c rest = some reach) (h : Cuts (rest.drop reach) others) :
    Cuts (c :: rest) ((.math, c :: rest.take reach) :: others) := by
  have hlength : (rest.take reach).length = reach := List.length_take_of_le (mathReach?_le hreach)
  have hstands : Stands (rest.drop reach) .math (c :: rest.take reach) :=
    .math (by rw [List.take_append_drop, hlength, hreach])
  have hcuts := Cuts.cons hstands (fun _ _ hboth => FragmentKind.noConfusion hboth.1) h
  rwa [List.cons_append, List.take_append_drop] at hcuts

/-- A literal character in front of a page that is cut joins a literal stretch there. -/
theorem Cuts.literal {c : Char} {rest : Text} {others : List (FragmentKind × Text)}
    (hreach : mathReach? c rest = none) (h : Cuts rest others) :
    Cuts (c :: rest) (join (.literal, [c]) others) := by
  have alone : Stands rest .literal [c] := by
    refine .literal (List.cons_ne_nil c []) fun front d more hsplit => ?_
    obtain ⟨rfl, hsplit⟩ | ⟨front, rfl, hsplit⟩ := List.cons_eq_append_iff.mp hsplit
    · cases hsplit
      exact hreach
    · simp at hsplit
  cases h with
  | nil => exact .cons alone (by simp) .nil
  | @cons kind text behind others hstands hapart hothers =>
    cases kind with
    | math =>
      exact .cons alone (by simp) (.cons hstands hapart hothers)
    | literal =>
      have hjoined : Stands behind .literal (c :: text) := by
        refine .literal (List.cons_ne_nil c text) fun front d more hsplit => ?_
        obtain ⟨rfl, hsplit⟩ | ⟨front, rfl, rfl⟩ := List.cons_eq_append_iff.mp hsplit
        · cases hsplit
          exact hreach
        · exact hstands.mathReach?_eq_none
      exact .cons hjoined hapart hothers

/-- The stretches of a page, with literal neighbours joined, cut it. The induction is on the length of the
page, as a math stretch takes more than one character off its front. -/
theorem cuts_stretches (page : Text) : Cuts page ((stretches page).foldr join []) := by
  induction hlength : page.length using Nat.strongRecOn generalizing page with
  | _ n ih =>
    subst hlength
    cases page with
    | nil => exact .nil
    | cons c rest =>
      cases hreach : mathReach? c rest with
      | some reach =>
        rw [stretches_math hreach]
        refine .math hreach (ih _ ?_ (rest.drop reach) rfl)
        simp only [List.length_drop, List.length_cons]
        omega
      | none =>
        rw [stretches_literal hreach]
        exact .literal hreach (ih _ (Nat.lt_succ_self _) rest rfl)

/-! ## Places -/

/-- The first stretch stands at the start, and the others behind it. -/
@[simp] theorem place_cons (start : Nat) (kind : FragmentKind) (text : Text)
    (others : List (FragmentKind × Text)) :
    place start ((kind, text) :: others) = ⟨text, start, kind⟩ :: place (start + text.length) others :=
  rfl

/-- The first fragment is made of the first stretch. -/
theorem head?_place (start : Nat) (cut : List (FragmentKind × Text)) :
    (place start cut).head? = cut.head?.map fun (kind, text) => ⟨text, start, kind⟩ := by
  cases cut <;> rfl

namespace Cuts

variable {page : Text} {cut : List (FragmentKind × Text)} (h : Cuts page cut)
include h

/-- Only the empty page has no stretches. -/
theorem eq_nil_iff : cut = [] ↔ page = [] := by
  cases h with
  | nil => simp
  | cons hstands => simp [hstands.ne_nil]

/-- Every fragment has its text in the page, and stands in front of what is behind it there. -/
theorem of_mem_place {start : Nat} {f : Fragment} (hf : f ∈ place start cut) :
    ∃ before behind, page = before ++ (f.text ++ behind) ∧ f.start = start + before.length
      ∧ Stands behind f.kind f.text := by
  induction h generalizing start with
  | nil => cases hf
  | @cons kind text behind others hstands _ _ ih =>
    rcases List.mem_cons.mp hf with rfl | hf
    · exact ⟨[], behind, rfl, rfl, hstands⟩
    · obtain ⟨before, left, rfl, hstart, hf⟩ := ih hf
      refine ⟨text ++ before, left, by simp, ?_, hf⟩
      rw [hstart, List.length_append, Nat.add_assoc]

/-- Each fragment starts where the one in front of it stops, and no two neighbours are literal. -/
theorem isChain_place (start : Nat) :
    (place start cut).IsChain fun f g => f.stop = g.start ∧ ¬ (f.kind = .literal ∧ g.kind = .literal) := by
  induction h generalizing start with
  | nil => exact .nil
  | @cons kind text behind others _ hapart _ ih =>
    rw [place_cons]
    cases others with
    | nil => exact .singleton _
    | cons next others => exact List.isChain_cons_cons.mpr ⟨⟨rfl, hapart next rfl⟩, ih _⟩

/-- The last fragment stops at the end of the page. -/
theorem stop_of_mem_getLast? {start : Nat} {f : Fragment} (hf : f ∈ (place start cut).getLast?) :
    f.stop = start + page.length := by
  induction h generalizing start with
  | nil => cases hf
  | @cons kind text behind others _ _ hothers ih =>
    rw [List.length_append]
    cases others with
    | nil =>
      obtain rfl := hothers.eq_nil_iff.mp rfl
      obtain rfl : (⟨text, start, kind⟩ : Fragment) = f := Option.some.inj hf
      rfl
    | cons next others =>
      rw [place_cons, place_cons, List.getLast?_cons_cons, ← place_cons] at hf
      rw [ih hf, Nat.add_assoc]

end Cuts

/-! ## What is never taken for prose -/

namespace Stands

variable {behind text : Text}

/-- A literal stretch has no letters and no digits. -/
theorem not_isAlphanum (h : Stands behind .literal text) {c : Char} (hc : c ∈ text) :
    c.isAlphanum = false := by
  obtain ⟨front, more, rfl⟩ := List.append_of_mem hc
  have hreach := h.mathReach?_eq_none
  by_contra hword
  have hslash : c ≠ '\\' := by
    rintro rfl
    exact hword (by decide)
  rw [mathReach?_of_ne hslash, if_pos (by simpa using hword)] at hreach
  cases hreach

/-- A literal stretch has no spacing command. -/
theorem not_spacing (h : Stands behind .literal text) {mark : Char}
    (hmark : mark = ',' ∨ mark = ';' ∨ mark = ':' ∨ mark = '!') : ¬ ['\\', mark] <:+: text := by
  rintro ⟨front, more, rfl⟩
  rw [List.append_assoc] at h
  have hcloser : regionCloser? mark = none := by
    rcases hmark with rfl | rfl | rfl | rfl <;> rfl
  have hreach : mathReach? '\\' (mark :: (more ++ behind)) = none := h.mathReach?_eq_none
  cases hnamed : Latex.readMacro ('\\' :: mark :: (more ++ behind)) with
  | some found =>
    rw [mathReach?_named hcloser hnamed] at hreach
    cases hreach
  | none =>
    rw [mathReach?_spacing hcloser hnamed, if_pos hmark] at hreach
    cases hreach

/-- A region that opens in a literal stretch is closed nowhere. -/
theorem unclosed (h : Stands behind .literal text) {before after : Text} {mark closer : Char}
    (htext : text = before ++ '\\' :: mark :: after) (hcloser : regionCloser? mark = some closer) :
    ¬ ['\\', closer] <:+: after ++ behind := by
  subst htext
  have hreach : mathReach? '\\' (mark :: (after ++ behind)) = none := h.mathReach?_eq_none
  rw [mathReach?_region hcloser, Option.map_eq_none_iff] at hreach
  exact splitAt?_eq_none_iff.mp hreach

/-- A math stretch that opens a region ends with the first closer behind it. -/
theorem region {mark closer : Char} {inside : Text} (h : Stands behind .math ('\\' :: mark :: inside))
    (hcloser : regionCloser? mark = some closer) :
    ∃ formula, inside = formula ++ ['\\', closer] ∧ ¬ ['\\', closer] <:+: formula := by
  obtain hreach | - := h
  rw [List.cons_append, mathReach?_region hcloser] at hreach
  obtain ⟨⟨formula, left⟩, hformula, hlength⟩ := Option.map_eq_some_iff.mp hreach
  obtain ⟨htext, hfree⟩ := of_splitAt? (List.cons_ne_nil _ _) hformula
  -- The stretch and the formula with its closer are as long, at the front of one text.
  rw [← List.append_assoc] at htext
  have hsame := List.append_inj_left htext (by simp at hlength ⊢; omega)
  exact ⟨formula, hsame, hfree⟩

end Stands

/-- The body of a delimited region is what stands between its delimiters. -/
theorem body_region {f : Fragment} {mark closer : Char} {formula : Text} (hkind : f.kind = .math)
    (hcloser : regionCloser? mark = some closer) (htext : f.text = '\\' :: mark :: (formula ++ ['\\', closer])) :
    f.body = formula := by
  have hopens : opensRegion f.text = true := by rw [htext]; simp [opensRegion, hcloser]
  have hmath : f.isMath = true := by simp [isMath, hkind]
  rw [body, hopens, hmath, htext]
  simp

/-! ## The partition -/

/-- **A partition of a page**: the fragments follow each other from its start to its end and have their
texts in it, no two neighbours are literal, and each one is what it is taken for. -/
structure Partition (page : Text) (fragments : List Fragment) : Prop where
  /-- Only the empty page has no fragments. -/
  eq_nil_iff : fragments = [] ↔ page = []
  first : ∀ f ∈ fragments.head?, f.start = 0
  adjoining : fragments.IsChain fun f g => f.stop = g.start
  last : ∀ f ∈ fragments.getLast?, f.stop = page.length
  nonempty : ∀ f ∈ fragments, f.text ≠ []
  text : ∀ f ∈ fragments, f.text = page.extract f.start f.stop
  alternating : fragments.IsChain fun f g => ¬ (f.kind = .literal ∧ g.kind = .literal)
  /-- Letters and digits are never literal. -/
  letters : ∀ f ∈ fragments, f.kind = .literal → ∀ c ∈ f.text, c.isAlphanum = false
  /-- Spacing commands are never literal. -/
  spacing : ∀ f ∈ fragments, f.kind = .literal → ∀ mark ∈ [',', ';', ':', '!'],
    ¬ ['\\', mark] <:+: f.text
  /-- What opens a region is literal only when the region is closed nowhere behind it. -/
  unclosed : ∀ f ∈ fragments, f.kind = .literal → ∀ before mark closer after,
    f.text = before ++ '\\' :: mark :: after → regionCloser? mark = some closer →
    ¬ ['\\', closer] <:+: page.drop (f.start + before.length + 2)
  /-- A region ends with its first closer, and its body is what lies between. -/
  region : ∀ f ∈ fragments, f.kind = .math → ∀ mark closer inside,
    f.text = '\\' :: mark :: inside → regionCloser? mark = some closer →
    f.text = '\\' :: mark :: (f.body ++ ['\\', closer]) ∧ ¬ ['\\', closer] <:+: f.body

/-- **Fragments partition their page**, and are classified rightly: what `extract_fragments` gives covers the
page without gaps, mathematics and literal text by the rules, and no two literal fragments touch. -/
theorem partition_ofPage (page : Text) : Partition page (ofPage page) := by
  have hcuts : Cuts page ((stretches page).foldr join []) := cuts_stretches page
  -- A fragment stands where a stretch was cut off, so each clause about one fragment is a fact about `Stands`.
  have hmem : ∀ f ∈ ofPage page, ∃ before behind, page = before ++ (f.text ++ behind)
      ∧ f.start = before.length ∧ Stands behind f.kind f.text := by
    intro f hf
    obtain ⟨before, behind, hpage, hstart, hstands⟩ := hcuts.of_mem_place hf
    exact ⟨before, behind, hpage, by rw [hstart, Nat.zero_add], hstands⟩
  -- The clauses in the order of `Partition`: those about neighbours come from the chain, the others from
  -- `hmem`.
  refine ⟨?_, ?_, ?_, ?_, ?_, ?_, ?_, ?_, ?_, ?_, ?_⟩
  · rw [← hcuts.eq_nil_iff, ofPage]
    cases (stretches page).foldr join [] <;> simp [place]
  · intro f hf
    rw [ofPage, head?_place] at hf
    obtain ⟨stretch, -, rfl⟩ := Option.map_eq_some_iff.mp hf
    rfl
  · exact (hcuts.isChain_place 0).imp fun _ _ h => h.1
  · intro f hf
    rw [hcuts.stop_of_mem_getLast? hf, Nat.zero_add]
  · intro f hf
    obtain ⟨_, _, -, -, hstands⟩ := hmem f hf
    exact hstands.ne_nil
  · intro f hf
    obtain ⟨before, behind, hpage, hstart, -⟩ := hmem f hf
    simp [stop, hstart, hpage]
  · exact (hcuts.isChain_place 0).imp fun _ _ h => h.2
  · intro f hf hkind c hc
    obtain ⟨_, _, -, -, hstands⟩ := hmem f hf
    exact (hkind ▸ hstands).not_isAlphanum hc
  · intro f hf hkind mark hmark
    obtain ⟨_, _, -, -, hstands⟩ := hmem f hf
    exact (hkind ▸ hstands).not_spacing (by simpa using hmark)
  · intro f hf hkind before mark closer after htext hcloser
    obtain ⟨front, behind, hpage, hstart, hstands⟩ := hmem f hf
    have hdrop : page.drop (f.start + before.length + 2) = after ++ behind := by
      have hfront : page = (front ++ before ++ ['\\', mark]) ++ (after ++ behind) := by
        rw [hpage, htext]
        simp
      rw [hfront]
      exact List.drop_left' (by simp [hstart, Nat.add_assoc])
    rw [hdrop]
    exact (hkind ▸ hstands).unclosed htext hcloser
  · intro f hf hkind mark closer inside htext hcloser
    obtain ⟨_, behind, -, -, hstands⟩ := hmem f hf
    rw [hkind, htext] at hstands
    obtain ⟨formula, rfl, hfree⟩ := hstands.region hcloser
    rw [body_region hkind hcloser htext]
    exact ⟨htext, hfree⟩

end Fragment

end MathScribe

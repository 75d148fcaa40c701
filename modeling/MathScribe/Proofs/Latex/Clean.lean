/-
Source whose normal form can be read.

The linear notation has no backslash and no brace, while whatever the normal form does not understand, or
lies too deep for it, keeps one. So a normal form without them comes from source that is understood to the
bottom: its groups are balanced (`balanced_of_clean`), and more levels would change nothing
(`normalTo_eq_of_clean`).
-/
import MathScribe.Proofs.Latex.Reader
import MathScribe.Proofs.Latex.Replace

set_option autoImplicit false

namespace MathScribe.Latex

/-- No backslash and no brace. -/
def Clean (text : Text) : Prop :=
  ∀ c ∈ text, c ≠ '\\' ∧ c ≠ '{' ∧ c ≠ '}'

/-- A text is clean exactly when both of its parts are. -/
theorem clean_append {first second : Text} :
    Clean (first ++ second) ↔ Clean first ∧ Clean second :=
  List.forall_mem_append

/-- A text is clean when its first character is neither a backslash nor a brace and the rest is clean. -/
theorem clean_cons {c : Char} {text : Text} :
    Clean (c :: text) ↔ (c ≠ '\\' ∧ c ≠ '{' ∧ c ≠ '}') ∧ Clean text :=
  List.forall_mem_cons

/-- Parentheses are neither backslashes nor braces. -/
theorem clean_parenthesized {text : Text} : Clean (parenthesized text) ↔ Clean text := by
  unfold parenthesized
  rw [clean_append, clean_cons]
  constructor
  · intro h
    exact h.1.2
  · intro h
    exact ⟨⟨by decide, h⟩, by simp [Clean]⟩

/-- A text without braces is balanced. -/
theorem Clean.balanced {text : Text} (h : Clean text) : Balanced text :=
  balanced_of_forall h

/-- What is dropped from the front are characters of the kind only, so any other character stays. -/
theorem mem_dropWhile_of_neg {kind : Char → Bool} {c : Char} {text : Text} (hmem : c ∈ text)
    (hc : kind c = false) : c ∈ text.dropWhile kind := by
  have hsplit : c ∈ text.takeWhile kind ++ text.dropWhile kind := by
    rwa [List.takeWhile_append_dropWhile]
  rcases List.mem_append.mp hsplit with htake | hdrop
  · have hkind := List.all_eq_true.mp List.all_takeWhile c htake
    rw [hc] at hkind
    cases hkind
  · exact hdrop

/-- Trimming drops nothing but white space. -/
theorem mem_trim {c : Char} {text : Text} (hmem : c ∈ text) (hc : isBlank c = false) :
    c ∈ trim text := by
  have hstart : c ∈ (trimStart text).reverse :=
    List.mem_reverse.mpr (mem_dropWhile_of_neg hmem hc)
  exact List.mem_reverse.mpr (mem_dropWhile_of_neg hstart hc)

/-- What hides in a trimmed text with tight arrows would show. -/
theorem Clean.of_trim_tightenArrows {text : Text} (h : Clean (trim (tightenArrows text))) :
    Clean text := by
  have hstays : ∀ c, outsideArrows c → c ∈ text → c ∈ trim (tightenArrows text) :=
    fun c hc hmem => mem_trim (mem_tightenArrows hc hmem) hc.1
  intro c hmem
  refine ⟨?_, ?_, ?_⟩
  · rintro rfl
    exact (h _ (hstays _ (by decide) hmem)).1 rfl
  · rintro rfl
    exact (h _ (hstays _ (by decide) hmem)).2.1 rfl
  · rintro rfl
    exact (h _ (hstays _ (by decide) hmem)).2.2 rfl

/-! ## The texts that a piece shows -/

namespace Piece

/-- The texts inside a piece whose normal forms its own one is made of. -/
def shown : Piece → List Text
  | group inside => [inside]
  | fraction numerator denominator => [numerator, denominator]
  | squareRoot radicand => [radicand]
  | root index radicand => [index, radicand]
  | bigOperator _ scripts => scripts.lower.toList ++ scripts.upper.toList
  | limit approach => [approach]
  | styled inside => [inside]
  | plain _ | escaped _ | word _ | verbatim _ => []

/-- Only what a piece shows matters to its normal form. -/
theorem normal_congr {inner inner' : Text → Text} {piece : Piece}
    (h : ∀ text ∈ piece.shown, inner text = inner' text) : piece.normal inner = piece.normal inner' := by
  cases piece with
  | bigOperator name scripts =>
    obtain ⟨lower, upper⟩ := scripts
    cases lower <;> cases upper <;> simp_all [normal, shown]
  | _ => simp_all [normal, shown]

/-- The texts that a readable piece shows have readable normal forms. -/
theorem clean_inner {inner : Text → Text} {piece : Piece} (h : Clean (piece.normal inner)) :
    ∀ text ∈ piece.shown, Clean (inner text) := by
  cases piece with
  | bigOperator name scripts =>
    obtain ⟨lower, upper⟩ := scripts
    cases lower <;> cases upper <;>
      simp_all [normal, shown, clean_append, clean_cons]
  | limit approach =>
    have htrim : Clean (trim (tightenArrows (inner approach))) := by
      simp only [normal, clean_append, clean_cons, clean_parenthesized] at h
      exact h.2.2
    simpa [shown] using htrim.of_trim_tightenArrows
  | _ => simp_all [normal, shown, clean_parenthesized, clean_append, clean_cons]

end Piece

/-! ## More levels -/

/-- Only what the pieces show is entered. -/
theorem normalTo_congr {levels more : Nat} {text : Text}
    (h : ∀ piece ∈ pieces text, ∀ inside ∈ piece.shown, normalTo levels inside = normalTo more inside) :
    normalTo (levels + 1) text = normalTo (more + 1) text := by
  rw [normalTo, normalTo, List.flatMap_def, List.flatMap_def]
  congr 1
  exact List.map_congr_left fun piece hpiece => Piece.normal_congr (h piece hpiece)

/-- A text without backslashes and braces is its own normal form. -/
theorem normalTo_one_of_clean {text : Text} (h : Clean text) : normalTo 1 text = text := by
  induction text with
  | nil => rfl
  | cons c rest ih =>
    obtain ⟨⟨hslash, hopen, -⟩, hrest⟩ := clean_cons.mp h
    rw [normalTo_cons, Piece.read_plain hslash hopen, ih hrest]
    rfl

/-- One level more changes nothing, unless something was left as it is written. -/
theorem normalTo_succ_of_clean {levels : Nat} {text : Text} (h : Clean (normalTo levels text)) :
    normalTo (levels + 1) text = normalTo levels text := by
  -- The pieces are the same at every level. A piece at level zero is what stands in the source, which one
  -- level more leaves alone when it is readable.
  induction levels generalizing text with
  | zero => exact normalTo_one_of_clean h
  | succ levels ih =>
    refine normalTo_congr fun piece hpiece inside hinside => ?_
    have hpart : Clean (piece.normal (normalTo levels)) := by
      intro c hc
      exact h c (List.mem_flatMap.mpr ⟨piece, hpiece, hc⟩)
    exact ih (Piece.clean_inner hpart inside hinside)

/-- **Any number of levels more changes nothing.** -/
theorem normalTo_eq_of_clean {levels more : Nat} {text : Text} (hle : levels ≤ more)
    (h : Clean (normalTo levels text)) : normalTo more text = normalTo levels text := by
  induction hle with
  | refl => rfl
  | step _ ih =>
    rw [← ih] at h ⊢
    exact normalTo_succ_of_clean h

/-! ## Balance -/

/-- A macro in front of a balanced text: the backslash hides its first letter, which is no brace. -/
theorem MacroName.balanced {name left : Text} (h : MacroName name left) (hleft : Balanced left) :
    Balanced ('\\' :: (name ++ left)) := by
  obtain ⟨c, more, rfl⟩ := List.exists_cons_of_ne_nil h.ne_nil
  have hmore : Balanced more := by
    refine balanced_of_forall fun d hd => ?_
    have halpha := h.letters d (List.mem_cons_of_mem c hd)
    refine ⟨?_, ?_, ?_⟩ <;> rintro rfl <;> exact absurd halpha (by decide)
  show levelFrom '{' '}' 0 ('\\' :: c :: (more ++ left)) = some 0
  rw [levelFrom_hidden]
  exact hmore.append hleft

/-- A character that is neither a brace nor a backslash changes nothing. -/
theorem Balanced.cons {c : Char} {text : Text} (hslash : c ≠ '\\') (hopen : c ≠ '{') (hclose : c ≠ '}')
    (h : Balanced text) : Balanced (c :: text) :=
  (levelFrom_plain hslash hopen hclose 0 text).trans h

/-- A balanced group in front of a balanced text. -/
theorem Balanced.group_append {inside left : Text} (h : Balanced inside) (hleft : Balanced left) :
    Balanced ('{' :: (inside ++ '}' :: left)) := by
  have hgroup := h.group.append hleft
  simpa using hgroup

/-- A brace group that is read, in front of a balanced text. -/
theorem readPaddedBraces_balanced {text inside left : Text}
    (h : readPaddedBraces text = some (inside, left)) (hleft : Balanced left) : Balanced text := by
  obtain ⟨pads, hpads, rfl, hinside⟩ := readPaddedBraces_eq_some_iff.mp h
  exact hpads.balanced.append (hinside.group_append hleft)

/-- A bracket group with a balanced inside, in front of a balanced text. Brackets alone would not tell, as
they may hold a single brace. -/
theorem readBrackets_balanced {text inside left : Text}
    (h : readBrackets text = some (inside, left)) (hinside : Balanced inside)
    (hleft : Balanced left) : Balanced text := by
  obtain ⟨rfl, -⟩ := (readGroup_eq_some_iff delimiters_brackets).mp h
  refine Balanced.cons (by decide) (by decide) (by decide) (hinside.append ?_)
  exact Balanced.cons (by decide) (by decide) (by decide) hleft

/-- A script in front of a balanced text. -/
theorem Script.Stands.balanced {script : Script} {left : Text} (h : script.Stands left)
    (hleft : Balanced left) : Balanced (script.source ++ left) := by
  cases script with
  | group inside =>
    have hgroup := Balanced.group_append h hleft
    simpa [Script.source] using hgroup
  | command name => exact MacroName.balanced h hleft
  | letter c => exact Balanced.cons h.1 h.2.1 h.2.2.1 hleft

/-- A script behind its mark, in front of a balanced text. -/
theorem readMarked_balanced {mark : Char} {text argument left : Text}
    (hmark : mark = '_' ∨ mark = '^') (h : readMarked mark text = some (argument, left))
    (hleft : Balanced left) : Balanced text := by
  obtain ⟨script, -, rfl, hstands⟩ := readMarked_eq_some_iff.mp h
  rcases hmark with rfl | rfl <;>
    exact Balanced.cons (by decide) (by decide) (by decide) (hstands.balanced hleft)

/-- The scripts of a big operator in front of a balanced text. -/
theorem ScriptsRead.balanced {text left : Text} {scripts : Scripts}
    (h : ScriptsRead text scripts left) (hleft : Balanced left) : Balanced text := by
  cases h with
  | none => exact hleft
  | lower hlower => exact readMarked_balanced (.inl rfl) hlower hleft
  | lowerUpper hlower hupper =>
    exact readMarked_balanced (.inl rfl) hlower (readMarked_balanced (.inr rfl) hupper hleft)
  | upper hupper => exact readMarked_balanced (.inr rfl) hupper hleft
  | upperLower hupper hlower =>
    exact readMarked_balanced (.inr rfl) hupper (readMarked_balanced (.inl rfl) hlower hleft)

namespace Piece

variable {inner : Text → Text}

/-- **A known macro whose normal form is clean takes balanced arguments.** Groups in braces are balanced
since they are read; the root index in brackets is balanced since its normal form is clean. -/
theorem Made.balanced (hinner : ∀ text, Clean (inner text) → Balanced text) {name after left : Text}
    {piece : Piece} (h : Made name after piece left) (hclean : Clean (piece.normal inner))
    (hleft : Balanced left) : Balanced after := by
  cases h with
  | word => exact hleft
  | fraction _ hnumerator hdenominator =>
    exact readPaddedBraces_balanced hnumerator (readPaddedBraces_balanced hdenominator hleft)
  | root _ hindex hradicand =>
    -- Brackets do not count braces: that those of the index are balanced is known from its normal form.
    have hbalanced := hinner _ (clean_inner hclean _ List.mem_cons_self)
    exact readBrackets_balanced hindex hbalanced (readPaddedBraces_balanced hradicand hleft)
  | squareRoot _ _ hradicand => exact readPaddedBraces_balanced hradicand hleft
  | bigOperator _ hscripts => exact hscripts.balanced hleft
  | limit _ hscripts =>
    have hread := scriptsRead after
    rw [hscripts] at hread
    exact hread.balanced hleft
  | bareLimit => exact hleft
  | styled _ hinside => exact readPaddedBraces_balanced hinside hleft

/-- A piece whose normal form is clean takes a balanced stretch of the text. -/
theorem Front.balanced (hinner : ∀ text, Clean (inner text) → Balanced text) {c : Char}
    {rest left : Text} {piece : Piece} (h : Front c rest piece left)
    (hclean : Clean (piece.normal inner)) (hleft : Balanced left) : Balanced (c :: rest) := by
  cases h with
  | plain =>
    obtain ⟨⟨hslash, hopen, hclose⟩, -⟩ := clean_cons.mp hclean
    exact Balanced.cons hslash hopen hclose hleft
  | group _ hgroup =>
    obtain ⟨htext, hbalanced⟩ := of_readBraces hgroup
    rw [htext]
    exact hbalanced.group_append hleft
  | escaped => exact absurd rfl (clean_cons.mp hclean).1.1
  | command hslash hrest hname hmade =>
    rw [hslash, hrest]
    exact hname.balanced (hmade.balanced hinner hclean hleft)
  | verbatim => exact absurd rfl (clean_cons.mp hclean).1.1

end Piece

/-- **Source whose normal form is readable is balanced.** -/
theorem balanced_of_clean {levels : Nat} {text : Text} (h : Clean (normalTo levels text)) :
    Balanced text := by
  induction levels generalizing text with
  | zero => exact h.balanced
  | succ levels ih =>
    induction text using piecesInduction with
    | nil => exact balanced_nil
    | piece c rest ihrest =>
      rw [normalTo_cons, clean_append] at h
      exact (Piece.read_front c rest).balanced (fun _ hclean => ih hclean) h.1 (ihrest h.2)

end MathScribe.Latex

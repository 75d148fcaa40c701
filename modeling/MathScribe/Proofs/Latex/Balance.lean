/-
Balanced text.

`readInside` walks over a text and copies it up to the closer that ends the group. This file takes the
walk apart: `levelFrom` is the number of groups that are open behind a text, and the reader finds the
inside of a group exactly when that is the text in front of a closer whose groups are all closed
(`readInside_eq_some_iff`). So a balanced text is read back whole between braces, whatever stands behind
(`readBraces_of_balanced`).

Each character changes the level by its `weight`. What one character does is said once, for the level
(`levelFrom_cons_eq_some_iff`) and for the search (`readInside_cons_eq_some_iff`), and every induction below
goes by these two.
-/
import Mathlib
import MathScribe.Latex.Group

set_option autoImplicit false

namespace MathScribe.Latex

/-- The number of groups that are open behind a text, when so many are open in front of it. None when
the text closes a group that is not open, or ends with a backslash that hides nothing. -/
def levelFrom (opener closer : Char) : Nat → Text → Option Nat
  | level, [] => some level
  | _, ['\\'] => none
  | level, '\\' :: _ :: rest => levelFrom opener closer level rest
  | level, c :: rest =>
    if c = opener then levelFrom opener closer (level + 1) rest
    else if c = closer then
      match level with
      | 0 => none
      | level + 1 => levelFrom opener closer level rest
    else levelFrom opener closer level rest

/-- A text is empty, or it starts with a backslash and the character that it hides, or with another
character. -/
@[elab_as_elim]
theorem escapeInduction {motive : Text → Prop} (nil : motive []) (lone : motive ['\\'])
    (hidden : ∀ c rest, motive rest → motive ('\\' :: c :: rest))
    (plain : ∀ c rest, c ≠ '\\' → motive rest → motive (c :: rest)) : ∀ text, motive text
  | [] => nil
  | [c] => by
    by_cases hc : c = '\\'
    · exact hc ▸ lone
    · exact plain c [] hc nil
  | c :: d :: rest => by
    by_cases hc : c = '\\'
    · exact hc ▸ hidden d rest (escapeInduction nil lone hidden plain rest)
    · exact plain c (d :: rest) hc (escapeInduction nil lone hidden plain (d :: rest))

/-- Delimiters that can be told apart from each other and from a backslash. -/
structure Delimiters (opener closer : Char) : Prop where
  opener_ne : opener ≠ '\\'
  closer_ne : closer ≠ '\\'
  distinct : closer ≠ opener

/-- Braces are two characters, and neither is the backslash. -/
theorem delimiters_braces : Delimiters '{' '}' :=
  ⟨by decide, by decide, by decide⟩

/-- Brackets are two characters, and neither is the backslash. -/
theorem delimiters_brackets : Delimiters '[' ']' :=
  ⟨by decide, by decide, by decide⟩

/-- How a character that no backslash hides changes the number of groups that are open. -/
def weight (opener closer c : Char) : Int :=
  if c = opener then 1 else if c = closer then -1 else 0

/-- An opener weighs one. -/
theorem weight_opener (opener closer : Char) : weight opener closer opener = 1 := by
  rw [weight, if_pos rfl]

/-- A closer weighs minus one. -/
theorem Delimiters.weight_closer {opener closer : Char} (hd : Delimiters opener closer) :
    weight opener closer closer = -1 := by
  rw [weight, if_neg hd.distinct, if_pos rfl]

/-- No character takes more than one level away. -/
theorem neg_one_le_weight (opener closer c : Char) : -1 ≤ weight opener closer c := by
  unfold weight
  split
  · decide
  · split <;> decide

section

variable {opener closer : Char}

/-! ## One step of the walk -/

/-- At the end the level is what it is. -/
@[simp] theorem levelFrom_nil (level : Nat) : levelFrom opener closer level [] = some level :=
  rfl

/-- A backslash at the very end is refused, as `read_group` finds no character that it hides. -/
@[simp] theorem levelFrom_lone (level : Nat) : levelFrom opener closer level ['\\'] = none :=
  rfl

/-- A hidden character leaves the level as it is. -/
@[simp] theorem levelFrom_hidden (level : Nat) (c : Char) (rest : Text) :
    levelFrom opener closer level ('\\' :: c :: rest) = levelFrom opener closer level rest :=
  rfl

/-- A character that is not a backslash opens a group, closes one or is passed over. -/
theorem levelFrom_cons {c : Char} (hc : c ≠ '\\') (level : Nat) (rest : Text) :
    levelFrom opener closer level (c :: rest)
      = if c = opener then levelFrom opener closer (level + 1) rest
        else if c = closer then
          match level with
          | 0 => none
          | level + 1 => levelFrom opener closer level rest
        else levelFrom opener closer level rest := by
  rw [levelFrom.eq_def]
  split
  · next h => cases h
  · next h => exact absurd (List.cons.inj h).1 hc
  · next h => exact absurd (List.cons.inj h).1 hc
  · next h =>
    cases h
    rfl

/-- A character that is neither a delimiter nor a backslash is passed over. -/
theorem levelFrom_plain {c : Char} (hb : c ≠ '\\') (ho : c ≠ opener) (hc : c ≠ closer) (level : Nat)
    (rest : Text) :
    levelFrom opener closer level (c :: rest) = levelFrom opener closer level rest := by
  rw [levelFrom_cons hb, if_neg ho, if_neg hc]

/-- `read_group` takes a backslash together with the character behind it. -/
theorem readInside_hidden (inner : Nat) (c : Char) (rest : Text) :
    readInside opener closer inner ('\\' :: c :: rest)
      = (readInside opener closer inner rest).map fun (inside, left) =>
          ('\\' :: c :: inside, left) :=
  rfl

/-- What `read_group` does with one character: an opener counts up, a closer counts down or ends the
group, and all else is taken. -/
theorem readInside_cons {c : Char} (hc : c ≠ '\\') (inner : Nat) (rest : Text) :
    readInside opener closer inner (c :: rest)
      = if c = opener then
          (readInside opener closer (inner + 1) rest).map fun (inside, left) => (c :: inside, left)
        else if c = closer then
          match inner with
          | 0 => some ([], rest)
          | inner + 1 =>
            (readInside opener closer inner rest).map fun (inside, left) => (c :: inside, left)
        else (readInside opener closer inner rest).map fun (inside, left) => (c :: inside, left) := by
  rw [readInside.eq_def]
  split
  · next h => cases h
  · next h => exact absurd (List.cons.inj h).1 hc
  · next h => exact absurd (List.cons.inj h).1 hc
  · next h =>
    cases h
    rfl

/-- Only the closer of the last group that is open takes the level below zero. -/
theorem eq_closer_of_weight {inner : Nat} {c : Char} (h : (inner : Int) + weight opener closer c = -1) :
    inner = 0 ∧ c = closer := by
  unfold weight at h
  by_cases hopen : c = opener
  · rw [if_pos hopen] at h
    omega
  · rw [if_neg hopen] at h
    by_cases hclose : c = closer
    · rw [if_pos hclose] at h
      exact ⟨by omega, hclose⟩
    · rw [if_neg hclose] at h
      omega

/-- A natural number is found by its value as an integer. -/
theorem exists_cast_eq_iff {P : Nat → Prop} {i : Int} (n : Nat) (h : i = n) :
    (∃ next : Nat, (next : Int) = i ∧ P next) ↔ P n := by
  subst h
  simp

/-- **One step of the level**: it changes by the weight of the character, unless that takes it below zero. -/
theorem levelFrom_cons_eq_some_iff {c : Char} (hc : c ≠ '\\') {level last : Nat} {rest : Text} :
    levelFrom opener closer level (c :: rest) = some last
      ↔ ∃ next : Nat, (next : Int) = level + weight opener closer c
        ∧ levelFrom opener closer next rest = some last := by
  rw [levelFrom_cons hc, weight]
  by_cases hopen : c = opener
  · rw [if_pos hopen, if_pos hopen, exists_cast_eq_iff (level + 1) (by omega)]
  · rw [if_neg hopen, if_neg hopen]
    by_cases hclose : c = closer
    · rw [if_pos hclose, if_pos hclose]
      cases level with
      | zero => exact iff_of_false nofun fun ⟨next, hnext, _⟩ => by omega
      | succ level => rw [exists_cast_eq_iff level (by omega)]
    · rw [if_neg hclose, if_neg hclose, exists_cast_eq_iff level (by omega)]

/-- The next level is the same whatever comes behind. -/
theorem levelFrom_next {c : Char} (hc : c ≠ '\\') {level next : Nat}
    (hnext : (next : Int) = level + weight opener closer c) (rest : Text) :
    levelFrom opener closer level (c :: rest) = levelFrom opener closer next rest := by
  apply Option.ext
  intro last
  rw [levelFrom_cons_eq_some_iff hc, exists_cast_eq_iff next hnext.symm]

/-- **One step of the search**: it ends where the level falls below zero, and else it keeps the character and
goes on at the next level. -/
theorem readInside_cons_eq_some_iff {c : Char} (hc : c ≠ '\\') {inner : Nat} {rest inside left : Text} :
    readInside opener closer inner (c :: rest) = some (inside, left)
      ↔ ((inner : Int) + weight opener closer c = -1 ∧ inside = [] ∧ left = rest)
        ∨ ∃ next : Nat, (next : Int) = inner + weight opener closer c
          ∧ ∃ more, inside = c :: more ∧ readInside opener closer next rest = some (more, left) := by
  have hkeeps : ∀ next, (readInside opener closer next rest).map (fun (inside, left) => (c :: inside, left))
        = some (inside, left)
      ↔ ∃ more, inside = c :: more ∧ readInside opener closer next rest = some (more, left) := by
    intro next
    rw [Option.map_eq_some_iff]
    constructor
    · rintro ⟨⟨more, behind⟩, hmore, hsame⟩
      cases hsame
      exact ⟨more, rfl, hmore⟩
    · rintro ⟨more, rfl, hmore⟩
      exact ⟨(more, left), hmore, rfl⟩
  rw [readInside_cons hc, weight]
  -- The opener, the closer and any other character, as the definition tells them apart. Only a closer at level
  -- zero ends the search.
  by_cases hopen : c = opener
  · rw [if_pos hopen, if_pos hopen, exists_cast_eq_iff (inner + 1) (by omega), hkeeps, or_iff_right (by omega)]
  · rw [if_neg hopen, if_neg hopen]
    by_cases hclose : c = closer
    · rw [if_pos hclose, if_pos hclose]
      cases inner with
      | zero =>
        constructor
        · intro h
          cases h
          exact .inl ⟨rfl, rfl, rfl⟩
        · rintro (⟨-, rfl, rfl⟩ | ⟨next, hnext, -⟩)
          · rfl
          · omega
      | succ inner => rw [exists_cast_eq_iff inner (by omega), hkeeps, or_iff_right (by omega)]
    · rw [if_neg hclose, if_neg hclose, exists_cast_eq_iff inner (by omega), hkeeps, or_iff_right (by omega)]

/-! ## The inside of a group -/

/-- What is found is the text in front of a closer that ends the group. -/
theorem of_readInside {inner : Nat} {text inside left : Text}
    (h : readInside opener closer inner text = some (inside, left)) :
    text = inside ++ closer :: left ∧ levelFrom opener closer inner inside = some 0 := by
  -- The induction is over the text by its escapes. The number of groups that are open inside goes up and down
  -- with the delimiters, and a closer at level zero ends the search.
  induction text using escapeInduction generalizing inner inside left with
  | nil => cases h
  | lone => cases h
  | hidden c rest ih =>
    rw [readInside_hidden] at h
    obtain ⟨⟨found, behind⟩, hfound, hsame⟩ := Option.map_eq_some_iff.mp h
    cases hsame
    obtain ⟨rfl, hlevel⟩ := ih hfound
    exact ⟨rfl, by rwa [levelFrom_hidden]⟩
  | plain c rest hc ih =>
    obtain ⟨hend, rfl, rfl⟩ | ⟨next, hnext, more, rfl, hmore⟩ := (readInside_cons_eq_some_iff hc).mp h
    · obtain ⟨rfl, rfl⟩ := eq_closer_of_weight hend
      exact ⟨rfl, rfl⟩
    · obtain ⟨rfl, hlevel⟩ := ih hmore
      exact ⟨rfl, (levelFrom_cons_eq_some_iff hc).mpr ⟨next, hnext, hlevel⟩⟩

/-- A text whose groups are all closed is found in front of the closer. -/
theorem readInside_of_level (hd : Delimiters opener closer) {inner : Nat} {inside : Text}
    (left : Text) (h : levelFrom opener closer inner inside = some 0) :
    readInside opener closer inner (inside ++ closer :: left) = some (inside, left) := by
  -- The same cases, with the level known instead of the result.
  induction inside using escapeInduction generalizing inner with
  | nil =>
    cases h
    exact (readInside_cons_eq_some_iff hd.closer_ne).mpr (.inl ⟨by simp [hd.weight_closer], rfl, rfl⟩)
  | lone => cases h
  | hidden c rest ih =>
    rw [levelFrom_hidden] at h
    rw [List.cons_append, List.cons_append, readInside_hidden, ih h]
    rfl
  | plain c rest hc ih =>
    obtain ⟨next, hnext, hrest⟩ := (levelFrom_cons_eq_some_iff hc).mp h
    exact (readInside_cons_eq_some_iff hc).mpr (.inr ⟨next, hnext, _, rfl, ih hrest⟩)

/-- **The inside of a group** is the text in front of a closer whose groups are all closed. -/
theorem readInside_eq_some_iff (hd : Delimiters opener closer) {inner : Nat}
    {text inside left : Text} :
    readInside opener closer inner text = some (inside, left)
      ↔ text = inside ++ closer :: left ∧ levelFrom opener closer inner inside = some 0 := by
  constructor
  · exact of_readInside
  · rintro ⟨rfl, hlevel⟩
    exact readInside_of_level hd left hlevel

/-- The group at the front of a text. -/
theorem readGroup_eq_some_iff (hd : Delimiters opener closer) {text inside left : Text} :
    readGroup opener closer text = some (inside, left)
      ↔ text = opener :: (inside ++ closer :: left)
        ∧ levelFrom opener closer 0 inside = some 0 := by
  cases text with
  | nil => simp [readGroup]
  | cons c rest =>
    dsimp only [readGroup]
    by_cases hc : c = opener
    · rw [if_pos ⟨hc, hc ▸ hd.opener_ne⟩, readInside_eq_some_iff hd, hc]
      simp
    · rw [if_neg (fun h => hc h.1)]
      simp [hc]

/-! ## Levels of a text that is put together -/

/-- The level behind two texts, when the first one does not end with a lone backslash. -/
theorem levelFrom_append {level middle : Nat} {first : Text} (second : Text)
    (h : levelFrom opener closer level first = some middle) :
    levelFrom opener closer level (first ++ second) = levelFrom opener closer middle second := by
  induction first using escapeInduction generalizing level with
  | nil =>
    cases h
    rfl
  | lone => cases h
  | hidden c rest ih =>
    rw [levelFrom_hidden] at h
    rw [List.cons_append, List.cons_append, levelFrom_hidden, ih h]
  | plain c rest hc ih =>
    obtain ⟨next, hnext, hrest⟩ := (levelFrom_cons_eq_some_iff hc).mp h
    rw [List.cons_append, levelFrom_next hc hnext, ih hrest]

/-- More groups that are open around a text stay open. -/
theorem levelFrom_add {level last : Nat} {text : Text} (around : Nat)
    (h : levelFrom opener closer level text = some last) :
    levelFrom opener closer (level + around) text = some (last + around) := by
  induction text using escapeInduction generalizing level with
  | nil =>
    cases h
    rfl
  | lone => cases h
  | hidden c rest ih =>
    rw [levelFrom_hidden] at h ⊢
    exact ih h
  | plain c rest hc ih =>
    obtain ⟨next, hnext, hrest⟩ := (levelFrom_cons_eq_some_iff hc).mp h
    exact (levelFrom_cons_eq_some_iff hc).mpr ⟨next + around, by omega, ih hrest⟩

end

/-! ## Balanced braces -/

/-- A text whose braces are balanced, escaped ones apart. -/
def Balanced (text : Text) : Prop :=
  levelFrom '{' '}' 0 text = some 0

/-- The empty text has no brace to match. -/
theorem balanced_nil : Balanced [] :=
  levelFrom_nil 0

/-- Two balanced texts make a balanced text. -/
theorem Balanced.append {first second : Text} (h₁ : Balanced first) (h₂ : Balanced second) :
    Balanced (first ++ second) :=
  (levelFrom_append second h₁).trans h₂

/-- A text without braces and backslashes is balanced. -/
theorem balanced_of_forall {text : Text}
    (h : ∀ c ∈ text, c ≠ '\\' ∧ c ≠ '{' ∧ c ≠ '}') : Balanced text := by
  induction text with
  | nil => exact balanced_nil
  | cons c rest ih =>
    obtain ⟨⟨hb, ho, hc⟩, hrest⟩ := List.forall_mem_cons.mp h
    unfold Balanced
    rw [levelFrom_plain hb ho hc]
    exact ih hrest

/-- A group around a balanced text is balanced. -/
theorem Balanced.group {inside : Text} (h : Balanced inside) :
    Balanced ('{' :: inside ++ ['}']) := by
  have hinside : levelFrom '{' '}' 1 inside = some 1 := levelFrom_add 1 h
  unfold Balanced
  rw [List.cons_append, levelFrom_cons (by decide), if_pos rfl, levelFrom_append _ hinside,
    levelFrom_cons (by decide), if_neg (by decide), if_pos rfl]
  rfl

/-- A balanced text is read back whole between braces. -/
theorem readBraces_of_balanced {inside : Text} (h : Balanced inside) (left : Text) :
    readBraces ('{' :: (inside ++ '}' :: left)) = some (inside, left) :=
  (readGroup_eq_some_iff delimiters_braces).mpr ⟨rfl, h⟩

/-- What is read between braces is balanced. -/
theorem of_readBraces {text inside left : Text} (h : readBraces text = some (inside, left)) :
    text = '{' :: (inside ++ '}' :: left) ∧ Balanced inside :=
  (readGroup_eq_some_iff delimiters_braces).mp h

end MathScribe.Latex

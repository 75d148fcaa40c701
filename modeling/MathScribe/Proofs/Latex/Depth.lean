/-
The depth of a text.

`readGroup` counts the groups that are open while it walks over a text. This file says where a group ends
without that walk. The `depth` of a text is the number of its openers less the number of its closers, where a
backslash hides the character behind it. The level that the walk keeps is the depth of what is behind it,
as long as the depth has not fallen below zero (`levelFrom_eq_some_iff`), and the walk comes to an end exactly
when the depth falls below where it started (`readInside_isSome_iff`).

`group_iff_returns` puts this together at a position of a text: a group is read exactly where an opener stands
and the depth returns to zero behind it, and the group ends at the first index where it does. The two
directions need each other. That what is read is balanced also holds of a reader that never reads anything.
-/
import MathScribe.Proofs.Latex.Nesting

set_option autoImplicit false

namespace MathScribe.Latex

/-! ## Reading at a position -/

/-- What a reader takes at a position of a text, and the position behind it. -/
def readAt {α : Type} (read : Text → Option (α × Text)) (text : Text) (pos : Nat) : Option (α × Nat) :=
  (read (text.drop pos)).map fun (found, left) => (found, text.length - left.length)

/-- A reader leaves the end of the text. -/
def LeavesEnd {α : Type} (read : Text → Option (α × Text)) : Prop :=
  ∀ ⦃text found left⦄, read text = some (found, left) → left <:+ text

/-- `read_group` leaves an end of the text, so it can be asked at a position. -/
theorem leavesEnd_readGroup {opener closer : Char} (hd : Delimiters opener closer) :
    LeavesEnd (readGroup opener closer) :=
  fun _ _ _ => readGroup_suffix hd

/-- What is read at a position is read from the text behind it, and the text behind the other position is
left. -/
theorem readAt_eq_some_iff {α : Type} {read : Text → Option (α × Text)} (hread : LeavesEnd read)
    {text : Text} {pos stop : Nat} {found : α} :
    readAt read text pos = some (found, stop)
      ↔ stop ≤ text.length ∧ read (text.drop pos) = some (found, text.drop stop) := by
  constructor
  · intro h
    obtain ⟨⟨taken, left⟩, htaken, hsame⟩ := Option.map_eq_some_iff.mp h
    cases hsame
    have hleft : left <:+ text := (hread htaken).trans (List.drop_suffix pos text)
    exact ⟨Nat.sub_le _ _, by rw [htaken, ← List.suffix_iff_eq_drop.mp hleft]⟩
  · rintro ⟨hstop, htaken⟩
    have hlength : text.length - (text.drop stop).length = stop := by
      rw [List.length_drop]
      omega
    simp only [readAt, htaken, Option.map_some, hlength]

/-- What `read_group` reads at a position, told without the reader: the opener stands there, then an
inside that comes back to its own level, then the closer. -/
theorem readAt_readGroup_iff {opener closer : Char} (hd : Delimiters opener closer) {text inside : Text}
    {pos stop : Nat} :
    readAt (readGroup opener closer) text pos = some (inside, stop)
      ↔ stop ≤ text.length ∧ text.drop pos = opener :: (inside ++ closer :: text.drop stop)
        ∧ levelFrom opener closer 0 inside = some 0 := by
  rw [readAt_eq_some_iff (leavesEnd_readGroup hd), readGroup_eq_some_iff hd]

/-! ## Depth -/

/-- The depth of a text: an opener adds one and a closer takes one away, and a backslash hides the character
behind it. -/
def depth (opener closer : Char) : Text → Int
  | [] => 0
  | ['\\'] => 0
  | '\\' :: _ :: rest => depth opener closer rest
  | c :: rest => weight opener closer c + depth opener closer rest

/-- A property of all beginnings of a text, taken apart at its first character. -/
theorem forall_prefix_cons {P : Text → Prop} {c : Char} {rest : Text} :
    (∀ front, front <+: c :: rest → P front) ↔ P [] ∧ ∀ front, front <+: rest → P (c :: front) := by
  constructor
  · intro h
    exact ⟨h [] List.nil_prefix, fun front hfront => h _ (List.cons_prefix_cons.mpr ⟨rfl, hfront⟩)⟩
  · rintro ⟨hnil, hcons⟩ front hfront
    obtain rfl | ⟨more, rfl, hmore⟩ := List.prefix_cons_iff.mp hfront
    · exact hnil
    · exact hcons more hmore

/-- Some beginning of a text has a property: it is the empty one, or it has the first character. -/
theorem exists_prefix_cons {P : Text → Prop} {c : Char} {rest : Text} :
    (∃ front, front <+: c :: rest ∧ P front) ↔ P [] ∨ ∃ front, front <+: rest ∧ P (c :: front) := by
  simp [List.prefix_cons_iff, or_and_right, exists_or]

section

variable {opener closer : Char}

/-- Nothing is open in an empty text. -/
@[simp] theorem depth_nil : depth opener closer [] = 0 :=
  rfl

/-- A backslash at the end hides nothing and opens nothing. -/
@[simp] theorem depth_lone : depth opener closer ['\\'] = 0 :=
  rfl

/-- A hidden character counts for nothing, and neither does its backslash. -/
@[simp] theorem depth_hidden (c : Char) (rest : Text) :
    depth opener closer ('\\' :: c :: rest) = depth opener closer rest :=
  rfl

/-- Any other character counts by its weight. -/
theorem depth_cons {c : Char} (hc : c ≠ '\\') (rest : Text) :
    depth opener closer (c :: rest) = weight opener closer c + depth opener closer rest := by
  rw [depth.eq_def]
  split
  · next h => cases h
  · next h => exact absurd (List.cons.inj h).1 hc
  · next h => exact absurd (List.cons.inj h).1 hc
  · next h =>
    cases h
    rfl

/-- The depth adds up over two texts when the first one ends in no lone backslash, which would hide the
first character of the second one. -/
theorem depth_append {first : Text} (h : Complete first) (second : Text) :
    depth opener closer (first ++ second) = depth opener closer first + depth opener closer second := by
  induction h with
  | nil => simp
  | hidden _ ih => exact ih
  | plain hc _ ih => rw [List.cons_append, depth_cons hc, depth_cons hc, ih, Int.add_assoc]

namespace Delimiters

variable (hd : Delimiters opener closer)
include hd

/-- An opener raises the depth by one. -/
theorem depth_opener (rest : Text) :
    depth opener closer (opener :: rest) = 1 + depth opener closer rest := by
  rw [depth_cons hd.opener_ne, weight_opener]

/-- A closer takes the depth back by one. -/
theorem depth_closer : depth opener closer [closer] = -1 := by
  rw [depth_cons hd.closer_ne, hd.weight_closer]
  rfl

end Delimiters

/-! ## What the reader counts -/

/-- **The level that `read_group` counts is the depth.** In a text that ends in no lone backslash,
counting goes through to the end exactly when the depth never falls below what was open before, and it
ends at the depth of the text. -/
theorem levelFrom_of_complete {level last : Nat} {text : Text} (h : Complete text) :
    levelFrom opener closer level text = some last
      ↔ (∀ front, front <+: text → 0 ≤ level + depth opener closer front)
        ∧ (last : Int) = level + depth opener closer text := by
  induction h generalizing level with
  | nil => simp [eq_comm]
  | hidden _ ih =>
    rw [levelFrom_hidden, ih, forall_prefix_cons, forall_prefix_cons]
    simp
  | @plain c rest hc _ ih =>
    simp only [levelFrom_cons_eq_some_iff hc, ih, forall_prefix_cons, depth_cons hc, ← Int.add_assoc]
    constructor
    · rintro ⟨next, hnext, hrest, hlast⟩
      rw [← hnext]
      exact ⟨⟨by simp, hrest⟩, hlast⟩
    · rintro ⟨⟨-, hrest⟩, hlast⟩
      -- The empty text in front of `rest` says that the level is still a number behind `c`.
      have hnext : 0 ≤ (level : Int) + weight opener closer c := by
        simpa using hrest [] List.nil_prefix
      obtain ⟨next, hnext⟩ := Int.eq_ofNat_of_zero_le hnext
      rw [hnext] at hrest hlast
      exact ⟨next, hnext.symm, hrest, hlast⟩

/-- **The level is the depth** of a text that does not end with a lone backslash, as long as the depth does
not fall below zero. -/
theorem levelFrom_eq_some_iff {level last : Nat} {text : Text} :
    levelFrom opener closer level text = some last
      ↔ Complete text ∧ (∀ front, front <+: text → 0 ≤ level + depth opener closer front)
        ∧ (last : Int) = level + depth opener closer text := by
  constructor
  · intro h
    have hcomplete := complete_of_level h
    exact ⟨hcomplete, (levelFrom_of_complete hcomplete).mp h⟩
  · rintro ⟨hcomplete, hdepth⟩
    exact (levelFrom_of_complete hcomplete).mpr hdepth

/-- **The end of a group is found** exactly when the depth falls below where it started. -/
theorem readInside_isSome_iff {inner : Nat} {text : Text} :
    (readInside opener closer inner text).isSome = true
      ↔ ∃ front, front <+: text ∧ (inner : Int) + depth opener closer front = -1 := by
  induction text using escapeInduction generalizing inner with
  | nil =>
    refine iff_of_false nofun ?_
    rintro ⟨front, hfront, hdepth⟩
    rw [List.prefix_nil.mp hfront, depth_nil] at hdepth
    omega
  | lone =>
    refine iff_of_false nofun ?_
    rw [exists_prefix_cons]
    rintro (hdepth | ⟨front, hfront, hdepth⟩)
    · rw [depth_nil] at hdepth
      omega
    · rw [List.prefix_nil.mp hfront, depth_lone] at hdepth
      omega
  | hidden c rest ih =>
    rw [readInside_hidden, Option.isSome_map, ih, exists_prefix_cons, exists_prefix_cons]
    simp only [depth_nil, depth_lone, depth_hidden]
    rw [or_iff_right (by omega), or_iff_right (by omega)]
  | plain c rest hc ih =>
    rw [exists_prefix_cons]
    simp only [depth_cons hc, depth_nil, ← Int.add_assoc]
    constructor
    · intro h
      obtain ⟨⟨inside, left⟩, hread⟩ := Option.isSome_iff_exists.mp h
      obtain ⟨hend, -, -⟩ | ⟨next, hnext, more, -, hmore⟩ := (readInside_cons_eq_some_iff hc).mp hread
      · exact .inr ⟨[], List.nil_prefix, by rw [depth_nil, hend]; rfl⟩
      · rw [← hnext]
        exact .inr (ih.mp (Option.isSome_of_eq_some hmore))
    · rintro (hnil | hlater)
      · omega
      -- The character is the end exactly when it takes the depth below zero, and otherwise the depth goes on
      -- from a number.
      · have hweight := neg_one_le_weight opener closer c
        by_cases hnext : 0 ≤ (inner : Int) + weight opener closer c
        · obtain ⟨next, hnext⟩ := Int.eq_ofNat_of_zero_le hnext
          rw [hnext] at hlater
          obtain ⟨⟨more, left⟩, hmore⟩ := Option.isSome_iff_exists.mp (ih.mpr hlater)
          exact Option.isSome_of_eq_some
            ((readInside_cons_eq_some_iff hc).mpr (.inr ⟨next, hnext.symm, more, rfl, hmore⟩))
        · have hend : (inner : Int) + weight opener closer c = -1 := by omega
          exact Option.isSome_of_eq_some ((readInside_cons_eq_some_iff hc).mpr (.inl ⟨hend, rfl, rfl⟩))

/-! ## Where a group ends -/

/-- The indices at which the depth, scanned from a position of a text, is zero. -/
def returns (opener closer : Char) (text : Text) (pos : Nat) : Set Nat :=
  {i | pos ≤ i ∧ i < text.length ∧ depth opener closer (text.extract pos (i + 1)) = 0}

/-- How many characters a stretch of a text has. -/
theorem length_extract (text : Text) (first last : Nat) :
    (text.extract first last).length = min (last - first) (text.length - first) := by
  rw [List.extract_eq_take_drop, List.length_take, List.length_drop]

/-- The depth returns behind a position exactly when some beginning of what follows has depth zero, apart
from the empty one. -/
theorem returns_nonempty_iff {text : Text} {pos : Nat} :
    (returns opener closer text pos).Nonempty
      ↔ ∃ front, front <+: text.drop pos ∧ front ≠ [] ∧ depth opener closer front = 0 := by
  constructor
  · rintro ⟨i, hpos, hi, hdepth⟩
    refine ⟨text.extract pos (i + 1), List.take_prefix _ _, ?_, hdepth⟩
    apply List.ne_nil_of_length_pos
    rw [length_extract]
    omega
  · rintro ⟨front, hfront, hne, hdepth⟩
    have hlength := hfront.length_le
    rw [List.length_drop] at hlength
    have hpositive := List.length_pos_iff.mpr hne
    have hsource : text.extract pos (pos + front.length - 1 + 1) = front := by
      have hspan : pos + front.length - 1 + 1 - pos = front.length := by omega
      rw [List.extract_eq_take_drop, hspan, ← List.prefix_iff_eq_take.mp hfront]
    exact ⟨pos + front.length - 1, by omega, by omega, by rw [hsource, hdepth]⟩

/-- A group that stands at a position of a text and ends at another one. -/
structure GroupAt (opener closer : Char) (text : Text) (pos : Nat) (inside : Text) (stop : Nat) :
    Prop where
  /-- The group ends behind the first index at which the depth is back at zero. -/
  first : IsLeast (returns opener closer text pos) (stop - 1)
  source : text.extract pos stop = opener :: (inside ++ [closer])
  stop_le : stop ≤ text.length
  /-- The group is open from its opener to its closer. -/
  isOpen : ∀ front, front <+: text.extract pos stop → front ≠ [] → front ≠ text.extract pos stop →
    1 ≤ depth opener closer front

/-- A group ends behind the place where it starts. -/
theorem GroupAt.lt {text inside : Text} {pos stop : Nat} (h : GroupAt opener closer text pos inside stop) :
    pos < stop := by
  by_contra hback
  have hnil : text.extract pos stop = [] := by
    rw [List.extract_eq_take_drop, Nat.sub_eq_zero_of_le (Nat.le_of_not_lt hback), List.take_zero]
  have hsource := h.source
  rw [hnil] at hsource
  cases hsource

namespace Delimiters

variable (hd : Delimiters opener closer)
include hd

/-- A group is found at the front of a text exactly when the opener stands there and the depth returns to
zero. -/
theorem readGroup_isSome_iff {text : Text} :
    (readGroup opener closer text).isSome = true
      ↔ text.head? = some opener
        ∧ ∃ front, front <+: text ∧ front ≠ [] ∧ depth opener closer front = 0 := by
  cases text with
  | nil => simp [readGroup]
  | cons c rest =>
    dsimp only [readGroup]
    by_cases hc : c = opener
    · subst hc
      have hbelow : ∀ front, depth c closer front = -1 ↔ depth c closer (c :: front) = 0 := by
        intro front
        rw [hd.depth_opener]
        omega
      rw [if_pos ⟨rfl, hd.opener_ne⟩, readInside_isSome_iff, exists_prefix_cons]
      simp [hbelow]
    · rw [if_neg fun h => hc h.1]
      simp [hc]

variable {inside : Text} (hinside : levelFrom opener closer 0 inside = some 0)
include hinside

/-- A group as a whole leaves the depth as it was. -/
theorem depth_group : depth opener closer (opener :: (inside ++ [closer])) = 0 := by
  obtain ⟨hcomplete, -, hdepth⟩ := levelFrom_eq_some_iff.mp hinside
  rw [hd.depth_opener, depth_append hcomplete, hd.depth_closer]
  omega

/-- Inside a group the depth is at least one: it returns at the closer and not before. -/
theorem one_le_depth_of_group {front : Text} (hfront : front <+: opener :: (inside ++ [closer]))
    (hne : front ≠ []) (hproper : front ≠ opener :: (inside ++ [closer])) :
    1 ≤ depth opener closer front := by
  obtain ⟨-, hnonneg, -⟩ := levelFrom_eq_some_iff.mp hinside
  obtain rfl | ⟨more, rfl, hmore⟩ := List.prefix_cons_iff.mp hfront
  · exact absurd rfl hne
  · obtain rfl | hmore := List.prefix_concat_iff.mp hmore
    · exact absurd rfl hproper
    · have hdepth := hnonneg more hmore
      rw [hd.depth_opener]
      omega

end Delimiters

section

variable (hd : Delimiters opener closer) {text inside : Text} {pos stop : Nat}
include hd

/-- What `read_group` reads is a group: the depth returns for the first time where it stops. -/
theorem groupAt_of_readAt (h : readAt (readGroup opener closer) text pos = some (inside, stop)) :
    GroupAt opener closer text pos inside stop := by
  obtain ⟨hstop, htext, hinside⟩ := (readAt_readGroup_iff hd).mp h
  have hlength := congrArg List.length htext
  simp only [List.length_drop, List.length_cons, List.length_append] at hlength
  have hsource : text.extract pos stop = opener :: (inside ++ [closer]) := by
    have hspan : stop - pos = (opener :: (inside ++ [closer])).length := by
      simp only [List.length_cons, List.length_append, List.length_nil]
      omega
    have hwhole : text.drop pos = (opener :: (inside ++ [closer])) ++ text.drop stop := by
      rw [htext]
      simp
    rw [List.extract_eq_take_drop, hwhole, List.take_left' hspan.symm]
  have hisOpen : ∀ front, front <+: text.extract pos stop → front ≠ [] → front ≠ text.extract pos stop →
      1 ≤ depth opener closer front := by
    rw [hsource]
    exact fun front => hd.one_le_depth_of_group hinside
  refine ⟨⟨⟨by omega, by omega, ?_⟩, ?_⟩, hsource, hstop, hisOpen⟩
  · rw [Nat.sub_add_cancel (by omega), hsource]
    exact hd.depth_group hinside
  · -- In front of the closer the group is still open, so the depth is not zero there.
    rintro i ⟨hpos, hi, hzero⟩
    by_contra hearly
    have hfront : text.extract pos (i + 1) <+: text.extract pos stop :=
      List.take_prefix_take_left (by omega)
    have hne : text.extract pos (i + 1) ≠ [] := by
      apply List.ne_nil_of_length_pos
      rw [length_extract]
      omega
    have hproper : text.extract pos (i + 1) ≠ text.extract pos stop := by
      intro hsame
      have hlengths := congrArg List.length hsame
      rw [length_extract, length_extract] at hlengths
      omega
    have hopen := hisOpen _ hfront hne hproper
    omega

/-- The group that stands at a position is read there. -/
theorem readAt_isSome_iff :
    (readAt (readGroup opener closer) text pos).isSome = true
      ↔ text[pos]? = some opener ∧ (returns opener closer text pos).Nonempty := by
  rw [readAt, Option.isSome_map, hd.readGroup_isSome_iff, List.head?_drop, returns_nonempty_iff]

/-- A group is what `read_group` reads, since the first return of the depth is where counting ends. -/
theorem readAt_of_groupAt (h : GroupAt opener closer text pos inside stop) :
    readAt (readGroup opener closer) text pos = some (inside, stop) := by
  have hopener : text[pos]? = some opener := by
    have hprefix : text.extract pos stop <+: text.drop pos := List.take_prefix _ _
    obtain ⟨rest, hrest⟩ := hprefix
    rw [← List.head?_drop, ← hrest, h.source]
    rfl
  have hsome := (readAt_isSome_iff hd).mpr ⟨hopener, _, h.first.1⟩
  obtain ⟨⟨found, last⟩, hfound⟩ := Option.isSome_iff_exists.mp hsome
  have hgroup := groupAt_of_readAt hd hfound
  have hlast : last = stop := by
    have hleast := hgroup.first.unique h.first
    have hfront := h.lt
    have hlater := hgroup.lt
    omega
  subst hlast
  have hinside : found = inside := by
    have hsource := hgroup.source.symm.trans h.source
    simpa using hsource
  rw [hfound, hinside]

/-- A text that closes what it opens, and nothing more, is read back whole between the delimiters. -/
theorem readAt_of_depth (hcomplete : Complete inside)
    (hnonneg : ∀ front, front <+: inside → 0 ≤ depth opener closer front)
    (hzero : depth opener closer inside = 0) (rest : Text) :
    readAt (readGroup opener closer) (opener :: (inside ++ closer :: rest)) 0
      = some (inside, inside.length + 2) := by
  have hinside : levelFrom opener closer 0 inside = some 0 :=
    levelFrom_eq_some_iff.mpr ⟨hcomplete, by simpa using hnonneg, by simp [hzero]⟩
  exact (readAt_readGroup_iff hd).mpr ⟨by simp, by simp, hinside⟩

/-- **A group is read exactly where the depth returns to zero.** `read_group` reads one at a position where the
opener stands and behind which the depth is zero somewhere, up to the first index where it is. So a text whose
depth ends at zero and never falls below it is read back whole between the delimiters, whatever stands behind.
-/
theorem group_iff_returns :
    (∀ text pos, (readAt (readGroup opener closer) text pos).isSome = true
      ↔ text[pos]? = some opener ∧ (returns opener closer text pos).Nonempty)
    ∧ (∀ text pos inside stop, readAt (readGroup opener closer) text pos = some (inside, stop)
      ↔ GroupAt opener closer text pos inside stop)
    ∧ ∀ inside rest, Complete inside → (∀ front, front <+: inside → 0 ≤ depth opener closer front) →
      depth opener closer inside = 0 →
      readAt (readGroup opener closer) (opener :: (inside ++ closer :: rest)) 0
        = some (inside, inside.length + 2) := by
  refine ⟨fun _ _ => readAt_isSome_iff hd, fun _ _ _ _ => ⟨groupAt_of_readAt hd, readAt_of_groupAt hd⟩, ?_⟩
  intro inside rest hcomplete hnonneg hzero
  exact readAt_of_depth hd hcomplete hnonneg hzero rest

end

end

/-- An escaped closer, a group, and a closer behind a backslash that is itself hidden. -/
def escapedInside : Text :=
  ['a', '\\', '}', '{', 'b', '\\', '\\', '}']

/-- A group whose inside hides a closer and holds a group of its own, which ends at a closer behind a
hidden backslash. It is read at the front of a text and further on, and the hidden closer ends nothing. -/
theorem group_iff_returns_escaped :
    Delimiters '{' '}'
    ∧ readAt (readGroup '{' '}') ('x' :: '{' :: (escapedInside ++ ['}', '}'])) 1 = some (escapedInside, 11)
    ∧ GroupAt '{' '}' ('x' :: '{' :: (escapedInside ++ ['}', '}'])) 1 escapedInside 11
    ∧ Complete escapedInside
    ∧ (∀ front, front <+: escapedInside → 0 ≤ depth '{' '}' front)
    ∧ depth '{' '}' escapedInside = 0
    ∧ readAt (readGroup '{' '}') ('{' :: (escapedInside ++ '}' :: ['}'])) 0 = some (escapedInside, 10) := by
  obtain ⟨-, hgroup, hwhole⟩ := group_iff_returns delimiters_braces
  have hread : readAt (readGroup '{' '}') ('x' :: '{' :: (escapedInside ++ ['}', '}'])) 1
      = some (escapedInside, 11) := by decide
  have hcomplete : Complete escapedInside :=
    .plain (by decide) (.hidden (.plain (by decide) (.plain (by decide) (.hidden (.plain (by decide) .nil)))))
  have hnonneg : ∀ front, front <+: escapedInside → 0 ≤ depth '{' '}' front := by
    intro front hfront
    have hall : ∀ front ∈ escapedInside.inits, 0 ≤ depth '{' '}' front := by decide
    exact hall front ((List.mem_inits _ _).mpr hfront)
  have hzero : depth '{' '}' escapedInside = 0 := by decide
  exact ⟨delimiters_braces, hread, (hgroup _ _ _ _).mp hread, hcomplete, hnonneg, hzero,
    hwhole escapedInside ['}'] hcomplete hnonneg hzero⟩

end MathScribe.Latex

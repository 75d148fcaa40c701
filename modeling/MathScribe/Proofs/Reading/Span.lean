/-
Texts that are one phrase, and texts that are put together from the end to the front.

Not every part of a formula is a formula of its own kind. An integrand is a sum, and what a big operator takes
is one term. `Spans` says that a text is such a phrase from end to end; it is then a formula as well.

Where an integral is open, a text cannot be put together from parts that are closed alone. So a text is built
from its end: an `Ending` is the end of a text inside the brackets that are open in front of it, all of which
are closed behind it. What may stand in front of an ending is a symbol, which may open an integral
(`Ending.word`), a formula in parentheses (`Ending.group`), or outside of all integrals any ending with a blank
behind it (`Ending.spaced`).
-/
import MathScribe.Proofs.Reading.Bounds
import MathScribe.Proofs.Reading.Composition
import MathScribe.Proofs.Reading.Continuation

set_option autoImplicit false

namespace MathScribe

/-! ## Texts that are one phrase -/

/-- A text that is one phrase from end to end: its tokens are those of the row, and the reader makes the whole
row the phrase. -/
structure Spans (phrase : Phrase) (text : Text) (row : List Symbol) (tree : Expr) : Prop where
  tokens : ∃ tokens, tokenize text = .ok tokens ∧ tokens.map Token.symbol = row
  whole : read (readingBound row) phrase row = .ok (tree, [])

/-- What is one term from end to end is one sum from end to end: nothing is left to be added. -/
theorem Reads.additive_of_term {row : List Symbol} {tree : Expr} (h : Reads .term row tree []) :
    Reads .additive row tree [] :=
  .additive h (.additiveEnd rfl)

/-- What is one sum from end to end is one relation from end to end: nothing is left to compare it with.
-/
theorem Reads.relation_of_additive {row : List Symbol} {tree : Expr} (h : Reads .additive row tree []) :
    Reads .relation row tree [] :=
  .relation h (.relationEnd rfl)

namespace Spans

variable {phrase : Phrase} {text : Text} {row : List Symbol} {tree : Expr}

/-- What spans a text is read from its row. -/
theorem reads (h : Spans phrase text row tree) : Reads phrase row tree [] := by
  have hneed : readingNeed phrase row ≤ readingBound row := by
    have hrank : phrase.rank ≤ 7 := by cases phrase <;> simp [Phrase.rank]
    simp only [readingNeed, readingBound]
    omega
  exact (read_eq_ok_iff hneed).mp h.whole

/-- A text that is one sum is a formula. -/
theorem formula_of_additive (h : Spans .additive text row tree) : Formula text row tree :=
  ⟨closedRow?_eq_some_iff_tokenize.mpr h.tokens, h.reads.relation_of_additive⟩

/-- A text that is one term is a formula. -/
theorem formula_of_term (h : Spans .term text row tree) : Formula text row tree :=
  ⟨closedRow?_eq_some_iff_tokenize.mpr h.tokens, h.reads.additive_of_term.relation_of_additive⟩

end Spans

/-! ## A text that is read is not nested too deep -/

namespace Closing

/-- A symbol that is taken changes the depth by its weight, and never beyond what is allowed. -/
theorem takeFree_depth {state next : Closing} {symbol : Symbol} {out : List Symbol}
    (h : state.takeFree symbol = some (out, next)) (hdepth : state.depth ≤ maxNesting) :
    next.depth = state.depth + symbol.weight ∧ next.depth ≤ maxNesting := by
  cases symbol with
  | openParen =>
    simp only [takeFree] at h
    split at h
    · cases h
    · next hle =>
      cases h
      exact ⟨rfl, Int.not_lt.mp hle⟩
  | closeParen =>
    cases h
    exact ⟨rfl, Int.le_trans (Int.sub_le_self _ (by decide)) hdepth⟩
  | name text =>
    simp only [takeFree] at h
    repeat' split at h
    all_goals
      cases h
      exact ⟨(Int.add_zero _).symm, hdepth⟩
  | _ =>
    cases h
    exact ⟨(Int.add_zero _).symm, hdepth⟩

/-- A symbol changes the depth by its weight also when a held `d` is delivered in front of it, which has
no weight. -/
theorem take_depth {state next : Closing} {symbol : Symbol} {out : List Symbol}
    (h : state.take symbol = some (out, next)) (hdepth : state.depth ≤ maxNesting) :
    next.depth = state.depth + symbol.weight ∧ next.depth ≤ maxNesting := by
  cases hheld : state.held with
  | false => exact takeFree_depth (take_of_free hheld symbol ▸ h) hdepth
  | true =>
    by_cases hname : ∃ text, symbol = .name text
    · obtain ⟨text, rfl⟩ := hname
      rw [take_name_of_held hheld] at h
      cases h
      exact ⟨(Int.add_zero _).symm, hdepth⟩
    · rw [take_of_held hheld fun text htext => hname ⟨text, htext⟩] at h
      obtain ⟨⟨_, next⟩, hfree, heq⟩ := Option.map_eq_some_iff.mp h
      cases heq
      exact @takeFree_depth state.release _ _ _ hfree hdepth

/-- A row that is closed opens no parenthesis one level too many. -/
theorem greatestDepth_of_close? {raw : List Symbol} : ∀ {state : Closing} {row : List Symbol},
    state.close? raw = some row → state.depth ≤ maxNesting →
      greatestDepth Symbol.weight state.depth raw ≤ maxNesting := by
  induction raw with
  | nil => exact fun _ hdepth => hdepth
  | cons symbol raw ih =>
    intro state row h hdepth
    obtain ⟨out, next, more, htake, hmore, -⟩ := close?_cons_eq_some h
    obtain ⟨hweight, hnext⟩ := take_depth htake hdepth
    exact greatestDepth_cons_le_iff.mpr ⟨hdepth, hweight ▸ ih hmore hnext⟩

end Closing

/-! ## The end of a text -/

/-- The end of a text inside brackets: its symbols are closed to the row, all brackets are closed behind it, and
its parentheses are nested no deeper than is read. -/
structure Ending (stack : List Bracket) (text : Text) (row : List Symbol) : Prop where
  closes : ∃ raw, symbolsOf text = some raw ∧ Closes stack raw row []
    ∧ greatestDepth Symbol.weight (Closing.depthOf stack) raw ≤ maxNesting

/-- A formula is an ending outside of all brackets. -/
theorem Formula.ending {text : Text} {row : List Symbol} {tree : Expr} (h : Formula text row tree) :
    Ending [] text row := by
  obtain ⟨raw, hraw, hcloses⟩ := h.closes
  have hclosed : Closing.initial.close? raw = some row := by
    have hrow := h.closed
    rw [closedRow?, hraw] at hrow
    exact hrow
  exact ⟨raw, hraw, hcloses, Closing.greatestDepth_of_close? hclosed (by decide)⟩

namespace Ending

variable {stack stack' : List Bracket} {text behind : Text} {row out : List Symbol}

/-- A text is understood when it is an ending and its row is one relation. -/
theorem parse {tree : Expr} (h : Ending [] text row) (hreads : Reads .relation row tree []) :
    MathScribe.parse text = .ok tree :=
  Stretch.parse ⟨h.closes⟩ hreads

/-- A stretch is an ending outside of all brackets. -/
theorem of_stretch {bound : Int} (h : Stretch bound text row) (hbound : bound ≤ maxNesting) :
    Ending [] text row :=
  ⟨(h.mono hbound).closes⟩

/-- White space in front of an ending changes nothing. -/
theorem blank (h : Ending stack text row) : Ending stack (' ' :: text) row := by
  obtain ⟨raw, hraw, hrest⟩ := h.closes
  exact ⟨raw, (symbolsOf_blank (by decide) text).trans hraw, hrest⟩

/-- A symbol that is neither a name nor a parenthesis, in front of an ending. -/
theorem cons {front : Text} {symbol : Symbol} (h : Ending stack' text row)
    (hsymbols : ∀ raw, symbolsOf text = some raw → symbolsOf (front ++ text) = some (symbol :: raw))
    (hname : symbol.startsWithName = false) (hweight : symbol.weight = 0)
    (hpass : symbol.pass? stack = some stack') : Ending stack (front ++ text) (symbol :: row) := by
  obtain ⟨raw, hraw, hcloses, hdepth⟩ := h.closes
  have hsame := Closing.depthOf_of_pass? hpass
  rw [hweight, Int.add_zero] at hsame
  refine ⟨_, hsymbols raw hraw, .symbol hname hpass hcloses, greatestDepth_cons_le_iff.mpr ?_⟩
  rw [hweight, Int.add_zero, hsame]
  exact ⟨Int.le_trans (le_greatestDepth _ raw) hdepth, hdepth⟩

/-- The word of an integral or of a big operator, in front of a mark or a blank. -/
theorem word {word : Text} {symbol : Symbol} {first : Char} (hword : IsWord word)
    (hsymbol : Symbol.ofWord word = symbol) (h : Ending stack' (first :: text) row)
    (hfirst : first.isAlphanum = false) (hname : symbol.startsWithName = false) (hweight : symbol.weight = 0)
    (hpass : symbol.pass? stack = some stack') : Ending stack (word ++ first :: text) (symbol :: row) := by
  refine h.cons (fun raw hraw => ?_) hname hweight hpass
  rw [symbolsOf_word hword hraw fun d hd => Option.some.inj hd ▸ hfirst, hsymbol]

/-- An operator in front of what does not go on with it. -/
theorem operator {op : Operator} (hop : op ∈ Operator.all) (h : Ending stack text row)
    (hends : ∀ d ∈ text.head?, op.symbol.goesOnWith d = false) :
    Ending stack (op.text ++ text) (op.symbol :: row) := by
  have hall : ∀ op ∈ Operator.all, op.symbol.startsWithName = false ∧ op.symbol.weight = 0
      ∧ op.symbol.isNeutral = true := by
    decide
  obtain ⟨hname, hweight, hneutral⟩ := hall op hop
  exact h.cons (fun _ hraw => symbolsOf_operator op hop hraw hends) hname hweight
    (Symbol.pass?_of_isNeutral hneutral stack)

/-- An operator with blanks around it. -/
theorem spacedOperator {op : Operator} (hop : op ∈ Operator.all) (h : Ending stack text row) :
    Ending stack (' ' :: (op.text ++ ' ' :: text)) (op.symbol :: row) := by
  refine (h.blank.operator hop fun d hd => ?_).blank
  cases hd
  exact op.symbol.not_goesOnWith_of_mem (by decide)

/-- **A formula in parentheses** in front of an ending, where no other parenthesis is open. -/
theorem group {a : Text} {rowA : List Symbol} (ha : Stretch 99 a rowA) (h : Ending stack behind out)
    (hstack : Closing.depthOf stack = 0) :
    Ending stack (grouped a ++ behind) (encloseIf true rowA ++ out) := by
  obtain ⟨rawA, hrawA, hclosesA, hdepthA⟩ := ha.closes
  obtain ⟨raw, hraw, hcloses, hdepth⟩ := h.closes
  refine ⟨encloseIf true rawA ++ raw, ?_, hclosesA.group hcloses, ?_⟩
  · rw [symbolsOf_append_of_seam (.inl ⟨')', getLast?_grouped a, rfl⟩), symbolsOf_grouped hrawA, hraw]
    rfl
  · have hmax : maxNesting = 100 := rfl
    rw [hclosesA.greatestDepth_group]
    omega

/-- **A script in parentheses** in front of an ending. -/
theorem script {op : Operator} (hop : op = .subscript ∨ op = .power) {a : Text} {rowA : List Symbol}
    (ha : Stretch 99 a rowA) (h : Ending stack behind out) (hstack : Closing.depthOf stack = 0) :
    Ending stack (op.text ++ (grouped a ++ behind)) (op.symbol :: (encloseIf true rowA ++ out)) := by
  refine (h.group ha hstack).operator ?_ fun d _ => ?_
  all_goals rcases hop with rfl | rfl
  · decide
  · decide
  · rfl
  · rfl

/-- **An ending in front of another one**, outside of all brackets and with a blank between them. -/
theorem spaced (h : Ending [] text row) (hbehind : Ending [] (' ' :: behind) out) :
    Ending [] (text ++ ' ' :: behind) (row ++ out) := by
  obtain ⟨raw, hraw, hcloses, hdepth⟩ := h.closes
  obtain ⟨raw', hraw', hcloses', hdepth'⟩ := hbehind.closes
  have hsum : (raw.map Symbol.weight).sum = 0 := by simpa [Closing.depthOf] using hcloses.weight
  refine ⟨raw ++ raw', symbolsOf_append_cons (by decide) hraw hraw', hcloses.append hcloses' (by simp), ?_⟩
  rw [greatestDepth_append, hsum, Int.add_zero]
  exact Int.max_le.mpr ⟨hdepth, hdepth'⟩

end Ending

end MathScribe

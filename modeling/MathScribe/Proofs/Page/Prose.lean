/-
Prose on a page.

Nothing on a page tells prose from formulas but the backslash: every word and every number of the prose is a
fragment, and is brought into its normal form, read and written like any other formula. This file shows that
all of it comes back as it was. A run of letters and digits is a number, a word, or a number with a word
behind it (`exists_number_word`); where such a run can be read at all, its tree is written as the run again
(`render_of_parse_run`), and where it cannot be read, it is left alone.

The second half is about delimited regions. Cutting starts afresh behind a region, and a run in front of the
region ends at the backslash, so what a page becomes is put together from the prose in front of a region, the
formula in the region, and the page behind it (`pageText_region`). As conversions do not see what the cache
remembers, this holds of converters in any states that conversions lead to (`prose_untouched`).
-/
import MathScribe.Proofs.Conversion.Memo
import MathScribe.Proofs.Latex.Names
import MathScribe.Proofs.Page.Partition

set_option autoImplicit false

namespace MathScribe

/-! ## A run of letters and digits -/

/-- A run of letters and digits is a number, possibly empty, with at most one word behind it. -/
theorem exists_number_word {run : Text} (hrun : ∀ c ∈ run, c.isAlphanum = true) :
    ∃ digits word, run = digits ++ word ∧ (∀ c ∈ digits, c.isDigit = true)
      ∧ (word = [] ∨ IsWord word) := by
  refine ⟨run.takeWhile Char.isDigit, run.dropWhile Char.isDigit, List.takeWhile_append_dropWhile.symm,
    List.all_eq_true.mp List.all_takeWhile, ?_⟩
  cases hword : run.dropWhile Char.isDigit with
  | nil => exact .inl rfl
  | cons c rest =>
    have hsuffix : c :: rest <:+ run := hword ▸ List.dropWhile_suffix _
    have hdigit : c.isDigit = false := by
      have := List.head?_dropWhile_not Char.isDigit run
      simpa [hword] using this
    have hc : c.isAlphanum = true := hrun c (hsuffix.mem List.mem_cons_self)
    exact .inr ⟨c, rest, rfl, by simpa [Char.isAlphanum, hdigit] using hc,
      fun d hd => hrun d (hsuffix.mem (List.mem_cons_of_mem c hd))⟩

/-- Digits alone are a number. -/
theorem numberText_of_digits {digits : Text} (h : ∀ c ∈ digits, c.isDigit = true) :
    Symbol.NumberText digits :=
  .whole fun c hc => isDecimalDigit_of_isDigit (h c hc)

/-- A run of letters and digits is its own normal form. -/
theorem normalize_run {run : Text} (hrun : ∀ c ∈ run, c.isAlphanum = true) :
    Latex.normalize run = run := by
  have hplain : ∀ c ∈ run, c ≠ '\\' ∧ Latex.isPad c = false :=
    fun c hc => Latex.not_pad_of_isAlphanum (hrun c hc)
  have hpass : ∀ {find : Text → Option Text} {replacement : Text}, Latex.Pass find →
      replaceAll find replacement run = run := by
    intro find replacement hp
    have h : replaceAll find replacement (run ++ []) = run ++ replaceAll find replacement [] :=
      hp.replaceAll_plain_append hplain []
    rwa [List.append_nil, replaceAll_nil, List.append_nil] at h
  have hprepare : Latex.prepare run = run := by
    rw [Latex.prepare, hpass Latex.sizing_pass, hpass Latex.spacing_pass]
  have hnormal : Latex.normalTo 65 (run ++ []) = run ++ Latex.normalTo 65 [] :=
    Latex.normalTo_plain_append 64 (fun c hc => ⟨(hplain c hc).1, by rintro rfl; cases hrun _ hc⟩) []
  rw [Latex.normalTo_nil, List.append_nil] at hnormal
  rw [Latex.normalize_eq, hprepare]
  exact hnormal

/-! ## What a run is read as -/

/-- A word alone is read as a name, if it can be read. -/
theorem readSymbols_word {word : Text} {tree : Expr} (h : readSymbols [.ofWord word] = .ok tree) :
    tree = .name word := by
  rcases Symbol.ofWord_cases word with hword | ⟨op, hword, rfl⟩ | hword
  · rw [hword] at h
    cases h
  · rw [hword] at h
    cases h
    rfl
  · generalize Symbol.ofWord word = symbol at h hword
    cases hword with
    | plain =>
      cases h
      rfl
    | function hf =>
      cases h
      exact congrArg Expr.name hf
    | root hroot =>
      cases h
      exact congrArg Expr.name hroot

/-- A number with a word behind it is read as their product, if it can be read. A big operator cannot stand
behind a factor. -/
theorem readSymbols_number_word {digits word : Text} {tree : Expr}
    (h : readSymbols [.number digits, .ofWord word] = .ok tree) :
    tree = .juxtapose (.number digits) (.name word) := by
  rcases Symbol.ofWord_cases word with hword | ⟨op, hword, -⟩ | hword
  · rw [hword] at h
    cases h
  · rw [hword] at h
    cases h
  · generalize Symbol.ofWord word = symbol at h hword
    cases hword with
    | plain =>
      cases h
      rfl
    | function hf =>
      cases h
      rw [hf]
    | root hroot =>
      cases h
      rw [hroot]

/-- A word behind a number closes no integral. -/
theorem closeRow?_number_word (digits word : Text) :
    closeRow? [.number digits, .ofWord word] = some [.number digits, .ofWord word] := by
  rcases Symbol.ofWord_cases word with hword | ⟨op, hword, -⟩ | hword
  · rw [hword]
    rfl
  · rw [hword]
    rfl
  · generalize Symbol.ofWord word = symbol at hword
    cases hword <;> rfl

/-- The symbols of a word alone. -/
theorem closedRow?_word {word : Text} (hword : IsWord word) :
    closedRow? word = some [.ofWord word] := by
  have hsymbols := symbolsOf_word hword symbolsOf_nil (by simp)
  rw [List.append_nil] at hsymbols
  rw [closedRow?, hsymbols, Option.bind_some]
  exact Latex.closeRow?_words [word] (by simp)

section Number

variable {digits : Text} (hne : digits ≠ []) (hdigits : Symbol.NumberText digits)
include hne hdigits

/-- The symbols of a number alone. -/
theorem closedRow?_number : closedRow? digits = some [.number digits] := by
  have hsymbols := symbolsOf_number hne hdigits symbolsOf_nil (.of_apart (by simp) digits)
  rw [List.append_nil] at hsymbols
  rw [closedRow?, hsymbols, Option.bind_some]
  rfl

/-- The symbols of a number with a word behind it. -/
theorem closedRow?_number_word {word : Text} (hword : IsWord word) :
    closedRow? (digits ++ word) = some [.number digits, .ofWord word] := by
  have hbehind := symbolsOf_word hword symbolsOf_nil (by simp)
  rw [List.append_nil] at hbehind
  obtain ⟨c, rest, rfl, hc, -⟩ := hword
  have hends : ∀ d ∈ (c :: rest).head?, isDecimalDigit d = false ∧ d ≠ '.' := by
    intro d hd
    cases hd
    exact ⟨not_isDecimalDigit_of_isAlpha hc, by rintro rfl; cases hc⟩
  rw [closedRow?, symbolsOf_number hne hdigits hbehind (.of_apart hends digits), Option.bind_some]
  exact closeRow?_number_word digits (c :: rest)

end Number

/-- A number is written close to the word behind it. -/
theorem render_number_word {digits word : Text} (hword : IsWord word) :
    (Expr.juxtapose (.number digits) (.name word)).render = digits ++ word := by
  obtain ⟨c, rest, rfl, hc, -⟩ := hword
  have hdigit : c.isDigit = false := by
    refine Bool.eq_false_iff.mpr fun hdigit => ?_
    exact absurd (isDecimalDigit_of_isDigit hdigit) (by simp [not_isDecimalDigit_of_isAlpha hc])
  have hpoint : (c == '.') = false := by
    refine beq_eq_false_iff_ne.mpr ?_
    rintro rfl
    cases hc
  have hglue : canGlue (c :: rest) = true := by rw [canGlue, hdigit, hpoint]; rfl
  have hbeside : besideText (.name (c :: rest)) = c :: rest := rfl
  rw [Expr.render_juxtapose, hbeside, hglue]
  rfl

/-- **A run that is read is written as it was.** -/
theorem render_of_parse_run {run : Text} {tree : Expr} (hrun : ∀ c ∈ run, c.isAlphanum = true)
    (h : parse run = .ok tree) : tree.render? = some run := by
  obtain ⟨row, hclosed, hreads⟩ := parse_eq_ok_iff.mp h
  have hread : readSymbols row = .ok tree := readSymbols_eq_ok_iff.mpr hreads
  obtain ⟨digits, word, rfl, hdigits, hword⟩ := exists_number_word hrun
  rcases eq_or_ne digits [] with rfl | hne
  · rcases hword with rfl | hword
    · cases hclosed
      cases hread
    · rw [List.nil_append, closedRow?_word hword] at hclosed
      cases hclosed
      obtain rfl := readSymbols_word hread
      rfl
  · have hnumber : Symbol.NumberText digits := numberText_of_digits hdigits
    rcases hword with rfl | hword
    · rw [List.append_nil, closedRow?_number hne hnumber] at hclosed
      cases hclosed
      cases hread
      rw [List.append_nil]
      rfl
    · rw [closedRow?_number_word hne hnumber hword] at hclosed
      cases hclosed
      obtain rfl := readSymbols_number_word hread
      have hdepth : (Expr.juxtapose (.number digits) (.name word)).depth ≤ Expr.maxDepth := by
        change 2 ≤ Expr.maxDepth
        decide
      rw [Expr.render?, if_pos hdepth, render_number_word hword]

/-- What becomes of a run of letters and digits is the run. -/
theorem formulaText_run {run : Text} (hrun : ∀ c ∈ run, c.isAlphanum = true) : formulaText run = run := by
  rw [formulaText, normalize_run hrun]
  cases hrender : renderNormal? run with
  | none => rfl
  | some rendering =>
    obtain ⟨tree, htree, hrendering⟩ := renderNormal?_eq_some_iff.mp hrender
    rw [render_of_parse_run hrun htree] at hrendering
    exact (Option.some.inj hrendering).symm

/-! ## What a page becomes, stretch by stretch -/

namespace Fragment

/-- What becomes of a stretch, wherever it stands. -/
def stretchText (stretch : FragmentKind × Text) : Text :=
  converted ⟨stretch.2, 0, stretch.1⟩

/-- What a page becomes, whatever has been converted before. -/
def pageText (page : Text) : Text :=
  (stretches page).flatMap stretchText

/-- A literal stretch is left as it is. -/
theorem stretchText_literal (text : Text) : stretchText (.literal, text) = text :=
  rfl

/-- What fragments become does not depend on their places. -/
theorem flatMap_converted_place (start : Nat) (cut : List (FragmentKind × Text)) :
    (place start cut).flatMap converted = cut.flatMap stretchText := by
  induction cut generalizing start with
  | nil => rfl
  | cons stretch others ih =>
    obtain ⟨kind, text⟩ := stretch
    rw [place_cons, List.flatMap_cons, List.flatMap_cons, ih]
    rfl

/-- Joining literal neighbours changes nothing in what becomes of them. -/
theorem flatMap_stretchText_join (stretch : FragmentKind × Text) (others : List (FragmentKind × Text)) :
    (join stretch others).flatMap stretchText = stretchText stretch ++ others.flatMap stretchText := by
  unfold join
  split
  · simp [stretchText_literal]
  · rfl

/-- The fragments of a page become, in order, what its stretches become: joining literal characters
changes nothing. -/
theorem flatMap_converted_ofPage (page : Text) : (ofPage page).flatMap converted = pageText page := by
  rw [ofPage, flatMap_converted_place, pageText]
  induction stretches page with
  | nil => rfl
  | cons stretch others ih => rw [List.foldr_cons, flatMap_stretchText_join, List.flatMap_cons, ih]

/-- A page that starts with mathematics becomes what the mathematics becomes, and what the rest of the
page becomes. -/
theorem pageText_math {c : Char} {rest : Text} {reach : Nat} (h : mathReach? c rest = some reach) :
    pageText (c :: rest) = stretchText (.math, c :: rest.take reach) ++ pageText (rest.drop reach) := by
  rw [pageText, stretches_math h]
  rfl

/-- A literal character is copied. -/
theorem pageText_literal {c : Char} {rest : Text} (h : mathReach? c rest = none) :
    pageText (c :: rest) = c :: pageText rest := by
  rw [pageText, stretches_literal h]
  rfl

/-- A run of letters and digits in a fragment of its own. -/
theorem stretchText_run {run : Text} (hrun : ∀ c ∈ run, c.isAlphanum = true) :
    stretchText (.math, run) = run := by
  have hopens : opensRegion run = false := by
    cases run with
    | nil => rfl
    | cons c rest =>
      unfold opensRegion
      split
      · next heq =>
        obtain ⟨rfl, -⟩ := List.cons.inj heq
        exact absurd (hrun '\\' List.mem_cons_self) (by decide)
      · rfl
  have hbody : body ⟨run, 0, .math⟩ = run := by
    rw [body, hopens, Bool.and_false]
    rfl
  calc stretchText (.math, run)
    _ = formulaText (body ⟨run, 0, .math⟩) := rfl
    _ = run := by rw [hbody, formulaText_run hrun]

/-- **Prose stays as it is**, in front of the end of the page or of a backslash. The induction is on the
length of the prose, as a run is taken off its front at once. -/
theorem pageText_prose {prose behind : Text} (hprose : '\\' ∉ prose)
    (hbehind : ∀ d ∈ behind.head?, d.isAlphanum = false) :
    pageText (prose ++ behind) = prose ++ pageText behind := by
  induction hlength : prose.length using Nat.strongRecOn generalizing prose with
  | _ n ih =>
    subst hlength
    cases prose with
    | nil => rfl
    | cons c rest =>
      obtain ⟨hc, hrest⟩ := not_or.mp fun h => hprose (List.mem_cons.mpr h)
      by_cases hrun : c.isAlphanum = true
      · -- The run ends within the prose or at its end, since no run goes on behind it.
        obtain ⟨run, left, hsplit, hletters, hends⟩ : ∃ run left, rest = run ++ left
            ∧ (∀ d ∈ run, d.isAlphanum = true) ∧ ∀ d ∈ left.head?, d.isAlphanum = false :=
          ⟨_, _, List.takeWhile_append_dropWhile.symm, takeWhile_eq_iff.mp
            (congrArg (List.takeWhile Char.isAlphanum) List.takeWhile_append_dropWhile)⟩
        subst hsplit
        have hleft : ∀ d ∈ (left ++ behind).head?, d.isAlphanum = false := by
          cases left with
          | nil => exact hbehind
          | cons => exact hends
        have htake : (run ++ (left ++ behind)).takeWhile Char.isAlphanum = run :=
          takeWhile_eq_iff.mpr ⟨hletters, hleft⟩
        have hreach : mathReach? c (run ++ (left ++ behind)) = some run.length := by
          rw [mathReach?_of_ne (Ne.symm hc), if_pos hrun, htake]
        have hrest' : '\\' ∉ left := fun h => hrest (List.mem_append_right run h)
        rw [List.cons_append, List.append_assoc, pageText_math hreach, List.take_left, List.drop_left,
          stretchText_run (List.forall_mem_cons.mpr ⟨hrun, hletters⟩), ih _ ?_ hrest' rfl]
        · simp
        · simp only [List.length_cons, List.length_append]
          omega
      · rw [List.cons_append, pageText_literal (by rw [mathReach?_of_ne (Ne.symm hc), if_neg hrun]),
          ih _ (Nat.lt_succ_self _) hrest rfl, List.cons_append]

/-- The text of a delimited region, from its opening to its closing mark. -/
def regionSource (mark closer : Char) (formula : Text) : Text :=
  '\\' :: mark :: (formula ++ ['\\', closer])

/-- A formula without the closing mark of its region in it is split off in front of that mark. -/
theorem splitAt?_closer {closer : Char} (hcloser : closer ≠ '\\') {formula : Text}
    (hformula : ¬ ['\\', closer] <:+: formula) (behind : Text) :
    splitAt? ['\\', closer] (formula ++ '\\' :: closer :: behind) = some (formula, behind) := by
  induction formula with
  | nil => exact splitAt?_of_append ['\\', closer] rfl
  | cons c formula ih =>
    obtain ⟨hfront, hrest⟩ := not_or.mp fun h => hformula (List.infix_cons_iff.mpr h)
    have hprefix : ¬ ['\\', closer] <+: c :: (formula ++ '\\' :: closer :: behind) := by
      -- Only the backslash of the mark itself stands behind the last character of the formula.
      rintro ⟨more, hmore⟩
      obtain ⟨rfl, hbehind⟩ := List.cons.inj hmore
      cases formula with
      | nil => exact hcloser (List.cons.inj hbehind).1
      | cons d formula =>
        obtain ⟨rfl, -⟩ := List.cons.inj hbehind
        exact hfront ⟨formula, rfl⟩
    rw [List.cons_append, splitAt?_skip hprefix, ih hrest]
    rfl

/-- **A region becomes what its formula becomes**, and the page behind it what it becomes alone. -/
theorem pageText_region {mark closer : Char} (hcloser : regionCloser? mark = some closer) {formula : Text}
    (hformula : ¬ ['\\', closer] <:+: formula) (behind : Text) :
    pageText (regionSource mark closer formula ++ behind) = formulaText formula ++ pageText behind := by
  have hsource : regionSource mark closer formula ++ behind
      = '\\' :: mark :: (formula ++ '\\' :: closer :: behind) := by
    simp [regionSource]
  have hreach : mathReach? '\\' (mark :: (formula ++ '\\' :: closer :: behind))
      = some (formula.length + 3) := by
    rw [mathReach?_region hcloser, splitAt?_closer (regionCloser?_ne hcloser) hformula]
    rfl
  have hsplit : mark :: (formula ++ '\\' :: closer :: behind)
      = (mark :: (formula ++ ['\\', closer])) ++ behind := by
    simp
  have hlength : formula.length + 3 = (mark :: (formula ++ ['\\', closer])).length := by
    simp
  have hbody : body ⟨regionSource mark closer formula, 0, .math⟩ = formula :=
    body_region rfl hcloser rfl
  rw [hsource, pageText_math hreach, hsplit, hlength, List.take_left, List.drop_left]
  calc stretchText (.math, regionSource mark closer formula) ++ pageText behind
    _ = formulaText (body ⟨regionSource mark closer formula, 0, .math⟩) ++ pageText behind := rfl
    _ = formulaText formula ++ pageText behind := by rw [hbody]

end Fragment

/-! ## Converters that only convert -/

namespace Converter

/-- A converter in a state that requests without a `put` lead to: what its cache holds has been put there by
conversions. -/
def Reached (converter : Converter) : Prop :=
  ∃ requests pool name index, (∀ request ∈ requests, request.2.isPut = false)
    ∧ Pool.empty.carryOutAll requests = some pool
    ∧ pool.converter? name = some (index, converter)

/-- A converter that has only been used has a faithful cache. -/
theorem Reached.faithful {converter : Converter} (h : converter.Reached) : converter.cache.Faithful := by
  obtain ⟨requests, pool, name, index, hput, hrun, hconverter⟩ := h
  have hempty : Pool.empty.Faithful := fun cache hcache => by simp [Pool.empty] at hcache
  exact Pool.faithful_converter? (Pool.carryOutAll_faithful requests _ _ hempty hput hrun) hconverter

/-- Whatever a converter has converted before, a page becomes what its stretches become. -/
theorem Reached.convert {converter : Converter} (h : converter.Reached) (page : Text) :
    (converter.convert page).1 = Fragment.pageText page := by
  rw [convert_text h.faithful, Fragment.flatMap_converted_ofPage]

end Converter

/-- **Prose is untouched and regions are independent.** In every state that conversions lead to, a text
without a backslash is converted to itself. With a delimited region behind it and any text behind that, the
formula of the region and the text behind it become what converters in such states make of them alone. -/
theorem prose_untouched {prose : Text} (hprose : '\\' ∉ prose) :
    (∀ converter : Converter, converter.Reached → (converter.convert prose).1 = prose)
      ∧ ∀ (mark closer : Char) (formula behind : Text), Fragment.regionCloser? mark = some closer →
        ¬ ['\\', closer] <:+: formula →
        ∀ first second third : Converter, first.Reached → second.Reached → third.Reached →
          (first.convert (prose ++ Fragment.regionSource mark closer formula ++ behind)).1
            = prose ++ (second.convertFragment formula).1 ++ (third.convert behind).1 := by
  have hpage : ∀ behind : Text, (∀ d ∈ behind.head?, d.isAlphanum = false) →
      Fragment.pageText (prose ++ behind) = prose ++ Fragment.pageText behind :=
    fun behind hbehind => Fragment.pageText_prose hprose hbehind
  constructor
  · intro converter hreached
    have halone := hpage [] nofun
    rw [List.append_nil] at halone
    rw [hreached.convert, halone]
    exact List.append_nil prose
  · intro mark closer formula behind hcloser hformula first second third hfirst hsecond hthird
    have hmark : ∀ d ∈ (Fragment.regionSource mark closer formula ++ behind).head?,
        d.isAlphanum = false := by
      intro d hd
      cases hd
      decide
    rw [hfirst.convert, hthird.convert, (Converter.convertFragment_spec hsecond.faithful formula).1,
      List.append_assoc, hpage _ hmark, Fragment.pageText_region hcloser hformula, List.append_assoc]

/-- A page with words, a number glued to a word and a region, met by a converter that has just failed on the
word of an integral, as it stands in the prose of the page. -/
theorem prose_untouched_region :
    ∃ converter : Converter, converter.Reached ∧ converter.parseCount = 2
      ∧ (converter.convert "2int x2, the int: \\(\\frac{1}{2}\\) of 3 lim \\( it".toList).1
        = "2int x2, the int: ".toList ++ (converter.convertFragment "\\frac{1}{2}".toList).1
          ++ (converter.convert " of 3 lim \\( it".toList).1 := by
  obtain ⟨pool, converter, hrun, hconverter, hcount⟩ : ∃ pool converter,
      Pool.empty.carryOutAll [("a", .setUp none), ("a", .convert "int 2".toList)] = some pool
        ∧ pool.converter? "a" = some (0, converter) ∧ converter.parseCount = 2 :=
    ⟨_, _, rfl, rfl, rfl⟩
  have hreached : converter.Reached := ⟨_, pool, "a", 0, by decide, hrun, hconverter⟩
  have hprose : '\\' ∉ "2int x2, the int: ".toList := by decide
  exact ⟨converter, hreached, hcount, (prose_untouched hprose).2 '(' ')' "\\frac{1}{2}".toList
    " of 3 lim \\( it".toList rfl (by decide) converter converter converter hreached hreached hreached⟩

end MathScribe

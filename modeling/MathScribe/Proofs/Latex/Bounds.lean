/-
Bounds in braces.

In LaTeX the bounds of an integral and the scripts of a sum or a product stand in braces. The normal form
drops the braces and writes nothing in their place, so a bound ends where the reader takes it to end
(`normalize_scripts`). A bound that is one phrase of the grammar stays what it is. Of any other one the
reader takes a part, and the rest drifts into the integrand or out of the operator (`bounds_drift`).

`bounds_in_place_iff` says that this is all that can happen: the tree of the whole has the tree of each bound
in its place exactly when each bound is one phrase in front of what follows it. A differential does not get
in the way. A bound may have names in it that pass for the differential of the integral around it, but then
the whole is not understood, or the bound is not one phrase either.

Whoever wants a bound to keep its place can write a second pair of braces around it: the inner ones become
parentheses, and what stands in parentheses is one phrase (`braced_bounds_in_place`).
-/
import MathScribe.Proofs.Latex.Arrow
import MathScribe.Proofs.Latex.Names
import MathScribe.Proofs.Reading.Bounds

set_option autoImplicit false

namespace MathScribe.Latex

/-! ## Texts in braces -/

/-- A text in braces. -/
def braced (text : Text) : Text :=
  '{' :: (text ++ ['}'])

/-- A text in braces in front of another one, brace by brace. -/
theorem braced_append (text behind : Text) : braced text ++ behind = '{' :: (text ++ '}' :: behind) := by
  simp [braced]

/-- A pass of the preparation does not look through braces: it works on the inside of a group and on what
follows, each for itself. -/
theorem Pass.replaceAll_braced {find : Text → Option Text} {replacement : Text} (hp : Pass find)
    (text behind : Text) :
    replaceAll find replacement (braced text ++ behind)
      = braced (replaceAll find replacement text) ++ replaceAll find replacement behind := by
  rw [braced_append, braced_append, hp.replaceAll_plain (by decide) (by decide), hp.replaceAll_append (behind_closer _),
    hp.replaceAll_plain (by decide) (by decide)]

/-- The first two passes treat a text in braces apart. -/
theorem prepare_braced_append (text behind : Text) :
    prepare (braced text ++ behind) = braced (prepare text) ++ prepare behind := by
  rw [prepare, sizing_pass.replaceAll_braced, spacing_pass.replaceAll_braced, prepare, prepare]

/-- The sizing and spacing passes keep a group that stands alone. -/
theorem prepare_braced (text : Text) : prepare (braced text) = braced (prepare text) := by
  have happend := prepare_braced_append text []
  rwa [prepare_nil, List.append_nil, List.append_nil] at happend

/-- Braces become parentheses. What they hold has one level less. -/
theorem normalize_braced_eq {text : Text} (h : Balanced (prepare text)) :
    normalize (braced text) = parenthesized (normalTo 64 (prepare text)) := by
  rw [normalize_eq, prepare_braced, braced, maxLevels, normalTo_cons, Piece.read_group h, normalTo_nil,
    List.append_nil]
  rfl

/-! ## The normal form of an operator with scripts -/

/-- An operator with a subscript and a superscript in braces, in front of a text. -/
def scriptsSource (name lower upper behind : Text) : Text :=
  '\\' :: (name ++ '_' :: '{' :: (lower ++ '}' :: '^' :: '{' :: (upper ++ '}' :: behind)))

section

variable {name lower upper behind : Text}

/-- A big operator's macro is a row of letters, is none of the words that are dropped or replaced, and is
no fraction and no root. The rows of the table are gone through. -/
theorem bigOperatorMacros_spec : ∀ name ∈ bigOperatorMacros,
    name ≠ [] ∧ (∀ c ∈ name, c.isAlpha = true) ∧ IsPlainMacro name ∧ wordOf? name = none
      ∧ name ∉ fractionMacros ∧ name ≠ rootMacro := by
  simp only [← List.all_eq_true]
  decide +kernel

/-- A big operator with both scripts, brace by brace. -/
theorem scriptsSource_eq (name lower upper behind : Text) :
    scriptsSource name lower upper behind
      = '\\' :: (name ++ '_' :: (braced lower ++ '^' :: (braced upper ++ behind))) := by
  simp [scriptsSource, braced]

/-- The first two passes treat the scripts of an operator apart. -/
theorem prepare_scripts (hname : name ∈ bigOperatorMacros) :
    prepare (scriptsSource name lower upper behind)
      = scriptsSource name (prepare lower) (prepare upper) (prepare behind) := by
  obtain ⟨hne, hletters, hplain, -⟩ := bigOperatorMacros_spec name hname
  rw [scriptsSource_eq, scriptsSource_eq,
    prepare_command ⟨hne, hletters, rfl⟩ hplain ⟨'_', _, rfl, by decide, by decide⟩,
    prepare_cons (by decide) (by decide), prepare_braced_append, prepare_cons (by decide) (by decide), prepare_braced_append]

/-- A mark with a balanced group is read as the script inside the group. -/
theorem readMarked_group {mark : Char} {inside : Text} (h : Balanced inside) (left : Text) :
    readMarked mark (mark :: '{' :: (inside ++ '}' :: left)) = some (inside, left) :=
  readMarked_eq_some_iff.mpr ⟨.group inside, rfl, by simp [Script.source], h⟩

/-- The scripts lose their braces. -/
theorem normalTo_scripts (levels : Nat) (hname : name ∈ bigOperatorMacros) (hlower : Balanced lower)
    (hupper : Balanced upper) :
    normalTo (levels + 1) (scriptsSource name lower upper behind)
      = name ++ '_' :: (normalTo levels lower
        ++ '^' :: (normalTo levels upper ++ normalTo (levels + 1) behind)) := by
  obtain ⟨hne, hletters, -, hword, hfraction, hroot⟩ := bigOperatorMacros_spec name hname
  have hscripts : readScripts ('_' :: '{' :: (lower ++ '}' :: '^' :: '{' :: (upper ++ '}' :: behind)))
      = (⟨some lower, some upper⟩, behind) := by
    unfold readScripts
    rw [readMarked_group hlower]
    dsimp only
    rw [readMarked_group hupper]
  have hmade : Piece.ofMacro? name ('_' :: '{' :: (lower ++ '}' :: '^' :: '{' :: (upper ++ '}' :: behind)))
      = some (.bigOperator name ⟨some lower, some upper⟩, behind) := by
    simp only [Piece.ofMacro?, hword, hfraction, hroot, hname, if_false, if_true, hscripts]
  rw [scriptsSource, normalTo_command levels ⟨hne, hletters, rfl⟩ hmade]
  simp [Piece.normal]

/-- A text whose normal form can be read one level below the top has the same normal form at the top. -/
theorem normalize_of_clean {text : Text} (h : Clean (normalTo 64 (prepare text))) :
    normalTo 64 (prepare text) = normalize text :=
  (normalTo_eq_of_clean (by decide) h).symm

/-- The scripts have one level less than they have alone. -/
theorem normalize_scripts_eq (hname : name ∈ bigOperatorMacros) (hlower : Balanced (prepare lower))
    (hupper : Balanced (prepare upper)) :
    normalize (scriptsSource name lower upper behind)
      = name ++ '_' :: (normalTo 64 (prepare lower)
        ++ '^' :: (normalTo 64 (prepare upper) ++ normalize behind)) := by
  rw [normalize_eq, prepare_scripts hname]
  exact normalTo_scripts 64 hname hlower hupper

/-- **The normal form of an operator with scripts** has the normal forms of the scripts without their
braces, when all of it can be read. -/
theorem normalize_scripts (hname : name ∈ bigOperatorMacros) (hlower : Balanced (prepare lower))
    (hupper : Balanced (prepare upper)) (hwhole : Clean (normalize (scriptsSource name lower upper behind))) :
    normalize (scriptsSource name lower upper behind)
      = name ++ '_' :: (normalize lower ++ '^' :: (normalize upper ++ normalize behind)) := by
  -- One level less is enough, since the scripts can be read.
  rw [normalize_scripts_eq hname hlower hupper] at hwhole ⊢
  simp only [clean_append, clean_cons] at hwhole
  obtain ⟨-, -, hlower', -, hupper', -⟩ := hwhole
  rw [normalize_of_clean hlower', normalize_of_clean hupper']

end

/-! ## Braces around a script -/

/-- Braces become parentheses, when what they hold can be read. -/
theorem normalize_braced {text : Text} (hbalanced : Balanced (prepare text))
    (hclean : Clean (normalize (braced text))) :
    normalize (braced text) = parenthesized (normalize text) := by
  rw [normalize_braced_eq hbalanced] at hclean ⊢
  rw [normalize_of_clean (clean_parenthesized.mp hclean)]

/-- Braces inside the braces of the scripts become parentheses. -/
theorem normalize_scripts_braced {name lower upper behind : Text} (hname : name ∈ bigOperatorMacros)
    (hlower : Balanced (prepare lower)) (hupper : Balanced (prepare upper))
    (hwhole : Clean (normalize (scriptsSource name (braced lower) (braced upper) behind))) :
    normalize (scriptsSource name (braced lower) (braced upper) behind)
      = name ++ '_' :: (parenthesized (normalize lower)
        ++ '^' :: (parenthesized (normalize upper) ++ normalize behind)) := by
  have hbraced : ∀ {text}, Balanced (prepare text) → Balanced (prepare (braced text)) := by
    intro text h
    rw [prepare_braced]
    exact h.group
  have hnormal := normalize_scripts hname (hbraced hlower) (hbraced hupper) hwhole
  rw [hnormal] at hwhole ⊢
  simp only [clean_append, clean_cons] at hwhole
  obtain ⟨-, -, hlower', -, hupper', -⟩ := hwhole
  rw [normalize_braced hlower hlower', normalize_braced hupper hupper']

/-! ## What stands behind the scripts -/

/-- An integral with both bounds in braces, a name for the integrand and a variable. -/
def integralSource (lower upper c v : Text) : Text :=
  scriptsSource integralWord lower upper (' ' :: (c ++ ' ' :: '\\' :: ',' :: ' ' :: 'd' :: ' ' :: v))

/-- A big operator with both scripts in braces, and a name behind them. -/
def bigOperatorSource (op : BigOperator) (lower upper c : Text) : Text :=
  scriptsSource op.text lower upper (' ' :: c)

/-- Every big operator but the limit has a macro of its own name. -/
theorem text_mem_bigOperatorMacros {op : BigOperator} (h : op ≠ .lim) : op.text ∈ bigOperatorMacros := by
  cases op with
  | lim => exact absurd rfl h
  | sum | prod => decide

section

variable {c v : Text}

/-- A plain name holds neither a backslash nor a space. -/
theorem not_pad_of_plainName (h : PlainName c) : ∀ d ∈ c, d ≠ '\\' ∧ isPad d = false :=
  fun d hd => not_pad_of_isAlphanum (h.isAlphanum d hd)

/-- A plain name holds no brace. -/
theorem clean_of_plainName (h : PlainName c) : Clean c := by
  intro d hd
  have hd := h.isAlphanum d hd
  refine ⟨?_, ?_, ?_⟩ <;> rintro rfl <;> cases hd

/-- A pass leaves a name alone. -/
theorem Pass.replaceAll_name {find : Text → Option Text} {replacement : Text} (hp : Pass find)
    (hc : PlainName c) : replaceAll find replacement c = c := by
  have happend : replaceAll find replacement (c ++ []) = c ++ replaceAll find replacement [] :=
    hp.replaceAll_plain_append (not_pad_of_plainName hc) []
  rwa [List.append_nil, replaceAll_nil, List.append_nil] at happend

/-- No space is made between a blank and a name. -/
theorem findSpacing_blank_name (hc : PlainName c) (rest : Text) :
    findSpacing (' ' :: (c ++ rest)) = none := by
  obtain ⟨first, others, rfl, -, -⟩ := hc.word
  obtain ⟨hslash, hpad⟩ := not_pad_of_plainName hc first List.mem_cons_self
  rw [findSpacing_blank]
  exact spacing_pass.plain first _ hslash hpad

/-- A text without backslashes and braces is its own normal form. -/
theorem normalTo_of_clean (levels : Nat) {text : Text} (h : Clean text) :
    normalTo (levels + 1) text = text := by
  have hone := normalTo_one_of_clean h
  rw [← hone] at h
  rw [normalTo_eq_of_clean (Nat.le_add_left 1 levels) h, hone]

/-- A name behind a blank stays as it is. -/
theorem normalize_name (hc : PlainName c) : normalize (' ' :: c) = ' ' :: c := by
  have hblank := findSpacing_blank_name hc []
  rw [List.append_nil] at hblank
  have hprepare : prepare (' ' :: c) = ' ' :: c := by
    rw [prepare, replaceAll_of_none (findSizing_blank _), sizing_pass.replaceAll_name hc,
      replaceAll_of_none hblank, spacing_pass.replaceAll_name hc]
  rw [normalize_eq, hprepare]
  exact normalTo_of_clean 64 (clean_cons.mpr ⟨by decide, clean_of_plainName hc⟩)

/-- The room in front of a differential becomes one blank. -/
theorem normalize_integrand (hc : PlainName c) (hv : PlainName v) :
    normalize (' ' :: (c ++ ' ' :: '\\' :: ',' :: ' ' :: 'd' :: ' ' :: v))
      = ' ' :: (c ++ ' ' :: 'd' :: ' ' :: v) := by
  have hmark : ∀ rest, findSizing ('\\' :: ',' :: rest) = none := fun rest => by
    simp [findSizing, dropMacro?, dropStart?_cons]
  have hroom : findSpacing (' ' :: '\\' :: ',' :: ' ' :: 'd' :: ' ' :: v) = some ('d' :: ' ' :: v) :=
    rfl
  have hblank := findSpacing_blank_name hv []
  rw [List.append_nil] at hblank
  have hprepare : prepare (' ' :: (c ++ ' ' :: '\\' :: ',' :: ' ' :: 'd' :: ' ' :: v))
      = ' ' :: (c ++ ' ' :: 'd' :: ' ' :: v) := by
    unfold prepare
    -- The first pass finds nothing, and the second one the room in front of the differential.
    rw [replaceAll_of_none (findSizing_blank _),
      sizing_pass.replaceAll_plain_append (not_pad_of_plainName hc),
      replaceAll_of_none (findSizing_blank _), replaceAll_of_none (hmark _),
      sizing_pass.replaceAll_plain (by decide) (by decide), replaceAll_of_none (findSizing_blank _),
      sizing_pass.replaceAll_plain (by decide) (by decide), replaceAll_of_none (findSizing_blank _),
      sizing_pass.replaceAll_name hv]
    rw [replaceAll_of_none (findSpacing_blank_name hc _),
      spacing_pass.replaceAll_plain_append (not_pad_of_plainName hc),
      replaceAll_of_some spacing_pass.shortens hroom,
      spacing_pass.replaceAll_plain (by decide) (by decide), replaceAll_of_none hblank,
      spacing_pass.replaceAll_name hv]
    rfl
  have hclean : Clean (' ' :: (c ++ ' ' :: 'd' :: ' ' :: v)) := by
    simp only [clean_cons, clean_append]
    exact ⟨by decide, clean_of_plainName hc, by decide, by decide, by decide, clean_of_plainName hv⟩
  rw [normalize_eq, hprepare]
  exact normalTo_of_clean 64 hclean

end

/-! ## Bounds in their places -/

/-- In front of the symbol a text is one phrase, which ends neither within the text nor behind it. -/
def StandsAsOne (phrase : Phrase) (text : Text) (next : Symbol) : Prop :=
  ∃ row, closedRow? text = some row ∧ IsOne phrase row next

/-- Standing as one phrase depends on the symbols of a text alone. -/
theorem standsAsOne_iff {phrase : Phrase} {text : Text} {next : Symbol} {row : List Symbol} {tree : Expr}
    (h : Formula text row tree) : StandsAsOne phrase text next ↔ IsOne phrase row next := by
  constructor
  · rintro ⟨row', hclosed, hone⟩
    cases h.closed.symm.trans hclosed
    exact hone
  · intro hone
    exact ⟨row, h.closed, hone⟩

/-- **Bounds in braces keep their place exactly when each of them is one phrase.** When an integral with
bounds is understood, and so are the bounds alone, then its tree has the trees of the bounds and the
integrand in their places if and only if the normal form of the lower bound is one bound in front of a
caret, and that of the upper bound is one bound in front of the integrand. In a sum or a product the lower
script has to be one primary in front of the caret, and the upper one a factor in front of what follows. -/
theorem bounds_in_place_iff {lower upper c v : Text} {a b : Expr} (hA : parse (normalize lower) = .ok a)
    (hB : parse (normalize upper) = .ok b) (hc : PlainName c) (hv : PlainName v) :
    (∀ tree, parse (normalize (integralSource lower upper c v)) = .ok tree →
      (tree = .call integralWord [.name c, .name v, a, b]
        ↔ StandsAsOne .bound (normalize lower) .caret
          ∧ StandsAsOne .bound (normalize upper) (.name c)))
    ∧ ∀ op tree, op ≠ .lim → parse (normalize (bigOperatorSource op lower upper c)) = .ok tree →
      (tree = .juxtapose (.scripted op a b) (.name c)
        ↔ StandsAsOne .primary (normalize lower) .caret
          ∧ StandsAsOne .factor (normalize upper) (.name c)) := by
  obtain ⟨rowA, hA⟩ := parse_eq_ok_iff_formula.mp hA
  obtain ⟨rowB, hB⟩ := parse_eq_ok_iff_formula.mp hB
  have hlower : Balanced (prepare lower) := balanced_of_clean hA.clean
  have hupper : Balanced (prepare upper) := balanced_of_clean hB.clean
  simp only [standsAsOne_iff hA, standsAsOne_iff hB]
  constructor
  · intro tree htree
    obtain ⟨row, h⟩ := parse_eq_ok_iff_formula.mp htree
    have hclean := h.clean
    rw [integralSource, normalize_scripts (by decide) hlower hupper hclean,
      normalize_integrand hc hv] at h
    exact hA.part.integral_iff hB.part hc hv h
  · intro op tree hop htree
    obtain ⟨row, h⟩ := parse_eq_ok_iff_formula.mp htree
    have hclean := h.clean
    rw [bigOperatorSource, normalize_scripts (text_mem_bigOperatorMacros hop) hlower hupper hclean,
      normalize_name hc] at h
    exact hA.part.bigOperator_iff hB.part hc h

/-- A minus in front of an upper bound: `\int_{0}^{-n} c \, d v`, and `\sum_{0}^{-n} c`. -/
theorem bounds_in_place_iff_negative :
    parse (normalize (integralSource ['0'] ['-', 'n'] ['c'] ['v']))
        = .ok (.call integralWord [.name ['c'], .name ['v'], .number ['0'], .unary .minus (.name ['n'])])
      ∧ (StandsAsOne .bound (normalize ['0']) .caret
        ∧ StandsAsOne .bound (normalize ['-', 'n']) (.name ['c']))
      ∧ parse (normalize (bigOperatorSource .sum ['0'] ['-', 'n'] ['c']))
        = .ok (.juxtapose (.scripted .sum (.number ['0']) (.unary .minus (.name ['n']))) (.name ['c']))
      ∧ StandsAsOne .primary (normalize ['0']) .caret
        ∧ StandsAsOne .factor (normalize ['-', 'n']) (.name ['c']) := by
  have hA : parse (normalize ['0']) = .ok (.number ['0']) := by cbv
  have hB : parse (normalize ['-', 'n']) = .ok (.unary .minus (.name ['n'])) := by cbv
  have hintegral : parse (normalize (integralSource ['0'] ['-', 'n'] ['c'] ['v']))
      = .ok (.call integralWord [.name ['c'], .name ['v'], .number ['0'], .unary .minus (.name ['n'])]) := by
    cbv
  have hsum : parse (normalize (bigOperatorSource .sum ['0'] ['-', 'n'] ['c']))
      = .ok (.juxtapose (.scripted .sum (.number ['0']) (.unary .minus (.name ['n']))) (.name ['c'])) := by
    cbv
  obtain ⟨hplace, hplaceSum⟩ :=
    bounds_in_place_iff hA hB (.letter (by decide) : PlainName ['c']) (.letter (by decide) : PlainName ['v'])
  exact ⟨hintegral, (hplace _ hintegral).mp rfl, hsum, (hplaceSum .sum _ (by decide) hsum).mp rfl⟩

/-- A product in an upper bound does not keep its place: of `\int_{0}^{2\pi} c \, d v` the integrand is the
product of `pi` and `c`, although every part is understood and is read back whole between braces. -/
theorem bounds_drift :
    ¬ ∀ (lower upper c v : Text) (a b : Expr),
      readBraces (braced lower) = some (lower, []) →
      readBraces (braced upper) = some (upper, []) →
      parse (normalize lower) = .ok a → parse (normalize upper) = .ok b →
      PlainName c → c ≠ ['d'] → Nesting.differentialOf? c = none → PlainName v →
      (∀ tree, parse (normalize (integralSource lower upper c v)) = .ok tree →
        tree = .call integralWord [.name c, .name v, a, b])
      ∧ ∀ op tree, op ≠ .lim → parse (normalize (bigOperatorSource op lower upper c)) = .ok tree →
        tree = .juxtapose (.scripted op a b) (.name c) := by
  intro h
  have hupper : parse (normalize "2\\pi".toList)
      = .ok (.juxtapose (.number ['2']) (.name ['p', 'i'])) := by
    cbv
  have hparse : parse (normalize (integralSource ['0'] "2\\pi".toList ['c'] ['v']))
      = .ok (.call integralWord [.juxtapose (.name ['p', 'i']) (.name ['c']), .name ['v'],
        .number ['0'], .number ['2']]) := by
    cbv
  have hname : ∀ letter, letter = 'c' ∨ letter = 'v' → PlainName [letter] := by
    rintro letter (rfl | rfl) <;> exact .letter (by decide)
  have hplace := (h ['0'] "2\\pi".toList ['c'] ['v'] (.number ['0']) _ rfl (by cbv) (by cbv) hupper
    (hname _ (.inl rfl)) (by decide) rfl (hname _ (.inr rfl))).1 _ hparse
  cases hplace

/-- **Bounds in two pairs of braces keep their place**, whatever they are: the inner braces become
parentheses. -/
theorem braced_bounds_in_place {lower upper c v : Text} {a b : Expr}
    (hA : parse (normalize lower) = .ok a) (hB : parse (normalize upper) = .ok b) (hc : PlainName c)
    (hv : PlainName v) :
    (∀ tree, parse (normalize (integralSource (braced lower) (braced upper) c v)) = .ok tree →
      tree = .call integralWord [.name c, .name v, a, b])
    ∧ ∀ op tree, op ≠ .lim →
      parse (normalize (bigOperatorSource op (braced lower) (braced upper) c)) = .ok tree →
      tree = .juxtapose (.scripted op a b) (.name c) := by
  obtain ⟨rowA, hA⟩ := parse_eq_ok_iff_formula.mp hA
  obtain ⟨rowB, hB⟩ := parse_eq_ok_iff_formula.mp hB
  have hlower : Balanced (prepare lower) := balanced_of_clean hA.clean
  have hupper : Balanced (prepare upper) := balanced_of_clean hB.clean
  constructor
  · intro tree htree
    obtain ⟨row, h⟩ := parse_eq_ok_iff_formula.mp htree
    have hclean := h.clean
    rw [integralSource, normalize_scripts_braced (by decide) hlower hupper hclean,
      normalize_integrand hc hv] at h
    exact (hA.part.parenthesized.integral_iff hB.part.parenthesized hc hv h).mpr
      ⟨isOne_group rfl hA.reads nofun, isOne_group rfl hB.reads nofun⟩
  · intro op tree hop htree
    obtain ⟨row, h⟩ := parse_eq_ok_iff_formula.mp htree
    have hclean := h.clean
    rw [bigOperatorSource, normalize_scripts_braced (text_mem_bigOperatorMacros hop) hlower hupper hclean,
      normalize_name hc] at h
    exact (hA.part.parenthesized.bigOperator_iff hB.part.parenthesized hc h).mpr
      ⟨isOne_group rfl hA.reads nofun, isOne_group rfl hB.reads fun _ => rfl⟩

end MathScribe.Latex

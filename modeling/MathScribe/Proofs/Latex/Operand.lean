/-
A fraction as one operand.

The normal form writes a fraction as two groups with a slash between them and nothing around them. So the
fraction is one operand of the tree where the reader looks for a term: there the slash joins the two groups
before anything else is joined to them (`fraction_mem_parts`). Elsewhere the numerator alone goes to what
stands in front of it, as behind a sign of division (`fraction_not_mem_parts`).
-/
import MathScribe.Proofs.Latex.Arrow
import MathScribe.Proofs.Reading.Differential

set_option autoImplicit false

namespace MathScribe.Latex

/-- No limit, no limit that takes the fraction away. -/
theorem ClearOfLimits.of_not_isInfix {front : Text} (fraction : Text)
    (h : ¬ ('\\' :: limitMacro) <:+: front) : ClearOfLimits front fraction := by
  rintro before after rfl
  exact absurd ⟨before, after, by simp⟩ h

/-- The normal form of a formula shows the quotient of a fraction in it, whose sides are read as they are
read alone. -/
theorem exists_quotientRow {front numerator denominator behind : Text}
    {row numeratorRow denominatorRow : List Symbol} {a b tree : Expr}
    (hn : Formula (normalize numerator) numeratorRow a)
    (hd : Formula (normalize denominator) denominatorRow b)
    (h : Formula (normalize (front ++ (fractionSource numerator denominator ++ behind))) row tree)
    (hclear : ClearOfLimits (prepare front)
      (fractionSource (prepare numerator) (prepare denominator) ++ prepare behind)) :
    ∃ before after, row = before ++ (quotientRow numeratorRow denominatorRow ++ after) := by
  have hnBalanced : Balanced (prepare numerator) := balanced_of_clean hn.clean
  have hdBalanced : Balanced (prepare denominator) := balanced_of_clean hd.clean
  have hclean := h.clean
  rw [normalize_eq, prepare_fraction, fractionSource_append] at hclean h
  rw [fractionSource_append] at hclear
  -- The quotient is shown with the normal forms of what the reader takes for the two sides.
  obtain ⟨upper, middle, lower, left, levels, hupper, hlower, hlevels, hupperClean, hlowerClean,
    before, first, second, after, hfirst, hsecond, htext⟩ := quoted rfl hclean hclear
  -- What it takes for them is what they are, since their normal forms are readable.
  have hnRead : readPaddedBraces ('{' :: (prepare numerator ++ '}' :: '{' ::
      (prepare denominator ++ '}' :: prepare behind)))
      = some (prepare numerator, '{' :: (prepare denominator ++ '}' :: prepare behind)) :=
    readPaddedBraces_eq_some_iff.mpr ⟨[], by simp [Padding], rfl, hnBalanced⟩
  have hdRead : readPaddedBraces ('{' :: (prepare denominator ++ '}' :: prepare behind))
      = some (prepare denominator, prepare behind) :=
    readPaddedBraces_eq_some_iff.mpr ⟨[], by simp [Padding], rfl, hdBalanced⟩
  rw [hnRead] at hupper
  cases hupper
  rw [hdRead] at hlower
  cases hlower
  -- More levels would not change them, and tightening their arrows does not.
  have hle : levels ≤ maxLevels := Nat.le_of_lt hlevels
  rw [← normalTo_eq_of_clean hle hupperClean] at hfirst
  rw [← normalTo_eq_of_clean hle hlowerClean] at hsecond
  rw [htext] at h
  obtain ⟨frontRow, backRow, rfl⟩ := (hn.tightened hfirst).quotient (hd.tightened hsecond) h
  exact ⟨frontRow, backRow, List.append_assoc ..⟩

/-- **A fraction is one operand wherever a term begins.** When a formula with a fraction in it is
understood, and so are the numerator and the denominator alone, then their rows stand in the row of the
formula as a quotient in parentheses; and where the reader looks for a term in front of such a quotient,
and no script follows, the tree has the quotient of their two trees as a part. -/
theorem fraction_mem_parts {front numerator denominator behind : Text} {a b tree : Expr}
    (hn : parse (normalize numerator) = .ok a) (hd : parse (normalize denominator) = .ok b)
    (h : parse (normalize (front ++ (fractionSource numerator denominator ++ behind))) = .ok tree)
    (hclear : ClearOfLimits (prepare front)
      (fractionSource (prepare numerator) (prepare denominator) ++ prepare behind)) :
    ∃ row numeratorRow denominatorRow,
      closedRow? (normalize (front ++ (fractionSource numerator denominator ++ behind))) = some row
      ∧ closedRow? (normalize numerator) = some numeratorRow
      ∧ closedRow? (normalize denominator) = some denominatorRow
      ∧ (∃ before after, row = before ++ (quotientRow numeratorRow denominatorRow ++ after))
      ∧ ∀ before after, row = before ++ (quotientRow numeratorRow denominatorRow ++ after) →
        TermAt before (quotientRow numeratorRow denominatorRow ++ after) →
        goesOn Symbol.isScriptMark after = false → .binary .dividedBy a b false ∈ tree.parts := by
  obtain ⟨numeratorRow, hn⟩ := parse_eq_ok_iff_formula.mp hn
  obtain ⟨denominatorRow, hd⟩ := parse_eq_ok_iff_formula.mp hd
  obtain ⟨row, h⟩ := parse_eq_ok_iff_formula.mp h
  refine ⟨row, numeratorRow, denominatorRow, h.closed, hn.closed, hd.closed,
    exists_quotientRow hn hd h hclear, ?_⟩
  rintro before after rfl hterm hafter
  exact hterm.quotient_mem_parts hn.reads hd.reads hafter h.reads

/-- The fraction under a root, behind a sum: `1 + \sqrt{\frac{x}{2}}`. -/
theorem fraction_mem_parts_root :
    parse (normalize ("1 + \\sqrt\x7b".toList ++ (fractionSource ['x'] ['2'] ++ ['\x7d'])))
        = .ok (.binary .plus (.number ['1'])
          (.call NamedFunction.sqrt.text [.binary .dividedBy (.name ['x']) (.number ['2']) false]) false)
      ∧ .binary .dividedBy (.name ['x']) (.number ['2']) false
        ∈ Expr.parts (.binary .plus (.number ['1'])
          (.call NamedFunction.sqrt.text [.binary .dividedBy (.name ['x']) (.number ['2']) false])
          false) := by
  have hparse : parse (normalize ("1 + \\sqrt\x7b".toList ++ (fractionSource ['x'] ['2'] ++ ['\x7d'])))
      = .ok (.binary .plus (.number ['1'])
        (.call NamedFunction.sqrt.text [.binary .dividedBy (.name ['x']) (.number ['2']) false])
        false) := by
    cbv
  have hn : parse (normalize ['x']) = .ok (.name ['x']) := by cbv
  have hd : parse (normalize ['2']) = .ok (.number ['2']) := by cbv
  have hfront : prepare "1 + \\sqrt\x7b".toList
      = ['1', ' ', '+', ' ', '\\', 's', 'q', 'r', 't', '\x7b'] := by
    cbv
  have hclear : ClearOfLimits (prepare "1 + \\sqrt\x7b".toList)
      (fractionSource (prepare ['x']) (prepare ['2']) ++ prepare ['\x7d']) := by
    rw [hfront]
    exact .of_not_isInfix _ (by decide)
  have hclosed : closedRow? (normalize ("1 + \\sqrt\x7b".toList ++ (fractionSource ['x'] ['2']
      ++ ['\x7d']))) = some ([.number ['1'], .plus, .function .sqrt] ++ [.openParen]
        ++ (quotientRow [.name ['x']] [.number ['2']] ++ [.closeParen])) := by
    cbv
  obtain ⟨row, numeratorRow, denominatorRow, hrow, hnumerator, hdenominator, -, hmem⟩ :=
    fraction_mem_parts hn hd hparse hclear
  cases hnumerator
  cases hdenominator
  refine ⟨hparse, hmem _ [.closeParen] (Option.some.inj (hrow.symm.trans hclosed)) ?_ rfl⟩
  exact .summand (.behind rfl)

/-- Behind a sign of division a fraction is not one operand: `\frac{1}{2} \div \frac{3}{4}` is
understood as `((1/2)/3)/4`, although every part of it is understood and is read back whole between
braces. -/
theorem fraction_not_mem_parts :
    ¬ ∀ (front numerator denominator behind : Text) (a b tree : Expr),
      readBraces ('\x7b' :: numerator ++ ['\x7d']) = some (numerator, []) →
      readBraces ('\x7b' :: denominator ++ ['\x7d']) = some (denominator, []) →
      parse (normalize numerator) = .ok a → parse (normalize denominator) = .ok b →
      parse (normalize (front ++ (fractionSource numerator denominator ++ behind))) = .ok tree →
      .binary .dividedBy a b false ∈ tree.parts := by
  intro h
  have hparse : parse (normalize (fractionSource ['1'] ['2'] ++ " \\div ".toList
      ++ (fractionSource ['3'] ['4'] ++ []))) = .ok (.binary .dividedBy (.binary .dividedBy
        (.binary .dividedBy (.number ['1']) (.number ['2']) false) (.number ['3']) false)
        (.number ['4']) false) := by
    cbv
  have hmem := h _ ['3'] ['4'] [] (.number ['3']) (.number ['4']) _ rfl rfl (by cbv) (by cbv) hparse
  simp [Expr.parts] at hmem

end MathScribe.Latex

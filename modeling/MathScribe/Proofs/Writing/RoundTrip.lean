/-
Reading what was written.

The text of a tree is read as the tree again (`parse_of_unambiguous`). Three facts are put together here, one
for each step of reading: the text has the symbols of the tree's row (`Unambiguous.spells`), closing its
integrals gives the row (`closeRow?_rawRow`), and the row is read as the tree (`Unambiguous.readable`).

The first and the last hold for every tree that its text can tell from others, the trees of plain words among
them (`PlainTree.unambiguous`). The second asks for two things more. The pass that closes integrals goes by the
letters of a name alone, so no name that stands directly inside an integral may pass for its differential; and it
gives up on parentheses that are nested too deeply.
-/
import MathScribe.Proofs.Writing.PlainTree

set_option autoImplicit false

namespace MathScribe

namespace Unambiguous

variable {e : Expr}

/-- The tokens of the text of a tree are its row. -/
theorem closedRow?_render (h : Unambiguous e) (hnames : keepsNames [] e.row = true)
    (hdepth : parenDepth e.render ≤ maxNesting) : closedRow? e.render = some e.row := by
  have hbrackets : bracketsFrom [] e.row = some [] := h.readable.alone.brackets []
  have hrow : greatestDepth Symbol.weight 0 e.row ≤ maxNesting :=
    calc greatestDepth Symbol.weight 0 e.row
      _ ≤ greatestDepth Symbol.weight 0 (rawRow e.row) := greatestDepth_rawRow 0 e.row
      _ ≤ parenDepth e.render := greatestDepth_symbolsOf h.spells.symbols 0
      _ ≤ maxNesting := hdepth
  rw [closedRow?, h.spells.symbols, Option.bind_some]
  exact closeRow?_rawRow hbrackets hnames hrow

end Unambiguous

/-- **Reading undoes writing.** The text of a tree that its text tells from others is read by `parse` as the
tree, with the same nodes and the same marks of products without an operator sign. -/
theorem parse_of_unambiguous {e : Expr} (h : Unambiguous e) (hnames : keepsNames [] e.row = true)
    (hdepth : parenDepth e.render ≤ maxNesting) : parse e.render = .ok e :=
  parse_eq_ok_iff.mpr ⟨e.row, h.closedRow?_render hnames hdepth, h.readable.alone⟩

/-- An integral with bounds on one side of an equation, a sum with a sign, a power and a root on the
other. -/
def sampleFormula : Expr :=
  .binary (.relation .equal)
    (.call integralWord
      [.juxtapose (.juxtapose (.number ['2']) (.binary .plus (.name ['x']) (.number ['1']) false))
        (.call NamedFunction.sin.text [.name ['x']]), .name ['x'], .number ['0'], .name ['n']])
    (.binary .plus (.unary .minus (.binary .power (.name ['x']) (.number ['2']) false))
      (.call rootWord [.number ['3'], .name ['y']]) false) false

/-- The sample formula satisfies every condition: it has bounds, a product, a power and a root. -/
theorem sampleFormula_unambiguous : Unambiguous sampleFormula := by
  have hnumber : ∀ c : Char, c.isDigit = true → PlainTree (.number [c]) := fun c hc =>
    .number ⟨List.cons_ne_nil _ _, .whole (by simpa using isDecimalDigit_of_isDigit hc), by simp [hc]⟩
  have hname : ∀ c : Char, c.isAlpha = true → PlainTree (.name [c]) := fun c hc =>
    .name (.letter hc)
  have hx := hname 'x' (by decide)
  have hsum : PlainTree (.binary .plus (.name ['x']) (.number ['1']) false) :=
    .operator (by decide) ⟨by decide, by decide⟩ hx (hnumber '1' (by decide))
  have hproduct := PlainTree.beside (by decide) (fun _ => .inr rfl) (hnumber '2' (by decide)) hsum
  have hsine : PlainTree (.call NamedFunction.sin.text [.name ['x']]) :=
    .call (.function .sin) (by simpa using hx)
  have hintegrand := PlainTree.beside (by decide) (fun h => absurd h (by decide)) hproduct hsine
  have hpower : PlainTree (.binary .power (.name ['x']) (.number ['2']) false) :=
    .operator (by decide) trivial hx (hnumber '2' (by decide))
  have hright : PlainTree (.binary .plus (.unary .minus _) (.call rootWord _) false) :=
    .operator (by decide) ⟨by decide, by decide⟩ (.sign (.inl rfl) hpower)
      (.root (hnumber '3' (by decide)) (hname 'y' (by decide)))
  have hvariable : PlainName ['x'] := .letter (by decide)
  have hleft := PlainTree.integralBounds hvariable hintegrand (hnumber '0' (by decide))
    (hname 'n' (by decide)) (fun h => absurd h (by decide))
  have hequation : PlainTree sampleFormula := .operator (by decide) trivial hleft hright
  exact hequation.unambiguous

/-- A sum with scripts and the product that it takes. -/
def sampleSum : Expr :=
  .juxtapose
    (.binary .power
      (.binary .subscript (.name BigOperator.sum.text)
        (.binary (.relation .equal) (.name ['i']) (.number ['1']) false) false)
      (.name ['n']) false)
    (.juxtapose (.number ['2']) (.name ['i']))

/-- The sample sum, which has a big operator with scripts, satisfies every condition. -/
theorem sampleSum_unambiguous : Unambiguous sampleSum := by
  have hnumber : ∀ c : Char, c.isDigit = true → Unambiguous (.number [c]) := fun c hc =>
    .number (List.cons_ne_nil _ _) (.whole (by simpa using isDecimalDigit_of_isDigit hc))
  have hname : ∀ c : Char, c.isAlpha = true → Unambiguous (.name [c]) := fun c hc =>
    .name ⟨c, [], rfl, hc, nofun⟩ (by simp [integralWord])
  have hsum : Unambiguous (.name BigOperator.sum.text) := .name BigOperator.sum.word (by decide)
  have hfrom : Unambiguous (.binary (.relation .equal) (.name ['i']) (.number ['1']) false) :=
    .operator (by decide) ⟨by decide, by decide, by decide⟩ (hname 'i' (by decide)) (hnumber '1' (by decide))
  have hlower : Unambiguous (.binary .subscript (.name BigOperator.sum.text) _ false) :=
    .operator (by decide) ⟨by decide, by decide, by decide⟩ hsum hfrom
  have hhead : Unambiguous (.binary .power (.binary .subscript _ _ false) (.name ['n']) false) :=
    .operator (by decide) ⟨by decide, by decide, by decide⟩ hlower (hname 'n' (by decide))
  have hproduct : Unambiguous (.juxtapose (.number ['2']) (.name ['i'])) :=
    .beside (by decide) (by decide) (by decide) (by decide) (hnumber '2' (by decide)) (hname 'i' (by decide))
  exact .bigTerm (by decide) (by decide) hhead hproduct

/-- The theorem at `sampleFormula` and at `sampleSum`. -/
theorem parse_of_unambiguous_sample :
    (sampleFormula.render? = some "int_0^n 2(x+1) sin(x) d x=-x^(2)+root(3)(y)".toList
      ∧ parse "int_0^n 2(x+1) sin(x) d x=-x^(2)+root(3)(y)".toList = .ok sampleFormula)
    ∧ sampleSum.render? = some "sum_(i=1)^(n) 2i".toList
      ∧ parse "sum_(i=1)^(n) 2i".toList = .ok sampleSum := by
  have hformula : sampleFormula.render?
      = some "int_0^n 2(x+1) sin(x) d x=-x^(2)+root(3)(y)".toList := by cbv
  have hsum : sampleSum.render? = some "sum_(i=1)^(n) 2i".toList := by cbv
  refine ⟨⟨hformula, ?_⟩, hsum, ?_⟩
  · rw [← Expr.render_of_render? hformula]
    exact parse_of_unambiguous sampleFormula_unambiguous (by decide) (by decide +kernel)
  · rw [← Expr.render_of_render? hsum]
    exact parse_of_unambiguous sampleSum_unambiguous (by decide) (by decide +kernel)

end MathScribe

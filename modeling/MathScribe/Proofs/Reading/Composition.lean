/-
Formulas out of formulas in parentheses.

A formula in parentheses may stand wherever an operand can, and is read there as it is read alone. This is
what every parenthesis relies on that is added to a formula. Four things are shown for it, one for each
stage.

1. A parenthesis or a comma lengthens no symbol and is lengthened by none, so a text has the symbols of its
   parts when they meet at one (`symbolsOf_append_of_seam`).
2. The rules that close integrals can be followed as long as the parentheses are nested no deeper than is read
   (`Closes.close?`), and the depth of a row is that of its parts, moved by what is open in front of them
   (`greatestDepth_append`). A part closes all parentheses that it opens (`Closes.weight`).
3. So texts that are closed alone can be put together (`Stretch.append`) and put into parentheses, which takes
   one level more (`Stretch.group`).
4. What is in parentheses is a primary and takes its place in every phrase (`Reads.readsAt_group`).

`parse_grouped` puts the four together.
-/
import MathScribe.Proofs.Reading.Differential
import MathScribe.Proofs.Writing.Precedence

set_option autoImplicit false

namespace MathScribe

/-- A text in parentheses. -/
def grouped (text : Text) : Text :=
  '(' :: (text ++ [')'])

/-- A text in parentheses ends with one. -/
theorem getLast?_grouped (text : Text) : (grouped text).getLast? = some ')' := by
  rw [grouped, ← List.cons_append, List.getLast?_concat]

/-! ## Where texts meet -/

/-- A character that is a symbol of its own. -/
theorem symbolsOf_seam {seam : Char} (hseam : isSeam seam = true) (text : Text) :
    symbolsOf (seam :: text)
      = (symbolsOf [seam]).bind fun row => (symbolsOf text).map (row ++ ·) := by
  simp only [isSeam, Bool.or_eq_true, beq_iff_eq] at hseam
  have hsymbol : ∃ symbol, Symbol.read? seam text = some symbol ∧ symbol.text = [seam]
      ∧ Symbol.read? seam [] = some symbol ∧ isBlank seam = false := by
    rcases hseam with ((rfl | rfl) | rfl) | rfl <;> exact ⟨_, rfl, rfl, rfl, rfl⟩
  obtain ⟨symbol, hread, htext, halone, hblank⟩ := hsymbol
  rw [symbolsOf_symbol hblank hread, symbolsOf_symbol hblank halone, htext]
  cases hrest : symbolsOf text <;> simp [hrest]

/-- **Two texts that meet at a seam** have the symbols of both. -/
theorem symbolsOf_append_of_seam {a b : Text}
    (hseam : (∃ seam ∈ a.getLast?, isSeam seam = true) ∨ ∃ seam ∈ b.head?, isSeam seam = true) :
    symbolsOf (a ++ b) = (symbolsOf a).bind fun row => (symbolsOf b).map (row ++ ·) := by
  rcases hseam with ⟨seam, hlast, hseam⟩ | ⟨seam, hfirst, hseam⟩
  · obtain ⟨front, rfl⟩ := List.getLast?_eq_some_iff.mp hlast
    have hfront : ∀ more, symbolsOf (front ++ seam :: more)
        = (symbolsOf front).bind fun row => (symbolsOf (seam :: more)).map (row ++ ·) := fun more =>
      symbolsFrom_append_seam hseam more (Nat.zero_le front.length)
    rw [List.append_assoc, List.singleton_append, hfront b, hfront [], symbolsOf_seam hseam]
    cases symbolsOf front <;> cases symbolsOf [seam] <;> cases symbolsOf b <;> simp
  · obtain ⟨behind, rfl⟩ := List.head?_eq_some_iff.mp hfirst
    exact symbolsFrom_append_seam hseam behind (Nat.zero_le a.length)

/-- A text in parentheses has its own symbols, in parentheses. -/
theorem symbolsOf_grouped {text : Text} {raw : List Symbol} (h : symbolsOf text = some raw) :
    symbolsOf (grouped text) = some (encloseIf true raw) := by
  have hclose : symbolsOf [')'] = some [.closeParen] := by decide
  rw [grouped, symbolsOf_openParen, symbolsOf_append_of_seam (.inr ⟨')', rfl, rfl⟩), h, hclose]
  rfl

/-- A row in parentheses is closed as it is alone, whatever is open around it, and so is what follows. -/
theorem Closes.group {stack last : List Bracket} {raw row behind out : List Symbol}
    (h : Closes [] raw row []) (hbehind : Closes stack behind out last) :
    Closes stack (encloseIf true raw ++ behind) (encloseIf true row ++ out) last := by
  have hinside : Closes (.paren :: stack) raw row (.paren :: stack) := h.inParens stack
  have hclosed : Closes (.paren :: stack) (raw ++ Symbol.closeParen :: behind) (row ++ Symbol.closeParen :: out)
      last := hinside.append (.symbol rfl rfl hbehind) (by simp)
  have hgroup : Closes stack (.openParen :: (raw ++ Symbol.closeParen :: behind))
      (.openParen :: (row ++ Symbol.closeParen :: out)) last := .symbol rfl rfl hclosed
  simpa [encloseIf] using hgroup

/-! ## How deep a row is that is put together -/

section Depth

variable {α : Type} (weight : α → Int)

/-- Starting deeper makes the whole row deeper by as much. -/
theorem greatestDepth_add (depth more : Int) (row : List α) :
    greatestDepth weight (depth + more) row = greatestDepth weight depth row + more := by
  induction row generalizing depth with
  | nil => rfl
  | cons a row ih =>
    rw [greatestDepth, greatestDepth, Int.add_right_comm, ih]
    omega

/-- The greatest depth of two rows is reached in the first one, or in the second one from where the first
one ends. -/
theorem greatestDepth_append (depth : Int) (first second : List α) :
    greatestDepth weight depth (first ++ second)
      = max (greatestDepth weight depth first)
        (greatestDepth weight (depth + (first.map weight).sum) second) := by
  induction first generalizing depth with
  | nil =>
    have hle : depth ≤ greatestDepth weight depth second := le_greatestDepth depth second
    simp only [List.nil_append, List.map_nil, List.sum_nil, Int.add_zero, greatestDepth]
    omega
  | cons a first ih =>
    rw [List.cons_append, greatestDepth, greatestDepth, ih, List.map_cons, List.sum_cons, Int.add_assoc]
    omega

end Depth

/-- What a row opens and does not close is what is open behind it. -/
theorem Closes.weight {stack last : List Bracket} {raw row : List Symbol} (h : Closes stack raw row last) :
    Closing.depthOf stack + (raw.map Symbol.weight).sum = Closing.depthOf last := by
  induction h with
  | nil => simp
  | symbol _ hpass _ ih =>
    rw [List.map_cons, List.sum_cons, ← Int.add_assoc, Closing.depthOf_of_pass? hpass, ih]
  | joined _ ih | differential _ _ ih | name _ _ ih => simpa [Symbol.weight, Closing.depthOf] using ih

/-- The depth of a row in parentheses and of what follows. -/
theorem Closes.greatestDepth_group {raw row : List Symbol} (h : Closes [] raw row []) (depth : Int)
    (behind : List Symbol) :
    greatestDepth Symbol.weight depth (encloseIf true raw ++ behind)
      = max (greatestDepth Symbol.weight 0 raw + (depth + 1)) (greatestDepth Symbol.weight depth behind) := by
  have hsum : (raw.map Symbol.weight).sum = 0 := by simpa [Closing.depthOf] using h.weight
  have hrow : encloseIf true raw ++ behind = .openParen :: (raw ++ Symbol.closeParen :: behind) := by
    simp [encloseIf]
  have hopen : Symbol.openParen.weight = 1 := rfl
  have hclose : Symbol.closeParen.weight = -1 := rfl
  have hback : depth + 1 + (0 : Int) + -1 = depth := by omega
  have hinside : 0 ≤ greatestDepth Symbol.weight 0 raw := le_greatestDepth 0 raw
  have hmoved := greatestDepth_add Symbol.weight 0 (depth + 1) raw
  rw [Int.zero_add] at hmoved
  rw [hrow, greatestDepth, hopen, greatestDepth_append, hsum, greatestDepth, hclose, hback, hmoved]
  omega

/-- **The pass follows its rules** as far as the parentheses are not nested too deep. -/
theorem Closes.close? {stack last : List Bracket} {raw row : List Symbol} (h : Closes stack raw row last)
    (hdepth : greatestDepth Symbol.weight (Closing.depthOf stack) raw ≤ maxNesting) :
    (Closing.within stack).close? raw = some row := by
  induction h with
  | nil => rfl
  | @symbol stack stack' _ symbol raw _ hname hpass _ ih =>
    obtain ⟨-, hdepth⟩ := greatestDepth_cons_le_iff.mp hdepth
    have hopen : symbol = .openParen → Closing.depthOf stack + 1 ≤ maxNesting := by
      rintro rfl
      exact Int.le_trans (le_greatestDepth _ raw) hdepth
    rw [Closing.depthOf_of_pass? hpass] at hdepth
    rw [Closing.close?_symbol hname hpass hopen, ih hdepth]
    rfl
  | joined _ ih =>
    obtain ⟨-, hdepth⟩ := greatestDepth_cons_le_iff.mp hdepth
    obtain ⟨-, hdepth⟩ := greatestDepth_cons_le_iff.mp hdepth
    rw [Closing.close?_joined, ih (by simpa [Symbol.weight, Closing.depthOf] using hdepth)]
    rfl
  | @differential stack _ text v _ _ hv _ ih =>
    obtain ⟨-, hdepth⟩ := greatestDepth_cons_le_iff.mp hdepth
    have htake : (Closing.within (.integral :: stack)).take (.name text)
        = some ([.differential v], Closing.within stack) :=
      (Closing.take_of_free rfl _).trans (Closing.takeFree_differential hv)
    rw [Closing.close?_of_take htake, ih (by simpa [Symbol.weight, Closing.depthOf] using hdepth)]
    rfl
  | name hkeep _ ih =>
    obtain ⟨-, hdepth⟩ := greatestDepth_cons_le_iff.mp hdepth
    rw [Closing.close?_name hkeep, ih (by simpa [Symbol.weight] using hdepth)]
    rfl

/-! ## Texts that are put together -/

/-- A text whose symbols are closed, outside of all integrals, to the row, and whose parentheses are nested no
deeper than the bound. -/
structure Stretch (bound : Int) (text : Text) (row : List Symbol) : Prop where
  closes : ∃ raw, symbolsOf text = some raw ∧ Closes [] raw row []
    ∧ greatestDepth Symbol.weight 0 raw ≤ bound

/-- A formula whose parentheses are nested no deeper than the bound is a stretch. -/
theorem Formula.stretch {text : Text} {row : List Symbol} {tree : Expr} {bound : Int}
    (h : Formula text row tree) (hdepth : parenDepth text ≤ bound) : Stretch bound text row := by
  obtain ⟨raw, hraw, hcloses⟩ := h.closes
  exact ⟨raw, hraw, hcloses, Int.le_trans (greatestDepth_symbolsOf hraw 0) hdepth⟩

namespace Stretch

variable {bound : Int} {a b : Text} {first second : List Symbol}

/-- A text is understood when its row is one relation. -/
theorem parse {tree : Expr} (h : Stretch maxNesting a first) (hreads : Reads .relation first tree []) :
    MathScribe.parse a = .ok tree := by
  obtain ⟨raw, hraw, hcloses, hdepth⟩ := h.closes
  refine parse_eq_ok_iff.mpr ⟨first, ?_, hreads⟩
  rw [closedRow?, hraw]
  exact hcloses.close? hdepth

/-- What stays within a bound stays within a wider one. -/
theorem mono {bound' : Int} (h : Stretch bound a first) (hbound : bound ≤ bound') :
    Stretch bound' a first := by
  obtain ⟨raw, hraw, hcloses, hdepth⟩ := h.closes
  exact ⟨raw, hraw, hcloses, Int.le_trans hdepth hbound⟩

/-- **Two stretches that meet at a seam** are a stretch. -/
theorem append (h : Stretch bound a first) (h' : Stretch bound b second)
    (hseam : (∃ seam ∈ a.getLast?, isSeam seam = true) ∨ ∃ seam ∈ b.head?, isSeam seam = true) :
    Stretch bound (a ++ b) (first ++ second) := by
  obtain ⟨raw, hraw, hcloses, hdepth⟩ := h.closes
  obtain ⟨raw', hraw', hcloses', hdepth'⟩ := h'.closes
  have hsum : (raw.map Symbol.weight).sum = 0 := by simpa [Closing.depthOf] using hcloses.weight
  refine ⟨raw ++ raw', ?_, hcloses.append hcloses' (by simp), ?_⟩
  · rw [symbolsOf_append_of_seam hseam, hraw, hraw']
    rfl
  · rw [greatestDepth_append, hsum]
    exact Int.max_le.mpr ⟨hdepth, hdepth'⟩

/-- **A stretch in parentheses** is a stretch, one level deeper. -/
theorem group (h : Stretch bound a first) (hbound : 0 ≤ bound) :
    Stretch (bound + 1) (grouped a) (encloseIf true first) := by
  obtain ⟨raw, hraw, hcloses, hdepth⟩ := h.closes
  refine ⟨_, symbolsOf_grouped hraw, by simpa using hcloses.group .nil, ?_⟩
  have hgroup := hcloses.greatestDepth_group 0 []
  rw [List.append_nil] at hgroup
  rw [hgroup, greatestDepth]
  omega

/-- An operator is a stretch. -/
theorem operator {op : Operator} (hop : op ∈ Operator.all) : Stretch 0 op.text [op.symbol] := by
  have hall : ∀ op ∈ Operator.all, symbolsOf op.text = some [op.symbol] ∧ op.symbol.startsWithName = false
      ∧ op.symbol.pass? [] = some [] ∧ greatestDepth Symbol.weight 0 [op.symbol] ≤ 0 := by
    decide
  obtain ⟨hsymbols, hname, hpass, hdepth⟩ := hall op hop
  exact ⟨_, hsymbols, .symbol hname hpass .nil, hdepth⟩

/-- A name is a stretch. -/
theorem name {text : Text} (h : PlainName text) : Stretch 0 text [.name text] :=
  ⟨_, (Spells.name h).symbols, .name (fun hinside => nomatch hinside.1) .nil,
    by simp [greatestDepth, Symbol.weight]⟩

/-- Stretches with commas between them. -/
theorem commas {texts : List Text} {rows : List (List Symbol)} (h : List.Forall₂ (Stretch bound) texts rows)
    (hbound : 0 ≤ bound) : Stretch bound ([','].intercalate texts) (commaRow rows) := by
  have hcomma : Stretch bound [','] [.comma] := ⟨_, rfl, .symbol rfl rfl .nil, hbound⟩
  induction h with
  | nil => exact ⟨[], rfl, .nil, hbound⟩
  | @cons text row texts rows hfirst hrest ih =>
    cases hrest with
    | nil => simpa [commaRow] using hfirst
    | @cons next nextRow texts rows =>
      have hmore := hcomma.append ih (.inl ⟨',', rfl, rfl⟩)
      have hall := hfirst.append hmore (.inr ⟨',', rfl, rfl⟩)
      simpa [commaRow] using hall

end Stretch

/-! ## Reading groups -/

section Nodes

variable {left right : List Symbol} {a b : Expr}

/-- A group takes no symbol behind it. -/
theorem Reads.group_at (h : Reads .relation left a []) {p : Nat} (hp : 1 ≤ p) (hp' : p ≤ 6) :
    ReadsAt (fun _ => false) (encloseIf true left) a p :=
  (h.readsAt_group _).loosen hp hp' (Nat.le_refl 6)

/-- An operator between two groups. -/
theorem Reads.groups_operator (ha : Reads .relation left a []) (hb : Reads .relation right b [])
    {op : Operator} (hop : op ∈ Operator.all) :
    Reads .relation (encloseIf true left ++ op.symbol :: encloseIf true right) (.binary op a b false) [] := by
  have hlevels : ∀ op ∈ Operator.all, 1 ≤ op.precedence
      ∧ (op.precedence ≤ 3 ∨ op = .power ∨ op = .subscript) := by
    decide
  have hbase : ReadsAsBase (fun _ => false) (encloseIf true left) a := (ha.readsAt_group _).base
  obtain ⟨hpositive, hloose | rfl | rfl⟩ := hlevels op hop
  · have hwhole := ReadsAt.operator hop hloose rfl (ha.group_at hpositive (by omega))
      (hb.group_at (Nat.le_add_left 1 _) (by omega))
    exact hwhole.alone hpositive (by omega)
  · exact (ReadsAt.power rfl hbase (hb.group_at (by decide) (by decide))).alone (by decide) (by decide)
  · exact (hbase.subscript rfl (hb.group_at (by decide) (by decide))).powered.alone (by decide) (by decide)

/-- A group beside another one. -/
theorem Reads.groups_beside (ha : Reads .relation left a []) (hb : Reads .relation right b []) :
    Reads .relation (encloseIf true left ++ encloseIf true right) (.juxtapose a b) [] := by
  have hleft := ha.group_at (p := 3) (by decide) (by decide)
  have hright := hb.group_at (p := 5) (by decide) (by decide)
  exact (hleft.beside hright rfl).alone (by decide) (by decide)

/-- A sign in front of a group. -/
theorem Reads.group_sign (ha : Reads .relation left a []) {op : Operator}
    (hop : op = .minus ∨ op = .plusMinus) :
    Reads .relation (op.symbol :: encloseIf true left) (.unary op a) [] :=
  (ReadsAt.sign hop (ha.group_at (by decide) (by decide))).alone (by decide) (by decide)

end Nodes

/-! ## Texts -/

/-- A formula that is understood, with its tree, and that leaves room for parentheses around it. -/
structure Nested (text : Text) (tree : Expr) : Prop where
  parsed : parse text = .ok tree
  depth : parenDepth text ≤ 99

/-- A formula that leaves room for parentheses is a stretch that does so, and its row is one relation. -/
theorem Nested.stretch {text : Text} {tree : Expr} (h : Nested text tree) :
    ∃ row, Stretch 99 text row ∧ Reads .relation row tree [] := by
  obtain ⟨row, hformula⟩ := parse_eq_ok_iff_formula.mp h.parsed
  exact ⟨row, hformula.stretch h.depth, hformula.reads⟩

/-- Formulas that leave room for parentheses, one for each argument of a call. -/
theorem Nested.stretches {texts : List Text} {trees : List Expr} (h : List.Forall₂ Nested texts trees) :
    ∃ rows, List.Forall₂ (Stretch 99) texts rows
      ∧ List.Forall₂ (fun row tree => Reads .relation row tree []) rows trees := by
  induction h with
  | nil => exact ⟨[], .nil, .nil⟩
  | cons hfirst _ ih =>
    obtain ⟨row, hstretch, hreads⟩ := hfirst.stretch
    obtain ⟨rows, hstretches, hall⟩ := ih
    exact ⟨row :: rows, .cons hstretch hstretches, .cons hreads hall⟩

/-- **Formulas out of formulas in parentheses.** Formulas that leave room for parentheses around them are put
together: one in parentheses is the formula itself; an operator between two of them is the operator, whichever
of the fourteen it is; two of them side by side are a product; a sign in front of one is the sign; and a name
with any number of them, separated by commas, is a call. The tree is that of the whole, with the trees of the
parts in their places. -/
theorem parse_grouped :
    (∀ a A, Nested a A → parse (grouped a) = .ok A)
      ∧ (∀ a A b B, Nested a A → Nested b B →
        (∀ op ∈ Operator.all, parse (grouped a ++ (op.text ++ grouped b)) = .ok (.binary op A B false))
          ∧ parse (grouped a ++ grouped b) = .ok (.juxtapose A B))
      ∧ (∀ a A, Nested a A → ∀ op, op = .minus ∨ op = .plusMinus →
        parse (op.text ++ grouped a) = .ok (.unary op A))
      ∧ ∀ f texts trees, PlainName f → List.Forall₂ Nested texts trees →
        parse (f ++ grouped ([','].intercalate texts)) = .ok (.call f trees) := by
  have hgroup : ∀ {a row}, Stretch 99 a row → Stretch maxNesting (grouped a) (encloseIf true row) :=
    fun h => h.group (by decide)
  have hoperator : ∀ {op}, op ∈ Operator.all → Stretch maxNesting op.text [op.symbol] :=
    fun hop => (Stretch.operator hop).mono (by decide)
  -- Each of the texts is a stretch, since its parts meet at parentheses, and its row is read as the tree.
  refine ⟨fun a A ha => ?_, fun a A b B ha hb => ⟨fun op hop => ?_, ?_⟩, fun a A ha op hop => ?_,
    fun f texts trees hf hall => ?_⟩
  · obtain ⟨row, hstretch, hreads⟩ := ha.stretch
    exact (hgroup hstretch).parse ((hreads.group_at (by decide) (Nat.le_refl 6)).alone (by decide) (Nat.le_refl 6))
  · obtain ⟨rowA, hstretchA, hreadsA⟩ := ha.stretch
    obtain ⟨rowB, hstretchB, hreadsB⟩ := hb.stretch
    have hright := (hoperator hop).append (hgroup hstretchB) (.inr ⟨'(', rfl, rfl⟩)
    exact ((hgroup hstretchA).append hright (.inl ⟨')', getLast?_grouped a, rfl⟩)).parse
      (hreadsA.groups_operator hreadsB hop)
  · obtain ⟨rowA, hstretchA, hreadsA⟩ := ha.stretch
    obtain ⟨rowB, hstretchB, hreadsB⟩ := hb.stretch
    exact ((hgroup hstretchA).append (hgroup hstretchB) (.inr ⟨'(', rfl, rfl⟩)).parse
      (hreadsA.groups_beside hreadsB)
  · obtain ⟨row, hstretch, hreads⟩ := ha.stretch
    have hall : op ∈ Operator.all := by rcases hop with rfl | rfl <;> decide
    exact ((hoperator hall).append (hgroup hstretch) (.inr ⟨'(', rfl, rfl⟩)).parse (hreads.group_sign hop)
  · obtain ⟨rows, hstretches, hreads⟩ := Nested.stretches hall
    have harguments := hgroup (Stretch.commas hstretches (by decide))
    have hname : Stretch maxNesting f [.name f] := (Stretch.name hf).mono (by decide)
    have hcall : ReadsAt (fun _ => false) (.name f :: encloseIf true (commaRow rows)) (.call f trees) 6 :=
      .call rfl hreads
    exact (hname.append harguments (.inr ⟨'(', rfl, rfl⟩)).parse (hcall.alone (by decide) (Nat.le_refl 6))

/-- A relation on the left of a power, and a call with two of the same formulas and an empty one beside it. -/
theorem parse_grouped_sample :
    parse "(a=b)^(2x)".toList
        = .ok (.binary .power (.binary (.relation .equal) (.name ['a']) (.name ['b']) false)
          (.juxtapose (.number ['2']) (.name ['x'])) false)
      ∧ parse "f(a=b,2x)".toList
        = .ok (.call ['f'] [.binary (.relation .equal) (.name ['a']) (.name ['b']) false,
          .juxtapose (.number ['2']) (.name ['x'])]) := by
  have hrelation : Nested "a=b".toList (.binary (.relation .equal) (.name ['a']) (.name ['b']) false) :=
    ⟨by decide +kernel, by decide⟩
  have hproduct : Nested "2x".toList (.juxtapose (.number ['2']) (.name ['x'])) :=
    ⟨by decide +kernel, by decide⟩
  have hname : PlainName ['f'] := .letter (by decide)
  obtain ⟨-, hbinary, -, hcall⟩ := parse_grouped
  exact ⟨(hbinary _ _ _ _ hrelation hproduct).1 .power (by decide),
    hcall _ _ _ hname (.cons hrelation (.cons hproduct .nil))⟩

end MathScribe

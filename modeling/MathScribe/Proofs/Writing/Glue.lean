/-
What runs together in the text of a tree.

The text of a tree is split into symbols again, and each symbol should come of a node: a plus-or-minus of a
plus-or-minus node, a relation of a comparison, a number of a number. This is so for the relations, but in two
places the texts of neighbours run together. A sum whose right side starts with a minus and is not itself a
sign is written without parentheses, so the plus and the minus are read as a plus-or-minus
(`Expr.gluesSign`). And a number is written close to the right side of a product unless that starts with an
ASCII digit or a point, so it takes the digits of another script that the right side may start with
(`Expr.gluesDigit`). `tokens_of_render` says that nothing else happens: the count of each kind of symbol, for
the tree of any text.

The symbols are counted along the tree (`Tallies`): every node adds its own symbol to those of its parts, and
the two kinds of nodes above change the symbol at the seam.
-/
import MathScribe.Proofs.Reading.Formed
import MathScribe.Proofs.Reading.Summand

set_option autoImplicit false

namespace MathScribe

/-! ## What is counted -/

/-- The value of a number. -/
def Symbol.number? : Symbol → Option Text
  | number digits => some digits
  | _ => none

namespace Expr

/-- A relation between two operands. -/
def isRelation : Expr → Bool
  | binary (.relation _) .. => true
  | _ => false

/-- A plus-or-minus, between two operands or in front of one. -/
def isPlusMinus : Expr → Bool
  | binary .plusMinus .. | unary .plusMinus _ => true
  | _ => false

/-- What belongs to the arguments of a call, in the order in which they are written: an integral has its
bounds in front. -/
def writtenOrder {α : Type} (function : Text) (arguments : List α) : List α :=
  match arguments with
  | [integrand, v, lower, upper] =>
    if function = integralWord then [lower, upper, integrand, v] else arguments
  | _ => arguments

mutual

/-- The numbers of a tree in the order in which they are written. -/
def numbers : Expr → List Text
  | number digits => [digits]
  | name _ | verbatim _ => []
  | unary _ operand => operand.numbers
  | binary _ left right _ => left.numbers ++ right.numbers
  | call function arguments => (writtenOrder function (numbersAll arguments)).flatten

/-- The numbers of each tree of a row of trees. -/
def numbersAll : List Expr → List (List Text)
  | [] => []
  | e :: es => e.numbers :: numbersAll es

end

/-- Only an integral writes its arguments in another order than it keeps them. -/
theorem writtenOrder_of_ne {α : Type} {function : Text} (h : function ≠ integralWord) (arguments : List α) :
    writtenOrder function arguments = arguments := by
  unfold writtenOrder
  split
  · rw [if_neg h]
  · rfl

/-- A node of the kinds that are counted, or one whose symbol changes at a seam. -/
def isCounted (e : Expr) : Bool :=
  e.isRelation || e.isPlusMinus || e.gluesSign || e.gluesDigit

end Expr

/-- A symbol of the kinds that are counted. -/
def Symbol.isCounted : Symbol → Bool
  | number _ | relation _ | plusMinus => true
  | _ => false

/-- Words are not counted: they are neither relations, nor `+-`, nor numbers. -/
theorem Symbol.not_isCounted_of_isWord {symbol : Symbol} (h : symbol.isWord = true) :
    symbol.isCounted = false := by
  cases symbol <;> first | rfl | cases h

/-! ## Counting along the tree -/

/-- The symbols of a row are those of some nodes, and its numbers those of the nodes in their order, up to what
runs together. -/
structure Tallies (row : List Symbol) (nodes : List Expr) (numbers : List Text) : Prop where
  relations : row.countP Symbol.isRelation = nodes.countP Expr.isRelation
  signs : row.count .plusMinus = nodes.countP Expr.isPlusMinus + nodes.countP Expr.gluesSign
  length_le : (row.filterMap Symbol.number?).length ≤ numbers.length
  numbers_iff : row.filterMap Symbol.number? = numbers ↔ ∀ node ∈ nodes, node.gluesDigit = false

/-- Two lists in a row are the two others, none of which is shorter than its counterpart, only piece by
piece. -/
theorem append_eq_append_iff_of_length_le {α : Type} {a b c d : List α} (hac : a.length ≤ c.length)
    (hbd : b.length ≤ d.length) : a ++ b = c ++ d ↔ a = c ∧ b = d := by
  constructor
  · intro h
    have hlength := congrArg List.length h
    simp only [List.length_append] at hlength
    exact List.append_inj h (by omega)
  · rintro ⟨rfl, rfl⟩
    rfl

namespace Tallies

variable {row others : List Symbol} {nodes more : List Expr} {numbers behind : List Text}

/-- Nothing tallies with nothing. -/
theorem nil : Tallies [] [] [] :=
  ⟨rfl, rfl, Nat.le_refl 0, by simp⟩

/-- Rows that stand side by side tally with the nodes of both. -/
theorem append (h : Tallies row nodes numbers) (hothers : Tallies others more behind) :
    Tallies (row ++ others) (nodes ++ more) (numbers ++ behind) := by
  refine ⟨?_, ?_, ?_, ?_⟩
  · rw [List.countP_append, List.countP_append, h.relations, hothers.relations]
  · rw [List.count_append, List.countP_append, List.countP_append, h.signs, hothers.signs]
    omega
  · rw [List.filterMap_append, List.length_append, List.length_append]
    exact Nat.add_le_add h.length_le hothers.length_le
  · rw [List.filterMap_append, append_eq_append_iff_of_length_le h.length_le hothers.length_le,
      h.numbers_iff, hothers.numbers_iff, List.forall_mem_append]

/-- A symbol that is not counted changes nothing. -/
theorem mark_iff {symbol : Symbol} (hsymbol : symbol.isCounted = false) :
    Tallies (symbol :: row) nodes numbers ↔ Tallies row nodes numbers := by
  have hrelation : symbol.isRelation = false := by cases symbol <;> first | rfl | cases hsymbol
  have hsign : symbol ≠ .plusMinus := by rintro rfl; cases hsymbol
  have hnumber : symbol.number? = none := by cases symbol <;> first | rfl | cases hsymbol
  constructor
  · rintro ⟨hrelations, hsigns, hlength, hnumbers⟩
    rw [List.countP_cons_of_neg (by simp [hrelation])] at hrelations
    rw [List.count_cons_of_ne hsign] at hsigns
    rw [List.filterMap_cons_none hnumber] at hlength hnumbers
    exact ⟨hrelations, hsigns, hlength, hnumbers⟩
  · rintro ⟨hrelations, hsigns, hlength, hnumbers⟩
    refine ⟨?_, ?_, ?_, ?_⟩
    · rw [List.countP_cons_of_neg (by simp [hrelation]), hrelations]
    · rw [List.count_cons_of_ne hsign, hsigns]
    · rwa [List.filterMap_cons_none hnumber]
    · rwa [List.filterMap_cons_none hnumber]

/-- A symbol that is not counted may stand in front. -/
theorem mark {symbol : Symbol} (hsymbol : symbol.isCounted = false) (h : Tallies row nodes numbers) :
    Tallies (symbol :: row) nodes numbers :=
  (mark_iff hsymbol).mpr h

/-- A node that is not counted changes nothing. -/
theorem node {node : Expr} (hnode : node.isCounted = false) (h : Tallies row nodes numbers) :
    Tallies row (node :: nodes) numbers := by
  simp only [Expr.isCounted, Bool.or_eq_false_iff] at hnode
  obtain ⟨⟨⟨hrelation, hplusMinus⟩, hsign⟩, hdigit⟩ := hnode
  refine ⟨?_, ?_, h.length_le, ?_⟩
  · rw [List.countP_cons_of_neg (by simp [hrelation]), h.relations]
  · rw [List.countP_cons_of_neg (by simp [hplusMinus]), List.countP_cons_of_neg (by simp [hsign]), h.signs]
  · rw [h.numbers_iff, List.forall_mem_cons]
    exact (and_iff_right hdigit).symm

/-- The order of the nodes does not matter, but that of the numbers does. -/
theorem perm (h : Tallies row nodes numbers) (hnodes : nodes.Perm more) : Tallies row more numbers := by
  refine ⟨?_, ?_, h.length_le, ?_⟩
  · rw [h.relations, hnodes.countP_eq]
  · rw [h.signs, hnodes.countP_eq, hnodes.countP_eq]
  · rw [h.numbers_iff]
    exact forall_congr' fun node => by rw [hnodes.mem_iff]

/-- Parentheses are not counted. -/
theorem enclosed (h : Tallies row nodes numbers) (needed : Bool) :
    Tallies (encloseIf needed row) nodes numbers := by
  cases needed with
  | false => exact h
  | true =>
    have hclose : Tallies [Symbol.closeParen] [] [] := mark rfl nil
    have hclosed := h.append hclose
    rw [List.append_nil, List.append_nil] at hclosed
    exact mark rfl hclosed

/-- A node whose symbol stands between those of its parts. -/
theorem between {symbol : Symbol} {node : Expr} (hnode : Tallies [symbol] [node] [])
    (h : Tallies row nodes numbers) (hothers : Tallies others more behind) :
    Tallies (row ++ symbol :: others) (node :: (nodes ++ more)) (numbers ++ behind) := by
  have hwhole := h.append (hnode.append hothers)
  exact hwhole.perm List.perm_middle

/-- A number is counted once on both sides. -/
theorem number (digits : Text) : Tallies [.number digits] [.number digits] [digits] :=
  ⟨rfl, rfl, Nat.le_refl 1, by simp [Symbol.number?, Expr.gluesDigit]⟩

/-- The symbol of an operator is its node, unless it is a plus that runs into a minus. -/
theorem operator {op : Operator} (hop : op ∈ Operator.all) {left right : Expr}
    (hglue : (Expr.binary op left right false).gluesSign = false) :
    Tallies [op.symbol] [.binary op left right false] [] := by
  have hdigit : (Expr.binary op left right false).gluesDigit = false := by
    cases op <;> cases left <;> rfl
  cases op with
  | other text => simp [Operator.all] at hop
  | _ => exact ⟨rfl, by simp [Operator.symbol, Expr.isPlusMinus, hglue], Nat.le_refl 0,
      by simp [Operator.symbol, Symbol.number?, hdigit]⟩

/-- A sign is counted for the node it belongs to: a `+-` counts and a minus does not. -/
theorem sign {op : Operator} (hop : op = .minus ∨ op = .plusMinus) (operand : Expr) :
    Tallies [op.symbol] [.unary op operand] [] := by
  rcases hop with rfl | rfl <;>
    exact ⟨rfl, rfl, Nat.le_refl 0, by simp [Operator.symbol, Symbol.number?, Expr.gluesDigit]⟩

/-- A plus that runs into a minus is read as a plus-or-minus, which no node is. -/
theorem plus_minus {left right : Expr} (hglue : (Expr.binary .plus left right false).gluesSign = true) :
    Tallies [.plusMinus] [.binary .plus left right false] [] := by
  have hdigit : (Expr.binary .plus left right false).gluesDigit = false := by
    cases left <;> rfl
  exact ⟨rfl, by simp [Expr.isPlusMinus, hglue], Nat.le_refl 0, by simp [Symbol.number?, hdigit]⟩

/-- A number that takes digits of the number behind it. -/
theorem number_number {digits taken left : Text} {node : Expr}
    (h : Tallies (.number (taken ++ left) :: row) nodes numbers) (htaken : taken ≠ [])
    (hquiet : node.isRelation = false ∧ node.isPlusMinus = false ∧ node.gluesSign = false)
    (hglue : node.gluesDigit = true) :
    Tallies (.number (digits ++ taken) :: ((if left = [] then [] else [Symbol.number left]) ++ row))
      (node :: .number digits :: nodes) (digits :: numbers) := by
  have hnumber : (Expr.number digits).isRelation = false ∧ (Expr.number digits).isPlusMinus = false
      ∧ (Expr.number digits).gluesSign = false := ⟨rfl, rfl, rfl⟩
  obtain ⟨hrelations, hsigns, hlength, -⟩ := h
  refine ⟨?_, ?_, ?_, ?_⟩
  · split <;> simpa [Symbol.isRelation, List.countP_cons, hquiet, hnumber] using hrelations
  · split <;> simpa [List.countP_cons, hquiet, hnumber] using hsigns
  · split <;> simp [Symbol.number?] at hlength ⊢ <;> omega
  · -- The first number has become longer.
    constructor
    · intro heq
      have hfirst := (List.cons.inj heq).1
      exact absurd (List.append_right_eq_self.mp hfirst) htaken
    · intro hnone
      exact absurd ((hnone node List.mem_cons_self).symm.trans hglue) Bool.noConfusion

end Tallies

/-! ## What runs together -/

/-- A number in front of another one that starts with a digit. The first takes all of the second, unless both
have a point: then it takes the digits in front of the second point. -/
theorem symbolsOf_number_number {digits number behind : Text} {more : List Symbol} (hne : digits ≠ [])
    (hdigits : Symbol.NumberText digits) (hnumber : Symbol.NumberText number)
    (hfirst : ∃ d rest, number = d :: rest ∧ isDecimalDigit d = true)
    (hends : Symbol.EndsNumber number behind) (hbehind : symbolsOf behind = some more) :
    ∃ taken left, number = taken ++ left ∧ taken ≠ []
      ∧ symbolsOf (digits ++ (number ++ behind))
        = some (.number (digits ++ taken) :: ((if left = [] then [] else [Symbol.number left]) ++ more)) := by
  obtain ⟨d, rest, hstart, hd⟩ := hfirst
  have hall : Symbol.NumberText (digits ++ number) → Symbol.EndsNumber (digits ++ number) behind →
      ∃ taken left, number = taken ++ left ∧ taken ≠ []
        ∧ symbolsOf (digits ++ (number ++ behind)) = some
          (.number (digits ++ taken) :: ((if left = [] then [] else [Symbol.number left]) ++ more)) := by
    intro hboth hbothEnd
    refine ⟨number, [], by simp, by simp [hstart], ?_⟩
    rw [← List.append_assoc, symbolsOf_number (by simp [hne]) hboth hbehind hbothEnd]
    rfl
  cases hdigits with
  | whole hwhole =>
    refine hall ?_ ⟨hends.1, fun hpoint => hends.2 fun hmem => hpoint (List.mem_append_right _ hmem)⟩
    cases hnumber with
    | whole hmore => exact .whole (List.forall_mem_append.mpr ⟨hwhole, hmore⟩)
    | fraction hmore hdecimals =>
      rw [← List.append_assoc]
      exact .fraction (List.forall_mem_append.mpr ⟨hwhole, hmore⟩) hdecimals ‹_›
  | @fraction whole decimals hwhole hdecimals hrun =>
    cases hnumber with
    | whole hmore =>
      refine hall ?_ ⟨hends.1, fun hpoint => absurd (by simp) hpoint⟩
      rw [List.append_assoc, List.cons_append]
      exact .fraction hwhole (by simp [hdecimals]) (List.forall_mem_append.mpr ⟨hrun, hmore⟩)
    | @fraction whole' decimals' hwhole' hdecimals' hrun' =>
      have hnonempty : whole' ≠ [] := by
        rintro rfl
        cases hstart
        exact absurd hd (by decide)
      refine ⟨whole', '.' :: decimals', rfl, hnonempty, ?_⟩
      -- The second number is cut in front of its point, and what is left of it is a number.
      have hleft : symbolsOf ('.' :: decimals' ++ behind) = some (.number ('.' :: decimals') :: more) :=
        symbolsOf_number (by simp) (.fraction (by simp : ∀ c ∈ [], _) hdecimals' hrun') hbehind
          ⟨hends.1, fun hpoint => absurd (by simp) hpoint⟩
      have htaken : Symbol.NumberText (whole ++ '.' :: decimals ++ whole') := by
        rw [List.append_assoc, List.cons_append]
        exact .fraction hwhole (by simp [hdecimals]) (List.forall_mem_append.mpr ⟨hrun, hwhole'⟩)
      have hcut : Symbol.EndsNumber (whole ++ '.' :: decimals ++ whole') ('.' :: decimals' ++ behind) :=
        ⟨by simp [Symbol.not_isDecimalDigit_point], fun hpoint => absurd (by simp) hpoint⟩
      have hwhole := symbolsOf_number (by simp) htaken hleft hcut
      rw [if_neg (List.cons_ne_nil _ _), List.append_assoc whole', ← List.append_assoc]
      exact hwhole

namespace Spells

variable {text other : Text} {row others : List Symbol}

/-- A row that goes on behind its first symbol ends there. -/
theorem last_behind {first : Symbol} (h : Spells text (first :: row)) :
    row = [] ∨ ∃ front last, row = front ++ [last] ∧ last.endsOperand = true := by
  obtain ⟨front, last, hrow, hlast⟩ := h.last
  cases front with
  | nil => exact .inl (List.cons.inj hrow).2
  | cons _ front => exact .inr ⟨front, last, (List.cons.inj hrow).2, hlast⟩

/-- A plus in front of a text that starts with a minus. -/
theorem plus_minus (h : Spells text row) (hother : Spells other others)
    (hminus : other.head? = some '-') :
    ∃ more, others = .minus :: more ∧ Spells (text ++ '+' :: other) (row ++ .plusMinus :: more) := by
  obtain ⟨more, rfl⟩ := List.head?_eq_some_iff.mp (hother.minus hminus)
  obtain ⟨rest, rfl⟩ := List.head?_eq_some_iff.mp hminus
  refine ⟨more, rfl, ?_⟩
  obtain ⟨symbol, run, left, behind, rfl, -, htext, hleft, hrow⟩ :=
    exists_read?_of_symbolsOf (by decide) hother.symbols
  cases hrow
  cases htext
  have hread : Symbol.read? '+' (['-'] ++ left) = some .plusMinus := rfl
  have hbehind : symbolsOf ('+' :: (['-'] ++ left)) = some (.plusMinus :: more) := by
    rw [symbolsOf_append (by decide) hread rfl, hleft]
    rfl
  have hwhole := h.append hbehind (by simp; decide)
  -- A minus is no end, so the symbols go on behind it.
  obtain ⟨front, last, hrow, hlast⟩ := hother.last
  cases front with
  | nil =>
    cases hrow
    cases hlast
  | cons _ front =>
    have hmore : Symbol.plusMinus :: more = (.plusMinus :: front) ++ [last] := by
      rw [(List.cons.inj hrow).2]
      rfl
    exact h.followed hwhole hmore hlast

/-- A number in front of a text that starts with a digit. -/
theorem number_number {digits : Text} (hne : digits ≠ []) (hdigits : Symbol.NumberText digits)
    (hother : Spells other others) (hdigit : ∃ d ∈ other.head?, isDecimalDigit d = true) :
    ∃ taken left more, others = .number (taken ++ left) :: more ∧ taken ≠ []
      ∧ Spells (digits ++ other)
          (.number (digits ++ taken) :: ((if left = [] then [] else [Symbol.number left]) ++ more)) := by
  obtain ⟨c, hc, hdigit⟩ := hdigit
  obtain ⟨rest, rfl⟩ := List.head?_eq_some_iff.mp hc
  obtain ⟨symbol, run, behind, more, rfl, hread, htext, hbehind, rfl⟩ :=
    exists_read?_of_symbolsOf (isBlank_of_isDecimalDigit hdigit) hother.symbols
  -- What starts with a digit is a number, and the first number takes its part of it.
  obtain ⟨rfl, hnumber, hends⟩ : symbol = .number (c :: run) ∧ Symbol.NumberText (c :: run)
      ∧ Symbol.EndsNumber (c :: run) behind := by
    obtain ⟨left, hleft, hnumber, hends⟩ := Symbol.numberAt_spec (c :: (run ++ behind))
    rcases Symbol.read?_cases hread with ⟨halpha, -⟩ | ⟨-, -, rfl⟩ | ⟨-, hnone, -⟩
    · exact absurd (halpha.symm.trans (not_isAlpha_of_isDecimalDigit hdigit)) Bool.noConfusion
    · have hrun : Symbol.numberAt (c :: (run ++ behind)) = c :: run := htext
      rw [hrun] at hleft hnumber hends ⊢
      have hsame : (c :: run) ++ behind = (c :: run) ++ left := hleft
      obtain rfl : behind = left := List.append_cancel_left hsame
      exact ⟨rfl, hnumber, hends⟩
    · rw [hnone, List.nil_append] at hleft
      rw [← hleft] at hends
      exact absurd (hdigit.symm.trans (hends.1 c rfl)) Bool.noConfusion
  obtain ⟨taken, left, hcut, htaken, hsymbols⟩ :=
    symbolsOf_number_number hne hdigits hnumber ⟨c, run, rfl, hdigit⟩ hends hbehind
  have hspells := number hne hdigits
  obtain ⟨first, others, rfl, hfirst⟩ := hspells.first
  refine ⟨taken, left, more, by rw [hcut], htaken, hsymbols, ⟨first, _, rfl, hfirst⟩, fun hminus => ?_, ?_⟩
  · cases hspells.minus hminus
  · rcases hother.last_behind with rfl | ⟨front, last, rfl, hlast⟩
    · by_cases hleft : left = []
      · exact ⟨[], _, by rw [if_pos hleft]; rfl, rfl⟩
      · exact ⟨[.number (first :: others ++ taken)], .number left, by rw [if_neg hleft]; rfl, rfl⟩
    · exact ⟨_, last, by rw [← List.append_assoc, ← List.cons_append], hlast⟩

end Spells

/-! ## The symbols of a tree -/

/-- The symbols of the text of a tree. -/
def Expr.spelling (e : Expr) : List Symbol :=
  (symbolsOf e.render).getD []

/-- The text of a tree can be split, and its symbols are those of its nodes up to what runs together. -/
structure Spelled (e : Expr) : Prop where
  spells : Spells e.render e.spelling
  tallies : Tallies e.spelling e.parts e.numbers

namespace Spelled

variable {e left right : Expr}

/-- A tree is spelled as soon as one row for its text tallies: a text is read as one row only. -/
theorem intro {row : List Symbol} (h : Spells e.render row) (htallies : Tallies row e.parts e.numbers) :
    Spelled e := by
  have hspelling : e.spelling = row := by
    rw [Expr.spelling, h.symbols, Option.getD_some]
  exact ⟨hspelling.symm ▸ h, hspelling.symm ▸ htallies⟩

theorem number {digits : Text} (hne : digits ≠ []) (h : Symbol.NumberText digits) :
    Spelled (.number digits) :=
  intro (.number hne h) (.number digits)

/-- A name by itself. -/
theorem name {text : Text} (h : IsWord text) : Spelled (.name text) := by
  refine intro (.word h) ?_
  exact .mark (Symbol.not_isCounted_of_isWord (Symbol.isWord_ofWord text)) (.node rfl .nil)

theorem sign {op : Operator} (hop : op = .minus ∨ op = .plusMinus) (h : Spelled e) :
    Spelled (.unary op e) := by
  refine intro ((h.spells.enclosed _).sign hop) ?_
  exact (Tallies.sign hop e).append (h.tallies.enclosed _)

/-- A plus runs into the minus behind it; no other operator runs into what it stands in front of. -/
theorem operator {op : Operator} (hop : op ∈ Operator.all) (hleft : Spelled left) (hright : Spelled right) :
    Spelled (.binary op left right false) := by
  have hl := hleft.spells.enclosed (op.enclosesLeft left)
  have hr := hright.spells.enclosed (op.enclosesRight right)
  have hlTallies := hleft.tallies.enclosed (op.enclosesLeft left)
  have hrTallies := hright.tallies.enclosed (op.enclosesRight right)
  by_cases hglue : (Expr.binary op left right false).gluesSign = true
  · obtain rfl : op = .plus := by
      cases op <;> first | rfl | cases hglue
    have hminus : (parenthesizeIf (Operator.plus.enclosesRight right) right.render).head? = some '-' :=
      of_decide_eq_true hglue
    obtain ⟨more, hmore, hspells⟩ := hl.plus_minus hr hminus
    rw [hmore] at hrTallies
    refine intro ?_ ((Tallies.plus_minus hglue).between hlTallies ((Tallies.mark_iff rfl).mp hrTallies))
    rw [Expr.render_binary, binaryText_eq]
    exact hspells
  · have hplus : op = .plus →
        (parenthesizeIf (op.enclosesRight right) right.render).head? ≠ some '-' := by
      rintro rfl hminus
      exact hglue (decide_eq_true hminus)
    refine intro ?_
      ((Tallies.operator hop (Bool.eq_false_iff.mpr hglue)).between hlTallies hrTallies)
    rw [Expr.render_binary, binaryText_eq]
    exact hl.operator op hr hop hplus

/-- A number runs into the digits behind it; nothing else on the left of a product does. -/
theorem beside (hnumber : ∀ digits, left = .number digits → digits ≠ [] ∧ Symbol.NumberText digits)
    (hleft : Spelled left) (hright : Spelled right) : Spelled (.juxtapose left right) := by
  have hr : Spells (besideText right) (encloseIf (Operator.times.enclosesRight right) right.spelling) :=
    hright.spells.enclosed _
  have hrTallies := hright.tallies.enclosed (Operator.times.enclosesRight right)
  have hquiet : (Expr.juxtapose left right).isRelation = false
      ∧ (Expr.juxtapose left right).isPlusMinus = false
      ∧ (Expr.juxtapose left right).gluesSign = false := ⟨rfl, rfl, rfl⟩
  -- A number is written against what begins with no ASCII digit and no point.
  by_cases hglued : (left.isNumber && canGlue (besideText right)) = true
  · obtain ⟨hisNumber, hglue⟩ := Bool.and_eq_true_iff.mp hglued
    obtain ⟨digits, rfl⟩ : ∃ digits, left = .number digits := by
      cases left <;> first | exact ⟨_, rfl⟩ | cases hisNumber
    obtain ⟨hne, hdigits⟩ := hnumber digits rfl
    have hrender : (Expr.juxtapose (.number digits) right).render = digits ++ besideText right := by
      rw [Expr.render_juxtapose, if_pos hglued]
      rfl
    have hgluesDigit : (Expr.juxtapose (.number digits) right).gluesDigit
        = (besideText right).head?.any isDecimalDigit := by
      simp [Expr.gluesDigit, hglue]
    -- A digit of another script passes that test, and the lexer reads one number.
    by_cases hdigit : (besideText right).head?.any isDecimalDigit = true
    · obtain ⟨taken, left, more, hmore, htaken, hspells⟩ :=
        Spells.number_number hne hdigits hr ((Option.any_eq_true _ _).mp hdigit)
      rw [hmore] at hrTallies
      exact intro (hrender ▸ hspells)
        (hrTallies.number_number htaken hquiet (hgluesDigit.trans hdigit))
    · have hends : ∀ d ∈ (besideText right).head?, isDecimalDigit d = false ∧ d ≠ '.' := by
        intro d hd
        obtain ⟨rest, htext⟩ := List.head?_eq_some_iff.mp hd
        rw [htext] at hdigit hglue
        simp only [canGlue, Bool.not_eq_true', Bool.or_eq_false_iff, beq_eq_false_iff_ne] at hglue
        exact ⟨by simpa using hdigit, hglue.2⟩
      refine intro (hrender ▸ hr.glue hne hdigits hends) (.node ?_ ((Tallies.number digits).append hrTallies))
      simp [Expr.isCounted, hquiet, hgluesDigit, hdigit]
  · have hgluesDigit : (Expr.juxtapose left right).gluesDigit = false := by
      cases left with
      | number digits =>
        have hglue : canGlue (besideText right) = false := by simpa [Expr.isNumber] using hglued
        simp [Expr.gluesDigit, hglue]
      | _ => rfl
    have hl := hleft.spells.enclosed (Operator.times.enclosesLeft left)
    have hlTallies := hleft.tallies.enclosed (Operator.times.enclosesLeft left)
    refine intro ?_ (.node ?_ (hlTallies.append hrTallies))
    · rw [Expr.render_juxtapose, if_neg hglued]
      exact hl.beside hr
    · simp [Expr.isCounted, hquiet, hgluesDigit]

/-- Arguments between commas tally when each of them does. -/
theorem arguments {es : List Expr} (h : ∀ e ∈ es, Spelled e) :
    Tallies (commaRow (es.map Expr.spelling)) (Expr.partsAll es) (Expr.numbersAll es).flatten := by
  induction es with
  | nil => exact .nil
  | cons e es ih =>
    obtain ⟨he, hes⟩ := List.forall_mem_cons.mp h
    cases es with
    | nil => simpa [commaRow, Expr.partsAll, Expr.numbersAll] using he.tallies
    | cons next es => exact he.tallies.append ((ih hes).mark rfl)

/-- A call that is written with its arguments in parentheses. -/
theorem call {function : Text} {arguments : List Expr} (hword : IsWord function)
    (hi : function ≠ integralWord)
    (hrender : (Expr.call function arguments).render
      = function ++ parenthesizeIf true (commaSeparated (Expr.renderAll arguments)))
    (h : ∀ argument ∈ arguments, Spelled argument) : Spelled (.call function arguments) := by
  have hspells := Spells.call hword fun e he => (h e he).spells
  have htallies := ((Spelled.arguments h).enclosed true).mark
    (Symbol.not_isCounted_of_isWord (Symbol.isWord_ofWord function))
  refine intro (hrender ▸ hspells) ?_
  rw [Expr.numbers, Expr.writtenOrder_of_ne hi]
  exact htallies.node rfl

/-- A root with an index. -/
theorem root (hleft : Spelled left) (hright : Spelled right) : Spelled (.call rootWord [left, right]) := by
  have htallies : Tallies (.root :: (encloseIf true left.spelling ++ encloseIf true right.spelling))
      (.call rootWord [left, right] :: (left.parts ++ right.parts)) (left.numbers ++ right.numbers) :=
    .mark rfl (.node rfl ((hleft.tallies.enclosed true).append (hright.tallies.enclosed true)))
  refine intro (hleft.spells.root hright.spells) ?_
  simpa [Expr.parts, Expr.partsAll, Expr.numbers, Expr.numbersAll, Expr.writtenOrder] using htallies

/-- An integrand with the name `d` and the variable behind it. -/
theorem integrand (h : Spelled e) (needed : Bool) (v : Text) :
    Tallies (encloseIf needed e.spelling ++ [Symbol.name ['d'], .name v]) (e.parts ++ [.name v])
      (e.numbers ++ []) :=
  (h.tallies.enclosed needed).append (.mark rfl (.mark rfl (.node rfl .nil)))

/-- An integral without bounds, whose variable is no number. -/
theorem integral {v : Text} (hv : PlainName v) (h : Spelled e) :
    Spelled (.call integralWord [e, .name v]) := by
  have hspells : Spells (Expr.call integralWord [e, .name v]).render (.integral ::
      (encloseIf (e.precedence < Operator.times.precedence) e.spelling ++ [Symbol.name ['d'], .name v])) :=
    (h.spells.enclosed _).integral hv
  have htallies : Tallies (.integral :: _) (.call integralWord [e, .name v] :: _) _ :=
    .mark rfl (.node rfl (h.integrand (e.precedence < Operator.times.precedence) v))
  refine intro hspells ?_
  simpa [Expr.parts, Expr.partsAll, Expr.numbers, Expr.numbersAll, Expr.writtenOrder] using htallies

/-- The bounds of an integral are written in front of its integrand. -/
theorem integralBounds {lower upper : Expr} {v : Text} (hv : PlainName v) (h : Spelled e)
    (hlower : Spelled lower) (hupper : Spelled upper) :
    Spelled (.call integralWord [e, .name v, lower, upper]) := by
  have hspells : Spells (Expr.call integralWord [e, .name v, lower, upper]).render (.integral :: .underscore
      :: (scriptRow lower lower.spelling ++ Symbol.caret :: (scriptRow upper upper.spelling
        ++ (encloseIf (e.precedence < Operator.times.precedence) e.spelling
          ++ [Symbol.name ['d'], .name v])))) := by
    have hbounds := (h.spells.enclosed (e.precedence < Operator.times.precedence)).integralBounds
      (hlower.spells.enclosed (lower.precedence < Expr.atomPrecedence))
      (hupper.spells.enclosed (upper.precedence < Expr.atomPrecedence)) hv
    rw [Expr.render_integralBounds]
    simpa [scriptText, scriptRow, integrandText] using hbounds
  have hbehind := (hupper.tallies.enclosed (upper.precedence < Expr.atomPrecedence)).append
    (h.integrand (e.precedence < Operator.times.precedence) v)
  have hbounds := (hlower.tallies.enclosed (lower.precedence < Expr.atomPrecedence)).append
    (hbehind.mark (rfl : Symbol.caret.isCounted = false))
  have hnodes : (lower.parts ++ (upper.parts ++ (e.parts ++ [Expr.name v]))).Perm
      (e.parts ++ [Expr.name v] ++ (lower.parts ++ upper.parts)) := by
    rw [← List.append_assoc]
    exact List.perm_append_comm
  have htallies : Tallies (.integral :: .underscore :: _)
      (.call integralWord [e, .name v, lower, upper] :: _) _ :=
    .mark rfl (.mark rfl (.node rfl (hbounds.perm hnodes)))
  refine intro hspells ?_
  simpa [scriptRow, Expr.parts, Expr.partsAll, Expr.numbers, Expr.numbersAll, Expr.writtenOrder]
    using htallies

end Spelled

/-- **The symbols of the tree of a formula.** -/
theorem Formed.spelled {e : Expr} (h : Formed e) : Spelled e := by
  induction h with
  | number hne hdigits => exact .number hne hdigits
  | name hword => exact .name hword
  | sign hop _ ih => exact ih.sign hop
  | operator hop _ _ ihl ihr => exact .operator hop ihl ihr
  | @beside left right hleft _ ihl ihr =>
    refine .beside ?_ ihl ihr
    rintro digits rfl
    cases hleft with
    | number hne hdigits => exact ⟨hne, hdigits⟩
  | @call function arguments hcallee _ ih =>
    refine .call hcallee.word hcallee.ne.1 ?_ ih
    rw [Expr.render_call]
    unfold callText
    rw [if_neg hcallee.ne.1, if_neg hcallee.ne.2]
  | @rootOne radicand _ ih =>
    exact .call isWord_rootWord (by decide) (Expr.render_rootOne radicand)
      (List.forall_mem_singleton.mpr ih)
  | rootTwo _ _ ihi ihr => exact ihi.root ihr
  | integral hv _ ih => exact ih.integral hv
  | integralBounds hv _ _ _ ihi ihl ihu => exact ihi.integralBounds hv ihl ihu

/-- **What becomes of the nodes of a tree in its text.** The text of the tree of any formula can be split into
symbols. There is a relation for each comparison. There is a plus-or-minus for each plus-or-minus node, and
one more for each sum whose plus runs into a minus. And the numbers are those of the tree, in their order,
exactly when none of them runs into the digits of another script. -/
theorem tokens_of_render {text : Text} {tree : Expr} (hparse : parse text = .ok tree) :
    ∃ tokens, scan tree.render = ⟨tokens, none⟩
      ∧ (tokens.map Token.symbol).countP Symbol.isRelation = tree.parts.countP Expr.isRelation
      ∧ (tokens.map Token.symbol).count .plusMinus
        = tree.parts.countP Expr.isPlusMinus + tree.parts.countP Expr.gluesSign
      ∧ ((tokens.map Token.symbol).filterMap Symbol.number? = tree.numbers
        ↔ ∀ part ∈ tree.parts, part.gluesDigit = false) := by
  have hspelled := (formed_of_parse hparse).spelled
  obtain ⟨hfailure, htokens⟩ := (symbolsFrom_eq_some_iff 0).mp hspelled.spells.symbols
  have hrow : (scan tree.render).tokens.map Token.symbol = tree.spelling := htokens
  refine ⟨(scan tree.render).tokens, congrArg (Scan.mk _) hfailure, ?_⟩
  rw [hrow]
  exact ⟨hspelled.tallies.relations, hspelled.tallies.signs, hspelled.tallies.numbers_iff⟩

/-- A plus-or-minus in front of a product that starts with a sign, and an integral with bounds. -/
theorem tokens_of_render_integral :
    parse "a +- -3b = int_0^1 2x dx".toList = .ok (.binary (.relation .equal)
        (.binary .plusMinus (.name ['a']) (.juxtapose (.unary .minus (.number ['3'])) (.name ['b'])) false)
        (.call integralWord [.juxtapose (.number ['2']) (.name ['x']), .name ['x'], .number ['0'],
          .number ['1']]) false)
      ∧ ∃ tokens, scan "a+--3 b=int_0^1 2x d x".toList = ⟨tokens, none⟩
        ∧ (tokens.map Token.symbol).countP Symbol.isRelation = 1
        ∧ (tokens.map Token.symbol).count .plusMinus = 1
        ∧ (tokens.map Token.symbol).filterMap Symbol.number? = [['3'], ['0'], ['1'], ['2']] := by
  have hparse : parse "a +- -3b = int_0^1 2x dx".toList = .ok (.binary (.relation .equal)
      (.binary .plusMinus (.name ['a']) (.juxtapose (.unary .minus (.number ['3'])) (.name ['b'])) false)
      (.call integralWord [.juxtapose (.number ['2']) (.name ['x']), .name ['x'], .number ['0'],
        .number ['1']]) false) := by
    cbv
  have hrender : Expr.render (.binary (.relation .equal)
      (.binary .plusMinus (.name ['a']) (.juxtapose (.unary .minus (.number ['3'])) (.name ['b'])) false)
      (.call integralWord [.juxtapose (.number ['2']) (.name ['x']), .name ['x'], .number ['0'],
        .number ['1']]) false) = "a+--3 b=int_0^1 2x d x".toList :=
    rfl
  obtain ⟨tokens, hscan, hrelations, hsigns, hnumbers⟩ := tokens_of_render hparse
  rw [hrender] at hscan
  exact ⟨hparse, tokens, hscan, hrelations, hsigns, hnumbers.mpr (by decide)⟩

/-- A plus runs into the minus of the product behind it, and a two runs into the Arabic three behind it. -/
theorem tokens_glued :
    (∃ tree tokens, parse "x + -3*y".toList = .ok tree ∧ tree.render? = some "x+-3*y".toList
      ∧ scan "x+-3*y".toList = ⟨tokens, none⟩ ∧ (tokens.map Token.symbol).count .plusMinus = 1
      ∧ tree.parts.countP Expr.isPlusMinus = 0)
    ∧ ∃ tree tokens, parse "2 \u0663".toList = .ok tree ∧ tree.render? = some "2\u0663".toList
      ∧ scan "2\u0663".toList = ⟨tokens, none⟩
      ∧ (tokens.map Token.symbol).filterMap Symbol.number? = ["2\u0663".toList]
      ∧ tree.numbers = ["2".toList, "\u0663".toList] := by
  refine ⟨⟨.binary .plus (.name ['x'])
      (.binary .times (.unary .minus (.number ['3'])) (.name ['y']) false) false, _, by cbv, by cbv, rfl,
      by decide, by decide⟩,
    .juxtapose (.number ['2']) (.number ['\u0663']), _, by cbv, by cbv, rfl, by decide, rfl⟩

end MathScribe

/-
What reading and writing leave alone.

`visible` is a text without its white space and its parentheses. A formula that is read and written
again may gain and lose both, and nothing else: `letters_of_parse` says that the visible characters
of what is written are those of what was read, rearranged at most, and in the same order unless some
integral has its upper bound in front of its lower one.

The argument follows the text through every stage. Splitting a text keeps its visible characters
(`lettersOf_symbolsOf`), where a differential counts with the `d` that it drops; closing integrals
keeps them, with a held `d` on the way (`Closing.run_letters`); and reading a phrase keeps them, where
a phrase that goes on with a tree starts out with the characters of that tree (`Reads.letters`). Both
halves of the statement are one induction, over the relation `SameLetters`, which is equality or
rearrangement as the occasion asks.
-/
import MathScribe.Proofs.Reading.Row
import MathScribe.AsciiMath.Render

set_option autoImplicit false

namespace MathScribe

/-! ## Visible characters -/

/-- A character that is neither white space nor a parenthesis. -/
def isVisible (c : Char) : Bool :=
  !(isBlank c || c == '(' || c == ')')

/-- A text without its white space and its parentheses. -/
def visible (text : Text) : Text :=
  text.filter isVisible

@[simp] theorem visible_nil : visible [] = [] :=
  rfl

/-- The visible characters of two texts come one after the other. -/
@[simp] theorem visible_append (a b : Text) : visible (a ++ b) = visible a ++ visible b :=
  List.filter_append ..

/-- A visible character in front stays. -/
theorem visible_cons_of_isVisible {c : Char} (h : isVisible c = true) (text : Text) :
    visible (c :: text) = c :: visible text :=
  List.filter_cons_of_pos h

/-- An invisible character in front goes. -/
theorem visible_cons_of_not_isVisible {c : Char} (h : isVisible c = false) (text : Text) :
    visible (c :: text) = visible text :=
  List.filter_cons_of_neg (by simp [h])

@[simp] theorem visible_space (text : Text) : visible (' ' :: text) = visible text :=
  visible_cons_of_not_isVisible (by decide) text

@[simp] theorem visible_openParen (text : Text) : visible ('(' :: text) = visible text :=
  visible_cons_of_not_isVisible (by decide) text

@[simp] theorem visible_closeParen (text : Text) : visible (')' :: text) = visible text :=
  visible_cons_of_not_isVisible (by decide) text

@[simp] theorem visible_comma (text : Text) : visible (',' :: text) = ',' :: visible text :=
  visible_cons_of_isVisible (by decide) text

@[simp] theorem visible_underscore (text : Text) : visible ('_' :: text) = '_' :: visible text :=
  visible_cons_of_isVisible (by decide) text

@[simp] theorem visible_caret (text : Text) : visible ('^' :: text) = '^' :: visible text :=
  visible_cons_of_isVisible (by decide) text

@[simp] theorem visible_d (text : Text) : visible ('d' :: text) = 'd' :: visible text :=
  visible_cons_of_isVisible (by decide) text

/-- Parentheses around a text are not visible. -/
@[simp] theorem visible_parenthesizeIf (needed : Bool) (text : Text) :
    visible (parenthesizeIf needed text) = visible text := by
  unfold parenthesizeIf
  split
  · rw [visible_append, visible_cons_of_not_isVisible (by decide)]
    exact List.append_nil _
  · rfl

/-! ## Rearranged at most

`SameLetters shuffled` is equality, or rearrangement when `shuffled` allows it. -/

/-- The same characters, in the same order unless `shuffled`. -/
def SameLetters : Bool → Text → Text → Prop
  | true, a, b => a.Perm b
  | false, a, b => a = b

namespace SameLetters

variable {shuffled : Bool} {a b c d : Text}

/-- Equal texts have the same letters. -/
theorem of_eq (h : a = b) : SameLetters shuffled a b := by
  cases shuffled with
  | true => exact List.Perm.of_eq h
  | false => exact h

theorem refl (a : Text) : SameLetters shuffled a a :=
  of_eq rfl

/-- Having the same letters can be followed from text to text. -/
theorem trans (h₁ : SameLetters shuffled a b) (h₂ : SameLetters shuffled b c) :
    SameLetters shuffled a c := by
  cases shuffled with
  | true => exact List.Perm.trans h₁ h₂
  | false => exact Eq.trans h₁ h₂

/-- Two texts have the same letters when their parts have. -/
theorem append (h₁ : SameLetters shuffled a b) (h₂ : SameLetters shuffled c d) :
    SameLetters shuffled (a ++ c) (b ++ d) := by
  cases shuffled with
  | true => exact List.Perm.append h₁ h₂
  | false => exact h₁ ▸ h₂ ▸ rfl

/-- Characters in front stay in front. -/
theorem append_left (front : Text) (h : SameLetters shuffled a b) :
    SameLetters shuffled (front ++ a) (front ++ b) :=
  (refl front).append h

/-- Two texts change places when the order does not matter. -/
theorem swap (hshuffled : shuffled = true) (a b : Text) :
    SameLetters shuffled (a ++ b) (b ++ a) := by
  subst hshuffled
  exact List.perm_append_comm

/-- A part is read behind a front, and then the rest. -/
theorem step {front part rest whole : Text} (h₁ : SameLetters shuffled a (part ++ rest))
    (h₂ : SameLetters shuffled ((front ++ part) ++ rest) whole) :
    SameLetters shuffled (front ++ a) whole :=
  (append_left front h₁).trans (List.append_assoc front part rest ▸ h₂)

end SameLetters

/-! ## The characters of symbols -/

/-- The visible characters that a symbol stands for. A differential stands for its variable and for
the `d` in front of it. -/
def Symbol.letters : Symbol → Text
  | .differential v => 'd' :: visible v
  | symbol => visible symbol.text

/-- The visible characters of a row. -/
def lettersOf (row : List Symbol) : Text :=
  row.flatMap Symbol.letters

@[simp] theorem lettersOf_nil : lettersOf [] = [] :=
  rfl

/-- The letters of a row are those of its symbols, in order. -/
@[simp] theorem lettersOf_cons (symbol : Symbol) (row : List Symbol) :
    lettersOf (symbol :: row) = symbol.letters ++ lettersOf row :=
  List.flatMap_cons ..

@[simp] theorem lettersOf_append (first second : List Symbol) :
    lettersOf (first ++ second) = lettersOf first ++ lettersOf second :=
  List.flatMap_append ..

/-- A symbol is read behind a front, then a part, and then the rest. -/
theorem SameLetters.symbol {shuffled : Bool} {symbol : Symbol} {row : List Symbol} {front part rest whole : Text}
    (h₁ : SameLetters shuffled (lettersOf row) (part ++ rest))
    (h₂ : SameLetters shuffled (((front ++ symbol.letters) ++ part) ++ rest) whole) :
    SameLetters shuffled (front ++ lettersOf (symbol :: row)) whole := by
  rw [lettersOf_cons, ← List.append_assoc]
  exact .step h₁ h₂

/-- A symbol that is read from a text is not a differential. -/
theorem Symbol.read?_ne_differential {c : Char} {rest v : Text} :
    read? c rest ≠ some (differential v) := by
  intro h
  unfold read? at h
  split at h
  · unfold ofWord at h
    repeat' split at h
    all_goals cases h
  · split at h
    · unfold markAt? at h
      split at h <;> cases h
    · cases h

/-- A symbol that is read from a text stands for its own visible characters. -/
theorem Symbol.letters_of_read? {c : Char} {rest : Text} {symbol : Symbol}
    (h : read? c rest = some symbol) : symbol.letters = visible symbol.text := by
  cases symbol with
  | differential v => exact absurd h read?_ne_differential
  | _ => rfl

/-- Splitting a text keeps its visible characters. -/
theorem lettersOf_symbolsFrom {covered : Nat} {text : Text} {row : List Symbol}
    (h : symbolsFrom covered text = some row) : lettersOf row = visible (text.drop covered) := by
  induction text generalizing covered row with
  | nil =>
    cases covered <;> cases h <;> rfl
  | cons c rest ih =>
    cases covered with
    | succ covered => exact ih h
    | zero =>
      unfold symbolsFrom at h
      by_cases hc : isBlank c = true
      · rw [if_pos hc] at h
        rw [ih h]
        exact (visible_cons_of_not_isVisible (by simp [isVisible, hc]) rest).symm
      · rw [if_neg hc] at h
        cases hread : Symbol.read? c rest with
        | none => simp [hread] at h
        | some symbol =>
          simp only [hread, Option.map_eq_some_iff] at h
          obtain ⟨others, hothers, rfl⟩ := h
          rw [lettersOf_cons, ih hothers, Symbol.letters_of_read? hread, ← visible_append,
            Symbol.read?_eq_append hread]
          rfl

/-- A differential that is written as one name. -/
theorem Nesting.differentialOf?_eq_some {text v : Text} (h : differentialOf? text = some v) :
    ∃ c, c.isAlpha = true ∧ text = ['d', c] ∧ v = [c] := by
  unfold differentialOf? at h
  split at h
  · next c =>
    split at h
    · next hc =>
      cases h
      exact ⟨c, hc, rfl, rfl⟩
    · cases h
  · cases h

namespace Closing

/-- A symbol that is taken while nothing is held is delivered or held. -/
theorem takeFree_letters {state next : Closing} {symbol : Symbol} {out : List Symbol}
    (hfree : state.held = false) (h : state.takeFree symbol = some (out, next)) :
    symbol.letters = lettersOf out ++ lettersOf next.heldSymbols := by
  -- Only a name may become another symbol: it is held, or its `d` is dropped with the blank behind it.
  unfold takeFree at h
  split at h
  case h_1 =>
    split at h <;> cases h
    simp [heldSymbols, hfree]
  case h_4 text =>
    split at h
    · split at h
      · next htext =>
        cases h
        rw [htext]
        rfl
      · split at h
        · next v hv =>
          cases h
          obtain ⟨c, -, rfl, rfl⟩ := Nesting.differentialOf?_eq_some hv
          simp [heldSymbols, hfree, Symbol.letters, Symbol.text,
            visible_cons_of_isVisible (show isVisible 'd' = true by decide)]
        · cases h
          simp [heldSymbols, hfree]
    · cases h
      simp [heldSymbols, hfree]
  all_goals
    cases h
    simp [heldSymbols, hfree]

/-- Taking a symbol keeps the visible characters, with a held `d` counted before and behind. -/
theorem take_letters {state next : Closing} {symbol : Symbol} {out : List Symbol}
    (h : state.take symbol = some (out, next)) :
    lettersOf state.heldSymbols ++ symbol.letters
      = lettersOf out ++ lettersOf next.heldSymbols := by
  unfold take at h
  split at h
  · next hheld =>
    split at h
    · cases h
      simp [heldSymbols, hheld, release, Symbol.letters, Symbol.text,
        visible_cons_of_isVisible (show isVisible 'd' = true by decide)]
    · obtain ⟨⟨delivered, next'⟩, hfree, hout⟩ := Option.map_eq_some_iff.mp h
      cases hout
      rw [takeFree_letters rfl hfree, lettersOf_cons, List.append_assoc]
      simp [heldSymbols, hheld]
  · next hheld =>
    have hfree : state.held = false := by simpa using hheld
    simp only [heldSymbols, hfree, Bool.false_eq_true, if_false, lettersOf_nil, List.nil_append]
    exact takeFree_letters hfree h

/-- Closing a row keeps its visible characters. -/
theorem run_letters {state last : Closing} {row out : List Symbol}
    (h : state.run row = some (out, last)) :
    lettersOf state.heldSymbols ++ lettersOf row
      = lettersOf out ++ lettersOf last.heldSymbols := by
  induction row generalizing state out with
  | nil =>
    cases h
    simp
  | cons symbol row ih =>
    obtain ⟨delivered, next, more, htake, hrun, rfl⟩ := run_cons_iff.mp h
    rw [lettersOf_cons, ← List.append_assoc, take_letters htake, List.append_assoc, ih hrun,
      lettersOf_append, List.append_assoc]

end Closing

/-- The closed row of a text has the visible characters of the text. -/
theorem lettersOf_closedRow? {text : Text} {row : List Symbol} (h : closedRow? text = some row) :
    lettersOf row = visible text := by
  obtain ⟨raw, hraw, hclosed⟩ := Option.bind_eq_some_iff.mp h
  obtain ⟨⟨out, last⟩, hrun, rfl⟩ := Option.map_eq_some_iff.mp hclosed
  rw [lettersOf_append, ← Closing.run_letters hrun, lettersOf_symbolsFrom hraw]
  rfl

/-! ## The characters of what is written -/

namespace Expr

/-- An operator is written by its name in front of the operand. -/
theorem render_unary (op : Operator) (operand : Expr) :
    (unary op operand).render
      = op.text ++ parenthesizeIf (operand.precedence ≤ signPrecedence) operand.render :=
  rfl

/-- An operator between operands is written from their texts. -/
theorem render_binary (op : Operator) (left right : Expr) (implicit : Bool) :
    (binary op left right implicit).render
      = binaryText op implicit left left.render right right.render :=
  rfl

/-- A call is written from the texts of its arguments. -/
theorem render_call (function : Text) (arguments : List Expr) :
    (call function arguments).render = callText function arguments (renderAll arguments) :=
  rfl

/-- The texts of a row of trees, one by one. -/
theorem renderAll_cons (e : Expr) (es : List Expr) :
    renderAll (e :: es) = e.render :: renderAll es :=
  rfl

/-- A root is written with its parts in parentheses. -/
theorem render_rootOne (radicand : Expr) :
    (call rootWord [radicand]).render = rootWord ++ parenthesizeIf true radicand.render :=
  rfl

/-- A root with an index writes both in parentheses. -/
theorem render_rootTwo (index radicand : Expr) :
    (call rootWord [index, radicand]).render
      = rootWord ++ parenthesizeIf true index.render ++ parenthesizeIf true radicand.render :=
  rfl

/-- An integral is written with its bounds as scripts and its variable behind the integrand. -/
theorem render_integral (integrand : Expr) (v : Text) :
    (call integralWord [integrand, name v]).render
      = integralWord ++ integrandText integrand integrand.render v :=
  rfl

/-- An integral with bounds writes the lower one first, then the upper one, the integrand and the
variable. -/
theorem render_integralBounds (integrand lower upper : Expr) (v : Text) :
    (call integralWord [integrand, name v, lower, upper]).render
      = integralWord ++ '_' :: scriptText lower lower.render
        ++ '^' :: scriptText upper upper.render ++ integrandText integrand integrand.render v :=
  rfl

@[simp] theorem visible_render_number (digits : Text) :
    visible (number digits).render = visible digits :=
  rfl

@[simp] theorem visible_render_name (text : Text) : visible (name text).render = visible text :=
  rfl

/-- A sign is written in front of its operand; parentheses are not visible. -/
@[simp] theorem visible_render_unary (op : Operator) (operand : Expr) :
    visible (unary op operand).render = visible op.text ++ visible operand.render := by
  rw [render_unary, visible_append, visible_parenthesizeIf]

/-- However a right operand is enclosed, its letters are its own. -/
@[simp] theorem visible_rightOperand (op : Operator) (right : Expr) (text : Text) :
    visible (rightOperand op right text) = visible text :=
  visible_parenthesizeIf ..

/-- An operator is written between its operands. -/
@[simp] theorem visible_render_binary (op : Operator) (left right : Expr) :
    visible (binary op left right false).render
      = visible left.render ++ visible op.text ++ visible right.render := by
  rw [render_binary]
  unfold binaryText
  split
  · rw [visible_append, visible_cons_of_isVisible (by decide)]
    simp [Operator.text, visible_cons_of_isVisible (show isVisible '/' = true by decide)]
  · rw [visible_append, visible_cons_of_isVisible (by decide)]
    simp [Operator.text, visible_cons_of_isVisible (show isVisible '^' = true by decide)]
  · simp

/-- A juxtaposition writes its operands only. -/
@[simp] theorem visible_render_juxtapose (left right : Expr) :
    visible (juxtapose left right).render = visible left.render ++ visible right.render := by
  rw [juxtapose, render_binary]
  unfold binaryText
  dsimp only
  rw [if_pos ⟨rfl, rfl⟩]
  split <;> simp

/-- A call other than an integral or a root is written with its arguments in a row. -/
theorem visible_render_call {function : Text} (hi : function ≠ integralWord)
    (hr : function ≠ rootWord) (arguments : List Expr) :
    visible (call function arguments).render
      = visible function ++ visible (commaSeparated (renderAll arguments)) := by
  rw [render_call]
  unfold callText
  rw [if_neg hi, if_neg hr, visible_append, visible_parenthesizeIf]

@[simp] theorem visible_render_rootOne (radicand : Expr) :
    visible (call rootWord [radicand]).render = visible rootWord ++ visible radicand.render := by
  rw [render_rootOne, visible_append, visible_parenthesizeIf]

/-- The letters of a root: its word, the index and the radicand. -/
@[simp] theorem visible_render_rootTwo (index radicand : Expr) :
    visible (call rootWord [index, radicand]).render
      = visible rootWord ++ visible index.render ++ visible radicand.render := by
  simp only [render_rootTwo, visible_append, visible_parenthesizeIf]

/-- However a script is enclosed, its letters are its own. -/
@[simp] theorem visible_scriptText (e : Expr) (text : Text) :
    visible (scriptText e text) = visible text :=
  visible_parenthesizeIf ..

/-- The integrand is written with the differential behind it. -/
theorem visible_integrandText (integrand : Expr) (text v : Text) :
    visible (integrandText integrand text v) = visible text ++ 'd' :: visible v := by
  unfold integrandText
  simp only [visible_append, visible_space, visible_parenthesizeIf, visible_d]

/-- The letters of an integral: its word, those of the integrand, and the differential. -/
@[simp] theorem visible_render_integral (integrand : Expr) (v : Text) :
    visible (call integralWord [integrand, name v]).render
      = visible integralWord ++ (visible integrand.render ++ 'd' :: visible v) := by
  rw [render_integral, visible_append, visible_integrandText]

/-- With bounds they stand between the word and the integrand, the lower one first. -/
@[simp] theorem visible_render_integralBounds (integrand lower upper : Expr) (v : Text) :
    visible (call integralWord [integrand, name v, lower, upper]).render
      = visible integralWord ++ '_' :: (visible lower.render ++ '^' :: (visible upper.render
        ++ (visible integrand.render ++ 'd' :: visible v))) := by
  rw [render_integralBounds]
  simp only [visible_append, visible_underscore, visible_caret, visible_scriptText,
    visible_integrandText, List.append_assoc, List.cons_append]

end Expr

/-! ## The characters of a phrase -/

/-- The arguments that are written in front of another one. -/
def argumentLetters (arguments : List Expr) : Text :=
  arguments.flatMap fun e => visible e.render ++ [',']

/-- A text in front of others has a comma behind it. -/
theorem visible_commaSeparated_cons (text : Text) {texts : List Text} (h : texts ≠ []) :
    visible (commaSeparated (text :: texts))
      = visible text ++ ',' :: visible (commaSeparated texts) := by
  cases texts with
  | nil => exact absurd rfl h
  | cons next texts =>
    rw [commaSeparated, visible_append, visible_cons_of_isVisible (by decide), visible_space]
    simp

/-- Arguments in a row, the last one without a comma behind it. -/
theorem visible_commaSeparated_concat (done : List Expr) (last : Expr) :
    visible (commaSeparated (Expr.renderAll (done ++ [last])))
      = argumentLetters done ++ visible last.render := by
  induction done with
  | nil => rfl
  | cons e done ih =>
    have hne : Expr.renderAll (done ++ [last]) ≠ [] := by
      cases done <;> exact List.cons_ne_nil _ _
    rw [List.cons_append, Expr.renderAll_cons, visible_commaSeparated_cons _ hne, ih]
    simp [argumentLetters]

/-- The characters of what has been read of a phrase that goes on. -/
def Phrase.letters : Phrase → Text
  | moreRelation left | moreAdditive left | moreTerm left => visible left.render
  | bigOperator head => visible head.render
  | morePowered base => visible base.render
  | arguments function done => visible function ++ argumentLetters done
  | _ => []

/-- A name that is not one of the two words that are written in a way of their own. -/
def Symbol.isPlain : Symbol → Prop
  | .name text => text ≠ integralWord ∧ text ≠ rootWord
  | _ => True

/-- The callee of the arguments that are read, if any, is plain. -/
def Phrase.isPlain : Phrase → Prop
  | arguments function _ => function ≠ integralWord ∧ function ≠ rootWord
  | _ => True

/-- A row that is written as it stands: its names are plain, and no integral has its upper bound
first unless the order does not matter. -/
def Plain (shuffled : Bool) (row : List Symbol) : Prop :=
  (∀ symbol ∈ row, symbol.isPlain) ∧ (shuffled = false → ¬ [Symbol.integral, .caret] <:+: row)

/-- The end of a plain row is plain. -/
theorem Plain.of_suffix {shuffled : Bool} {row rest : List Symbol} (h : Plain shuffled row)
    (hrest : rest <:+ row) : Plain shuffled rest :=
  ⟨fun symbol hsymbol => h.1 symbol (hrest.subset hsymbol),
    fun hs hwithin => h.2 hs (hwithin.trans hrest.isInfix)⟩

theorem Plain.tail {shuffled : Bool} {row : List Symbol} {symbol : Symbol}
    (h : Plain shuffled (symbol :: row)) : Plain shuffled row :=
  h.of_suffix (List.suffix_cons ..)

/-- What is called is written as its symbol is. -/
theorem Symbol.visible_callee {symbol : Symbol} {function : Text}
    (h : symbol.callee? = some function) : symbol.letters = visible function := by
  cases symbol <;> cases h <;> rfl

/-- A plain symbol calls neither an integral nor a root, which are written in a way of their own. -/
theorem Symbol.callee_isPlain {symbol : Symbol} {function : Text} (hplain : symbol.isPlain)
    (h : symbol.callee? = some function) : function ≠ integralWord ∧ function ≠ rootWord := by
  cases symbol <;> cases h
  · exact hplain
  · next f => cases f <;> decide

/-- The symbol of an operator is written like the operator. -/
theorem Symbol.letters_operator {symbol : Symbol} {op : Operator}
    (h : symbol.additive? = some op ∨ symbol.multiplicative? = some op ∨ symbol.sign? = some op) :
    symbol.letters = visible op.text := by
  cases symbol <;> rcases h with h | h | h <;> cases h <;> rfl

/-- Reading a phrase keeps the visible characters: those of the row, behind what has been read
already, are those of the tree and of the rest of the row. -/
theorem Reads.letters {shuffled : Bool} {phrase : Phrase} {input rest : List Symbol} {tree : Expr}
    (h : Reads phrase input tree rest) (hphrase : phrase.isPlain) (hplain : Plain shuffled input) :
    SameLetters shuffled (phrase.letters ++ lettersOf input)
      (visible tree.render ++ lettersOf rest) := by
  -- What a phrase goes on with counts as read already. Only an integral with its upper bound first changes the
  -- order.
  induction h with
  | relation h₁ _ ih₁ ih₂ | additive h₁ _ ih₁ ih₂ | term h₁ _ ih₁ ih₂ | powered h₁ _ ih₁ ih₂
  | operand h₁ _ ih₁ ih₂ =>
    exact (ih₁ trivial hplain).trans (ih₂ trivial (hplain.of_suffix h₁.suffix))
  | relationEnd | additiveEnd | termEnd | bigAlone | poweredEnd | number | name | functionAlone
  | rootAlone =>
    exact .of_eq (by simp [Phrase.letters, Symbol.letters, Symbol.text])
  | factor _ _ _ ih₁ | primary _ _ ih₁ | bound _ _ ih₁ => exact ih₁ trivial hplain
  | relationNext h₁ _ ih₁ ih₂ | bigSubscript h₁ _ ih₁ ih₂ | bigPower h₁ _ ih₁ ih₂ | subscript h₁ _ ih₁ ih₂ =>
    have hmiddle := hplain.tail.of_suffix h₁.suffix
    refine .symbol (ih₁ trivial hplain.tail) ?_
    simpa [Phrase.letters, Symbol.letters, Symbol.text, Operator.text] using ih₂ trivial hmiddle
  | additiveNext hop h₁ _ ih₁ ih₂ =>
    have hmiddle := hplain.tail.of_suffix h₁.suffix
    refine .symbol (ih₁ trivial hplain.tail) ?_
    simpa [Phrase.letters, Symbol.letters_operator (.inl hop)] using ih₂ trivial hmiddle
  | termNext hop h₁ _ ih₁ ih₂ =>
    have hmiddle := hplain.tail.of_suffix h₁.suffix
    refine .symbol (ih₁ trivial hplain.tail) ?_
    simpa [Phrase.letters, Symbol.letters_operator (.inr (.inl hop))] using ih₂ trivial hmiddle
  | termBeside _ h₁ _ ih₁ ih₂ =>
    refine .step (ih₁ trivial hplain) ?_
    simpa [Phrase.letters] using ih₂ trivial (hplain.of_suffix h₁.suffix)
  | sign hop _ ih₁ =>
    refine .symbol (ih₁ trivial hplain.tail) (.of_eq ?_)
    simp [Phrase.letters, Symbol.letters_operator (.inr (.inr hop))]
  | bigOperator _ ih₁ | group _ ih₁ =>
    simpa [Phrase.letters, Symbol.letters, Symbol.text] using ih₁ trivial hplain.tail
  | bigTerm _ _ ih₁ =>
    refine .step (ih₁ trivial hplain) (.of_eq ?_)
    simp [Phrase.letters]
  | power _ ih₁ | integral _ _ ih₁ | boundMinus _ ih₁ =>
    refine .symbol (ih₁ trivial hplain.tail) (.of_eq ?_)
    simp [Phrase.letters, Symbol.letters, Symbol.text, Operator.text]
  | callEmpty hcallee =>
    obtain ⟨hi, hr⟩ := Symbol.callee_isPlain (hplain.1 _ List.mem_cons_self) hcallee
    refine .of_eq ?_
    rw [lettersOf_cons, Symbol.visible_callee hcallee, Expr.visible_render_call hi hr]
    simp [Phrase.letters, Symbol.letters, Symbol.text, Expr.renderAll, commaSeparated]
  | call hcallee _ _ ih₁ =>
    have hfunction := Symbol.callee_isPlain (hplain.1 _ List.mem_cons_self) hcallee
    have h := ih₁ hfunction hplain.tail.tail
    rw [lettersOf_cons, Symbol.visible_callee hcallee]
    simpa [Phrase.letters, Symbol.letters, Symbol.text, argumentLetters] using h
  | @functionOperand f _ _ _ _ _ ih₁ =>
    have hf : f.text ≠ integralWord ∧ f.text ≠ rootWord := by cases f <;> decide
    refine .symbol (ih₁ trivial hplain.tail) (.of_eq ?_)
    rw [Expr.visible_render_call hf.1 hf.2]
    simp [Phrase.letters, Symbol.letters, Symbol.text, Expr.renderAll, commaSeparated]
  | rootOne _ _ ih₁ =>
    refine .symbol (ih₁ trivial hplain.tail.tail) (.of_eq ?_)
    simp [Phrase.letters, Symbol.letters, Symbol.text]
  | rootTwo h₁ _ ih₁ ih₂ =>
    have hmiddle := (hplain.tail.tail.of_suffix h₁.suffix).tail.tail
    refine .symbol (ih₁ trivial hplain.tail.tail) ?_
    refine .step (ih₂ trivial hmiddle) (.of_eq ?_)
    simp [Phrase.letters, Symbol.letters, Symbol.text]
  | integralLower h₁ h₂ _ ih₁ ih₂ ih₃ =>
    have hmiddle := (hplain.tail.tail.of_suffix h₁.suffix).tail
    have hbody := hmiddle.of_suffix h₂.suffix
    rw [lettersOf_cons, ← List.append_assoc]
    refine .symbol (ih₁ trivial hplain.tail.tail) ?_
    refine .symbol (ih₂ trivial hmiddle) ?_
    refine .step (ih₃ trivial hbody) (.of_eq ?_)
    simp [Phrase.letters, Symbol.letters, Symbol.text]
  | @integralUpper _ _ _ rest lower upper integrand v h₁ h₂ _ ih₁ ih₂ ih₃ =>
    have hshuffled : shuffled = true := by
      cases shuffled with
      | true => rfl
      | false => exact absurd ⟨[], _, rfl⟩ (hplain.2 rfl)
    have hmiddle := (hplain.tail.tail.of_suffix h₁.suffix).tail
    have hbody := hmiddle.of_suffix h₂.suffix
    rw [lettersOf_cons, ← List.append_assoc]
    refine .symbol (ih₁ trivial hplain.tail.tail) ?_
    refine .symbol (ih₂ trivial hmiddle) ?_
    refine .step (ih₃ trivial hbody) ?_
    -- The tree has the lower bound first, so the two bounds change places.
    have hswap := SameLetters.swap hshuffled ('^' :: visible upper.render)
      ('_' :: visible lower.render)
    have hbounds := (hswap.append_left (visible integralWord)).append
      (.refl (visible integrand.render ++ lettersOf (.differential v :: rest)))
    refine .trans (.of_eq ?_) (hbounds.trans (.of_eq ?_))
    · simp [Phrase.letters, Symbol.letters, Symbol.text]
    · simp [Symbol.letters]
  | @argumentsNext _ done _ _ _ _ _ h₁ _ ih₁ ih₂ =>
    have hmiddle := (hplain.of_suffix h₁.suffix).tail
    refine .step (ih₁ trivial hplain) ?_
    simpa [Phrase.letters, argumentLetters, Symbol.letters, Symbol.text] using ih₂ hphrase hmiddle
  | argumentsEnd _ ih₁ =>
    refine .step (ih₁ trivial hplain) (.of_eq ?_)
    rw [Expr.visible_render_call hphrase.1 hphrase.2, visible_commaSeparated_concat]
    simp [Phrase.letters, Symbol.letters, Symbol.text]

/-! ## The characters of a formula -/

/-- A word that is not reserved is a plain name. -/
theorem Symbol.ofWord_isPlain (word : Text) : (ofWord word).isPlain := by
  unfold ofWord
  split
  · trivial
  · next hi =>
    split
    · trivial
    · next hr =>
      split
      · trivial
      · split
        · trivial
        · exact ⟨hi, hr⟩

/-- Reading a text gives plain symbols: the two words have symbols of their own. -/
theorem Symbol.read?_isPlain {c : Char} {rest : Text} {symbol : Symbol}
    (h : read? c rest = some symbol) : symbol.isPlain := by
  unfold read? at h
  split at h
  · cases h
    exact ofWord_isPlain _
  · split at h
    · unfold markAt? at h
      split at h <;> cases h <;> trivial
    · cases h
      trivial

/-- The names of a closed row are plain. -/
theorem closedRow?_isPlain {text : Text} {row : List Symbol} (h : closedRow? text = some row) :
    ∀ symbol ∈ row, symbol.isPlain := by
  refine closedRow?_forall Symbol.read?_isPlain ⟨⟨by decide, by decide⟩, ?_, ?_⟩ h
  · exact fun _ _ => trivial
  · exact fun _ _ _ _ => trivial

/-- Some integral of the text has its upper bound in front of its lower one. -/
def HasUpperFirst (text : Text) : Prop :=
  ∃ tokens, tokenize text = .ok tokens ∧ [.integral, .caret] <:+: tokens.map Token.symbol

/-- **Reading and writing change white space and parentheses only.** The visible characters of what
is written are those of what was read, up to their order; and in their order, when no integral has its
upper bound first. -/
theorem letters_of_parse {text : Text} {tree : Expr} (hparse : parse text = .ok tree) :
    (visible tree.render).Perm (visible text)
      ∧ (¬ HasUpperFirst text → visible tree.render = visible text) := by
  obtain ⟨row, hrow, hreads⟩ := parse_eq_ok_iff.mp hparse
  have hletters : ∀ shuffled, Plain shuffled row →
      SameLetters shuffled (visible text) (visible tree.render) := by
    intro shuffled hplain
    have h := hreads.letters trivial hplain
    rw [lettersOf_closedRow? hrow, lettersOf_nil, List.append_nil] at h
    exact h
  constructor
  · have h := hletters true ⟨closedRow?_isPlain hrow, nofun⟩
    exact List.Perm.symm h
  · intro hordered
    obtain ⟨tokens, htokens, rfl⟩ := closedRow?_eq_some_iff_tokenize.mp hrow
    have h := hletters false ⟨closedRow?_isPlain hrow, fun _ hupper =>
      hordered ⟨tokens, htokens, hupper⟩⟩
    exact Eq.symm h

/-- An integral with both bounds, whose integrand loses its parentheses. -/
theorem letters_of_parse_integral :
    parse "int_0^(1) (2x) dx".toList = .ok (.call integralWord
        [.juxtapose (.number ['2']) (.name ['x']), .name ['x'], .number ['0'], .number ['1']])
      ∧ visible "int_0^1 2x d x".toList = visible "int_0^(1) (2x) dx".toList := by
  have hparse : parse "int_0^(1) (2x) dx".toList = .ok (.call integralWord
      [.juxtapose (.number ['2']) (.name ['x']), .name ['x'], .number ['0'], .number ['1']]) := by
    cbv
  have hrender : Expr.render (.call integralWord
      [.juxtapose (.number ['2']) (.name ['x']), .name ['x'], .number ['0'], .number ['1']])
        = "int_0^1 2x d x".toList := rfl
  have hrow : closedRow? "int_0^(1) (2x) dx".toList = some [.integral, .underscore, .number ['0'],
      .caret, .openParen, .number ['1'], .closeParen, .openParen, .number ['2'], .name ['x'],
      .closeParen, .differential ['x']] := rfl
  refine ⟨hparse, ?_⟩
  rw [← hrender]
  refine (letters_of_parse hparse).2 ?_
  rintro ⟨tokens, htokens, hupper⟩
  have hsame := hrow.symm.trans (closedRow?_eq_some_iff_tokenize.mpr ⟨tokens, htokens, rfl⟩)
  rw [← Option.some.inj hsame] at hupper
  revert hupper
  decide

end MathScribe

/-
The symbols of the text of a tree.

The text of a tree has the symbols of the tree's row, with every differential as the two names that it is
written with (`Unambiguous.spells`). Symbols that stand next to each other in the row do not run into each
other: wherever a text ends, it ends in a number, a name or a closing parenthesis, and wherever another
text follows, there is an operator, a parenthesis, a comma or a space between them, or the text behind
starts with something that the number in front cannot go on with. So each node of a tree needs only to know
with which characters a text can start and with which symbols it can end (`Spells`).
-/
import MathScribe.Proofs.Reading.Bracket
import MathScribe.Proofs.Reading.Group
import MathScribe.Proofs.Writing.Row

set_option autoImplicit false

namespace MathScribe

/-! ## Characters -/

/-- A character that lengthens no word and no number in front of it. -/
def Separates (c : Char) : Prop :=
  c.isAlphanum = false ∧ isDecimalDigit c = false ∧ c ≠ '.'

instance (c : Char) : Decidable (Separates c) :=
  inferInstanceAs (Decidable (_ ∧ _ ∧ _))

/-- A character that the text of a tree can start with. -/
def startsOperand (c : Char) : Bool :=
  c.isAlpha || isDecimalDigit c || c == '.' || c == '(' || c == '-' || c == '+'

/-- A name, or a word with a meaning of its own. -/
def Symbol.isWord : Symbol → Bool
  | name _ | function _ | bigOperator _ | root | integral => true
  | _ => false

/-- A symbol that the text of a tree can end with. -/
def Symbol.endsOperand : Symbol → Bool
  | number _ | closeParen => true
  | symbol => symbol.isWord

/-- An operand does not start with a blank. -/
theorem isBlank_of_startsOperand {c : Char} (h : startsOperand c = true) : isBlank c = false := by
  simp only [startsOperand, Bool.or_eq_true, beq_iff_eq] at h
  rcases h with ((((halpha | hdigit) | rfl) | rfl) | rfl) | rfl
  · exact isBlank_of_isAlphanum (by simp [Char.isAlphanum, halpha])
  · exact isBlank_of_isDecimalDigit hdigit
  all_goals decide

/-- A character that separates ends every operand. -/
theorem Symbol.not_goesOnWith_of_separates {symbol : Symbol} (h : symbol.endsOperand = true) {c : Char}
    (hc : Separates c) : symbol.goesOnWith c = false := by
  cases symbol with
  | number digits => simp [goesOnWith, hc.2.1, hc.2.2]
  | closeParen => rfl
  | name _ | function _ | bigOperator _ | root | integral => exact hc.1
  | _ => cases h

/-- Letters are no digits, so a number ends in front of a name. -/
theorem not_isDecimalDigit_of_isAlpha {c : Char} (h : c.isAlpha = true) : isDecimalDigit c = false := by
  have hzeros : ∀ first ∈ digitZeros, first = 0x30 ∨ 0x660 ≤ first := by
    decide
  refine Bool.eq_false_iff.mpr fun hdigit => ?_
  obtain ⟨first, hmem, hbounds⟩ := List.any_eq_true.mp hdigit
  have hfirst := hzeros first hmem
  simp only [Bool.and_eq_true, decide_eq_true_eq] at hbounds
  simp [Char.isAlpha, Char.isUpper, Char.isLower, UInt32.le_iff_toNat_le] at h
  omega

theorem not_isAlpha_of_isDecimalDigit {c : Char} (h : isDecimalDigit c = true) : c.isAlpha = false :=
  Bool.eq_false_iff.mpr fun hc => absurd (h.symm.trans (not_isDecimalDigit_of_isAlpha hc)) Bool.noConfusion

/-! ## Words, numbers and operators -/

/-- A word in front of a text that does not go on with it. -/
theorem symbolsOf_word {word text : Text} {row : List Symbol}
    (hword : IsWord word)
    (htext : symbolsOf text = some row) (hends : ∀ d ∈ text.head?, d.isAlphanum = false) :
    symbolsOf (word ++ text) = some (Symbol.ofWord word :: row) := by
  obtain ⟨c, rest, rfl, hc, hrest⟩ := hword
  have hread : Symbol.read? c (rest ++ text) = some (Symbol.ofWord (c :: rest)) := by
    unfold Symbol.read?
    rw [if_pos hc, takeWhile_eq_iff.mpr ⟨hrest, hends⟩]
  have hblank : isBlank c = false := isBlank_of_isAlphanum (by simp [Char.isAlphanum, hc])
  rw [List.cons_append, symbolsOf_append hblank hread (Symbol.ofWord_text _), htext]
  rfl

/-- The words that can stand alone, each for the symbol of the name that it is. -/
inductive Symbol.Standing (word : Text) : Symbol → Prop
  | plain : Standing word (.name word)
  | function {f : NamedFunction} : f.text = word → Standing word (.function f)
  | root : rootWord = word → Standing word .root

/-- A word opens an integral, or it is a big operator, or it can stand alone as a name. -/
theorem Symbol.ofWord_cases (word : Text) :
    ofWord word = .integral ∨ (∃ op : BigOperator, ofWord word = .bigOperator op ∧ op.text = word)
      ∨ Standing word (ofWord word) := by
  have htext := ofWord_text word
  unfold ofWord at htext ⊢
  split
  · exact .inl rfl
  · split
    · next hroot => exact .inr (.inr (.root hroot.symm))
    · split
      · next hfunction =>
        simp only [*] at htext
        exact .inr (.inr (.function htext))
      · split
        · next hoperator =>
          simp only [*] at htext
          exact .inr (.inl ⟨_, rfl, htext⟩)
        · exact .inr (.inr .plain)

/-- Whatever a word is, a name, a function or a keyword, it is read as one token. -/
theorem Symbol.isWord_ofWord (word : Text) : (ofWord word).isWord = true := by
  unfold ofWord
  repeat' split
  all_goals rfl

/-- A word is no differential. -/
theorem Symbol.raw_ofWord (word : Text) : (ofWord word).raw = [ofWord word] := by
  unfold ofWord
  repeat' split
  all_goals rfl

theorem Symbol.endsOperand_of_isWord {symbol : Symbol} (h : symbol.isWord = true) :
    symbol.endsOperand = true := by
  cases symbol <;> first | rfl | cases h

/-- A word that no rule of the lexer reserves is a name. -/
theorem Symbol.ofWord_of_unreserved {word : Text} (h : word ∉ reservedWords) :
    ofWord word = .name word := by
  simp only [reservedWords, List.mem_cons, List.mem_append, not_or] at h
  obtain ⟨hi, hr, hf, hb⟩ := h
  have hfunction : NamedFunction.all.find? (·.text = word) = none := by
    refine List.find?_eq_none.mpr fun f hmem heq => hf ?_
    exact of_decide_eq_true heq ▸ List.mem_map_of_mem hmem
  have hbig : BigOperator.all.find? (·.text = word) = none := by
    refine List.find?_eq_none.mpr fun op hmem heq => hb ?_
    exact of_decide_eq_true heq ▸ List.mem_map_of_mem hmem
  rw [ofWord, if_neg hi, if_neg hr, hfunction, hbig]

theorem PlainName.ofWord {text : Text} (h : PlainName text) : Symbol.ofWord text = .name text :=
  Symbol.ofWord_of_unreserved h.unreserved

theorem Symbol.ofWord_rootWord : ofWord rootWord = .root :=
  rfl

theorem Symbol.ofWord_integralWord : ofWord integralWord = .integral :=
  rfl

theorem Symbol.ofWord_function (f : NamedFunction) : ofWord f.text = .function f := by
  cases f <;> rfl

theorem Symbol.ofWord_bigOperator (op : BigOperator) : ofWord op.text = .bigOperator op := by
  cases op <;> rfl

theorem BigOperator.word (op : BigOperator) : IsWord op.text := by
  cases op <;> exact ⟨_, _, rfl, rfl, List.all_eq_true.mp rfl⟩

theorem isWord_rootWord : IsWord rootWord :=
  ⟨'r', _, rfl, rfl, List.all_eq_true.mp rfl⟩

theorem isWord_integralWord : IsWord integralWord :=
  ⟨'i', _, rfl, rfl, List.all_eq_true.mp rfl⟩

/-- A name that calls is a word, and not one that is written in a way of its own. -/
theorem Callee.word {function : Text} (h : Callee function) : IsWord function := by
  cases h with
  | plain h => exact h.word
  | function f => cases f <;> exact ⟨_, _, rfl, rfl, List.all_eq_true.mp rfl⟩

/-- A function that may be called has neither of the two names with a syntax of their own. -/
theorem Callee.ne {function : Text} (h : Callee function) :
    function ≠ integralWord ∧ function ≠ rootWord := by
  cases h with
  | plain h =>
    refine ⟨fun heq => h.unreserved ?_, fun heq => h.unreserved ?_⟩ <;> subst heq <;> decide
  | function f => cases f <;> decide

/-- A number in front of a text that does not go on with it. -/
theorem symbolsOf_number {digits text : Text} {row : List Symbol} (hne : digits ≠ [])
    (hdigits : Symbol.NumberText digits) (htext : symbolsOf text = some row)
    (hends : Symbol.EndsNumber digits text) :
    symbolsOf (digits ++ text) = some (.number digits :: row) := by
  have hnumber : Symbol.numberAt (digits ++ text) = digits := Symbol.numberAt_append hdigits hends
  -- The number starts with a digit or a point, so neither a word nor white space is read in its place.
  obtain ⟨c, rest, rfl⟩ := List.exists_cons_of_ne_nil hne
  have hc : c.isAlpha = false := by
    rcases hdigits.isDecimalDigit_or_point c List.mem_cons_self with hdigit | rfl
    · exact not_isAlpha_of_isDecimalDigit hdigit
    · rfl
  have hblank : isBlank c = false :=
    Symbol.isWordChar_not_blank (hdigits.isWordChar c List.mem_cons_self)
  have hread : Symbol.read? c (rest ++ text) = some (.number (c :: rest)) := by
    have hne : Symbol.numberAt (c :: (rest ++ text)) ≠ [] := by
      rw [← List.cons_append, hnumber]
      exact List.cons_ne_nil c rest
    rw [Symbol.read?_of_number hc hne, ← List.cons_append, hnumber]
  rw [List.cons_append, symbolsOf_append hblank hread rfl, htext]
  rfl

/-- An operator in front of a text that does not go on with it. -/
theorem symbolsOf_operator (op : Operator) {text : Text} {row : List Symbol} (hop : op ∈ Operator.all)
    (htext : symbolsOf text = some row) (hends : ∀ d ∈ text.head?, op.symbol.goesOnWith d = false) :
    symbolsOf (op.text ++ text) = some (op.symbol :: row) := by
  have hsymbols : ∀ op ∈ Operator.all, symbolsOf op.text = some [op.symbol] := by
    decide
  refine symbolsOf_join (hsymbols op hop) htext ?_
  intro symbol hsymbol
  cases hsymbol
  exact hends

/-! ## Texts of trees -/

/-- A text with its symbols, which starts and ends like the text of a tree. -/
structure Spells (text : Text) (row : List Symbol) : Prop where
  symbols : symbolsOf text = some row
  first : ∃ c rest, text = c :: rest ∧ startsOperand c = true
  /-- It does not start with an arrow. -/
  minus : text.head? = some '-' → row.head? = some .minus
  last : ∃ front symbol, row = front ++ [symbol] ∧ symbol.endsOperand = true

namespace Spells

variable {text other : Text} {row others : List Symbol}

/-- A text behind the text of a tree that is separated from it. -/
theorem append (h : Spells text row) (hother : symbolsOf other = some others)
    (hseparates : ∀ d ∈ other.head?, Separates d) : symbolsOf (text ++ other) = some (row ++ others) := by
  obtain ⟨front, symbol, rfl, hends⟩ := h.last
  refine symbolsOf_join h.symbols hother fun symbol' hlast d hd => ?_
  rw [List.getLast?_concat] at hlast
  cases hlast
  exact Symbol.not_goesOnWith_of_separates hends (hseparates d hd)

/-- The text of a tree behind an operator does not lengthen it, unless that is a plus and the text starts
with a minus. -/
theorem not_goesOnWith (h : Spells text row) {op : Operator} (hop : op ∈ Operator.all)
    (hplus : op = .plus → text.head? ≠ some '-') : ∀ d ∈ text.head?, op.symbol.goesOnWith d = false := by
  obtain ⟨c, rest, rfl, hc⟩ := h.first
  intro d hd
  cases hd
  have hmarks : c ≠ '=' ∧ c ≠ '>' := by
    constructor <;> rintro rfl <;> exact absurd hc (by decide)
  cases op with
  | relation r => cases r <;> simp [Operator.symbol, Symbol.goesOnWith, hmarks]
  | plus => simpa [Operator.symbol, Symbol.goesOnWith] using hplus rfl
  | minus => simpa [Operator.symbol, Symbol.goesOnWith] using hmarks.2
  | other text => simp [Operator.all] at hop
  | _ => rfl

/-- Parentheses around the text of a tree. -/
theorem enclosed (h : Spells text row) (needed : Bool) :
    Spells (parenthesizeIf needed text) (encloseIf needed row) := by
  cases needed with
  | false => exact h
  | true =>
    have hclose : symbolsOf [')'] = some [.closeParen] := by decide
    refine ⟨?_, ⟨'(', _, rfl, by decide⟩, nofun, ⟨.openParen :: row, .closeParen, rfl, rfl⟩⟩
    have hinside := h.append hclose (by simp; decide)
    change symbolsOf ('(' :: (text ++ [')'])) = _
    rw [symbolsOf_openParen, hinside]
    rfl

/-- A number is spelled by its digits. -/
theorem number {digits : Text} (hne : digits ≠ []) (h : Symbol.NumberText digits) :
    Spells digits [.number digits] := by
  have hsymbols := symbolsOf_number hne h symbolsOf_nil (.of_apart (by simp) digits)
  rw [List.append_nil] at hsymbols
  obtain ⟨c, rest, rfl⟩ := List.exists_cons_of_ne_nil hne
  have hc := h.isDecimalDigit_or_point c List.mem_cons_self
  refine ⟨hsymbols, ⟨c, rest, rfl, ?_⟩, fun hminus => ?_, ⟨[], _, rfl, rfl⟩⟩
  · rcases hc with hdigit | rfl
    · simp [startsOperand, hdigit]
    · decide
  · cases hminus
    exact absurd hc (by decide)

/-- A word is spelled by its letters, be it a name or a keyword. -/
theorem word {text : Text} (h : IsWord text) : Spells text [.ofWord text] := by
  have hsymbols := symbolsOf_word h symbolsOf_nil nofun
  rw [List.append_nil] at hsymbols
  obtain ⟨c, rest, rfl, hc, -⟩ := h
  refine ⟨hsymbols, ⟨c, rest, rfl, by simp [startsOperand, hc]⟩, fun hminus => ?_,
    ⟨[], _, rfl, Symbol.endsOperand_of_isWord (Symbol.isWord_ofWord _)⟩⟩
  cases hminus
  cases hc

/-- A plain name is spelled as a name and not as a keyword. -/
theorem name {text : Text} (h : PlainName text) : Spells text [.name text] :=
  h.ofWord ▸ word h.word

/-- A sign in front of an operand. -/
theorem sign (h : Spells text row) {op : Operator} (hop : op = .minus ∨ op = .plusMinus) :
    Spells (op.text ++ text) (op.symbol :: row) := by
  have hall : op ∈ Operator.all := by rcases hop with rfl | rfl <;> decide
  have hplus : op ≠ .plus := by rcases hop with rfl | rfl <;> decide
  obtain ⟨front, last, rfl, hlast⟩ := h.last
  refine ⟨symbolsOf_operator op hall h.symbols (h.not_goesOnWith hall fun heq => absurd heq hplus), ?_, ?_,
    ⟨op.symbol :: front, last, rfl, hlast⟩⟩
  · rcases hop with rfl | rfl
    · exact ⟨'-', _, rfl, by decide⟩
    · exact ⟨'+', _, rfl, by decide⟩
  · rcases hop with rfl | rfl
    · exact fun _ => rfl
    · exact nofun

/-- The text of a tree goes on with symbols that end like the row of a tree. -/
theorem followed (h : Spells text row) {behind : Text} {more front : List Symbol} {last : Symbol}
    (hsymbols : symbolsOf (text ++ behind) = some (row ++ more)) (hmore : more = front ++ [last])
    (hlast : last.endsOperand = true) : Spells (text ++ behind) (row ++ more) := by
  obtain ⟨c, rest, rfl, hc⟩ := h.first
  refine ⟨hsymbols, ⟨c, _, rfl, hc⟩, fun hminus => ?_, ⟨row ++ front, last, by simp [hmore], hlast⟩⟩
  rw [List.head?_append, h.minus hminus]
  rfl

/-- A text in front of the text of a tree starts and ends like the text of a tree. -/
theorem concat (h : Spells text row) (hother : Spells other others) (between : Text)
    (mark : List Symbol)
    (hsymbols : symbolsOf (text ++ (between ++ other)) = some (row ++ (mark ++ others))) :
    Spells (text ++ (between ++ other)) (row ++ (mark ++ others)) := by
  obtain ⟨front, last, hrow, hlast⟩ := hother.last
  have hmore : mark ++ others = (mark ++ front) ++ [last] := by simp [hrow]
  exact h.followed hsymbols hmore hlast

/-- An operator between two operands. -/
theorem operator (h : Spells text row) (op : Operator) (hother : Spells other others)
    (hop : op ∈ Operator.all) (hplus : op = .plus → other.head? ≠ some '-') :
    Spells (text ++ (op.text ++ other)) (row ++ op.symbol :: others) := by
  -- No operator starts with a character that a number or a name would go on with.
  have hseparates : ∀ op ∈ Operator.all,
      op.text.head?.any (fun c => decide (Separates c)) = true := by
    decide
  have hbehind := symbolsOf_operator op hop hother.symbols (hother.not_goesOnWith hop hplus)
  have hsymbols := h.append hbehind (by
    obtain ⟨c, htext, hc⟩ := (Option.any_eq_true _ _).mp (hseparates op hop)
    rw [List.head?_append, htext]
    simpa using hc)
  exact h.concat hother op.text [op.symbol] hsymbols

/-- A space between two operands. -/
theorem beside (h : Spells text row) (hother : Spells other others) :
    Spells (text ++ ' ' :: other) (row ++ others) := by
  have hbehind : symbolsOf (' ' :: other) = some others := by
    rw [symbolsOf_blank (by decide), hother.symbols]
  exact h.concat hother [' '] [] (h.append hbehind (by simp; decide))

/-- A number that is glued to an operand. -/
theorem glue {digits : Text} (hne : digits ≠ []) (h : Symbol.NumberText digits)
    (hother : Spells other others) (hends : ∀ d ∈ other.head?, isDecimalDigit d = false ∧ d ≠ '.') :
    Spells (digits ++ other) (.number digits :: others) :=
  (number hne h).concat hother [] []
    (symbolsOf_number hne h hother.symbols (.of_apart hends digits))

/-- Arguments with commas between them, up to the closing parenthesis. -/
theorem arguments {rowOf : Expr → List Symbol} {es : List Expr}
    (h : ∀ e ∈ es, Spells e.render (rowOf e)) :
    symbolsOf (commaSeparated (Expr.renderAll es) ++ [')'])
      = some (commaRow (es.map rowOf) ++ [Symbol.closeParen]) := by
  have hclose : symbolsOf [')'] = some [.closeParen] := by decide
  induction es with
  | nil => exact hclose
  | cons e es ih =>
    obtain ⟨he, hes⟩ := List.forall_mem_cons.mp h
    cases es with
    | nil => exact he.append hclose (by simp; decide)
    | cons next es =>
      have hcomma : symbolsOf (',' :: ' ' :: (commaSeparated (Expr.renderAll (next :: es)) ++ [')']))
          = some (.comma :: (commaRow ((next :: es).map rowOf) ++ [Symbol.closeParen])) := by
        rw [symbolsOf_symbol (by decide) rfl]
        change (symbolsOf (' ' :: _)).map _ = _
        rw [symbolsOf_blank (by decide), ih hes]
        rfl
      have hwhole := he.append hcomma (by simp; decide)
      simpa [Expr.renderAll, commaSeparated, commaRow] using hwhole

/-- A word with a group behind it. -/
theorem word_group {word inside behind : Text} {row : List Symbol}
    (h : IsWord word)
    (hinside : symbolsOf (inside ++ ')' :: behind) = some row) :
    symbolsOf (word ++ '(' :: (inside ++ ')' :: behind))
      = some (Symbol.ofWord word :: .openParen :: row) := by
  refine symbolsOf_word h ?_ ?_
  · rw [symbolsOf_openParen, hinside]
    rfl
  · intro d hd
    cases hd
    decide

/-- What starts with a word starts like the text of a tree. -/
theorem of_word {word behind : Text} (front : List Symbol) {last : Symbol}
    (h : IsWord word)
    (hsymbols : symbolsOf (word ++ behind) = some (front ++ [last])) (hlast : last.endsOperand = true) :
    Spells (word ++ behind) (front ++ [last]) := by
  obtain ⟨c, rest, rfl, hc, -⟩ := h
  refine ⟨hsymbols, ⟨c, _, rfl, by simp [startsOperand, hc]⟩, fun hminus => ?_, ⟨front, last, rfl, hlast⟩⟩
  cases hminus
  cases hc

/-- A name with its arguments in parentheses. -/
theorem call {function : Text} (h : IsWord function) {rowOf : Expr → List Symbol} {es : List Expr}
    (hes : ∀ e ∈ es, Spells e.render (rowOf e)) :
    Spells (function ++ parenthesizeIf true (commaSeparated (Expr.renderAll es)))
      (Symbol.ofWord function :: encloseIf true (commaRow (es.map rowOf))) :=
  of_word (Symbol.ofWord function :: .openParen :: commaRow (es.map rowOf)) h
    (word_group h (arguments hes)) rfl

/-- A root with its index and its radicand. -/
theorem root (h : Spells text row) (hother : Spells other others) :
    Spells (rootWord ++ (parenthesizeIf true text ++ parenthesizeIf true other))
      (.root :: (encloseIf true row ++ encloseIf true others)) := by
  have hclosed : symbolsOf (text ++ ')' :: parenthesizeIf true other)
      = some (row ++ Symbol.closeParen :: encloseIf true others) := by
    refine h.append ?_ (by simp; decide)
    rw [symbolsOf_closeParen, (hother.enclosed true).symbols]
    rfl
  have hsymbols : symbolsOf (rootWord ++ '(' :: (text ++ ')' :: parenthesizeIf true other))
      = some (.root :: encloseIf true row ++ Symbol.openParen :: others ++ [Symbol.closeParen]) := by
    rw [word_group isWord_rootWord hclosed, Symbol.ofWord_rootWord]
    simp [encloseIf]
  have hspells := of_word _ isWord_rootWord hsymbols rfl
  simpa [parenthesizeIf, encloseIf] using hspells

/-- An integrand with the name `d` and the variable behind it. -/
theorem integrand (h : Spells text row) {v : Text} (hv : PlainName v) :
    Spells (text ++ ' ' :: 'd' :: ' ' :: v) (row ++ [Symbol.name ['d'], .name v]) := by
  have hd : PlainName ['d'] := .letter (by decide)
  exact h.beside ((name hd).beside (name hv))

/-- The word of an integral in front of a text that does not go on with it. -/
theorem integral_word (h : Spells text row) (mark : Text) (marks : List Symbol)
    (hmark : symbolsOf (mark ++ text) = some (marks ++ row))
    (hends : ∀ d ∈ (mark ++ text).head?, d.isAlphanum = false) :
    Spells (integralWord ++ (mark ++ text)) (.integral :: (marks ++ row)) := by
  obtain ⟨front, last, rfl, hlast⟩ := h.last
  have hsymbols : symbolsOf (integralWord ++ (mark ++ text))
      = some (.integral :: (marks ++ front) ++ [last]) := by
    rw [symbolsOf_word isWord_integralWord hmark hends, Symbol.ofWord_integralWord]
    simp
  have hspells := of_word _ isWord_integralWord hsymbols hlast
  simpa using hspells

/-- An integral without bounds. -/
theorem integral (h : Spells text row) {v : Text} (hv : PlainName v) :
    Spells (integralWord ++ ' ' :: (text ++ ' ' :: 'd' :: ' ' :: v))
      (.integral :: (row ++ [Symbol.name ['d'], .name v])) := by
  have hintegrand := h.integrand hv
  refine hintegrand.integral_word [' '] [] ?_ ?_
  · exact (symbolsOf_blank (by decide) _).trans hintegrand.symbols
  · intro d hd
    cases hd
    decide

/-- An integral with bounds. -/
theorem integralBounds (h : Spells text row) {lower upper : Text} {lowerRow upperRow : List Symbol}
    (hlower : Spells lower lowerRow) (hupper : Spells upper upperRow) {v : Text} (hv : PlainName v) :
    Spells
      (integralWord ++ '_' :: (lower ++ '^' :: (upper ++ ' ' :: (text ++ ' ' :: 'd' :: ' ' :: v))))
      (.integral :: .underscore
        :: (lowerRow ++ Symbol.caret :: (upperRow ++ (row ++ [Symbol.name ['d'], .name v])))) := by
  have hupper := hupper.beside (h.integrand hv)
  have hboth := hlower.operator .power hupper (by decide) nofun
  refine hboth.integral_word ['_'] [.underscore] ?_ ?_
  · exact symbolsOf_operator .subscript (by decide) hboth.symbols fun _ _ => rfl
  · intro d hd
    cases hd
    decide

end Spells

/-! ## Rows before integrals are closed -/

/-- Parentheses are no differentials, so they are the same in front of the post-lexer. -/
theorem rawRow_encloseIf (needed : Bool) (row : List Symbol) :
    rawRow (encloseIf needed row) = encloseIf needed (rawRow row) := by
  cases needed <;> simp [encloseIf, Symbol.raw]

/-- Commas are no differentials either. -/
theorem rawRow_commaRow (rows : List (List Symbol)) :
    rawRow (commaRow rows) = commaRow (rows.map rawRow) := by
  induction rows with
  | nil => rfl
  | cons row rows ih =>
    cases rows with
    | nil => rfl
    | cons next rows =>
      rw [commaRow, rawRow_append, rawRow_cons, ih] <;> simp [commaRow, Symbol.raw]

/-- No operator is a differential. -/
theorem Operator.symbol_raw {op : Operator} (h : op ∈ all) : op.symbol.raw = [op.symbol] := by
  revert h
  revert op
  decide

/-- In front of the post-lexer the mark of an integral is two symbols, a `d` and the name of the variable.
-/
theorem rawRow_integrandRow (integrand : Expr) (row : List Symbol) (v : Text) :
    rawRow (integrandRow integrand row v)
      = encloseIf (integrand.precedence < Operator.times.precedence) (rawRow row)
        ++ [Symbol.name ['d'], .name v] := by
  simp [integrandRow, rawRow_encloseIf, Symbol.raw]

/-- What a number is written close to does not go on with the number. -/
theorem not_goesOn_of_canGlue {digits : Text} {right : Expr} (hglue : canGlue (besideText right) = true)
    (hdigit : (Expr.juxtapose (.number digits) right).gluesDigit = false) :
    ∀ d ∈ (besideText right).head?, isDecimalDigit d = false ∧ d ≠ '.' := by
  have hdigit : (canGlue (besideText right) && (besideText right).head?.any isDecimalDigit) = false := hdigit
  rw [hglue, Bool.true_and] at hdigit
  intro d hd
  obtain ⟨rest, htext⟩ := List.head?_eq_some_iff.mp hd
  rw [htext] at hdigit hglue
  simp only [canGlue, Bool.not_eq_true', Bool.or_eq_false_iff, beq_eq_false_iff_ne] at hglue
  exact ⟨by simpa using hdigit, hglue.2⟩

/-- Two texts side by side, where a number does not run into a digit. -/
theorem Spells.juxtapose {left right : Expr} (hleft : Spells left.render (rawRow left.row))
    (hright : Spells right.render (rawRow right.row))
    (hnumber : ∀ digits, left = .number digits → digits ≠ [] ∧ Symbol.NumberText digits)
    (hdigit : (Expr.juxtapose left right).gluesDigit = false) :
    Spells (Expr.juxtapose left right).render (rawRow (Expr.juxtapose left right).row) := by
  rw [Expr.render_juxtapose, Expr.row_juxtapose, rawRow_append, rawRow_encloseIf, rawRow_encloseIf]
  have hbeside := hright.enclosed (Operator.times.enclosesRight right)
  split
  · next hglue =>
    obtain ⟨hleft, hglue⟩ := Bool.and_eq_true_iff.mp hglue
    cases left with
    | number digits =>
      obtain ⟨hne, hdigits⟩ := hnumber digits rfl
      exact hbeside.glue hne hdigits (not_goesOn_of_canGlue hglue hdigit)
    | _ => cases hleft
  · exact (hleft.enclosed _).beside hbeside

/-- A big operator is no number. -/
theorem Expr.ne_number_of_isBig {e : Expr} (h : e.isBig = true) (digits : Text) : e ≠ .number digits := by
  rintro rfl
  cases h

/-- A big operator is no number, so what it takes does not run into it. -/
theorem Expr.not_gluesDigit_of_isBig {head right : Expr} (h : head.isBig = true) :
    (juxtapose head right).gluesDigit = false := by
  cases head with
  | number digits => cases h
  | _ => rfl

/-- **The text of a tree has the symbols of its row.** -/
theorem Unambiguous.spells {e : Expr} (h : Unambiguous e) : Spells e.render (rawRow e.row) := by
  -- The text and the row of a node are put together alike, and each seam has its lemma above.
  induction h with
  | number hne hdigits => exact .number hne hdigits
  | @name text hword _ =>
    have hraw : rawRow (Expr.name text).row = [.ofWord text] := by
      change (Symbol.ofWord text).raw ++ [] = _
      rw [Symbol.raw_ofWord, List.append_nil]
    rw [hraw]
    exact .word hword
  | @sign op operand hop _ ih =>
    have hall : op ∈ Operator.all := by rcases hop with rfl | rfl <;> decide
    rw [Expr.render_unary, Expr.row_unary, rawRow_cons, Operator.symbol_raw hall, rawRow_encloseIf]
    exact (ih.enclosed _).sign hop
  | @operator op left right hop hadmits _ _ ihl ihr =>
    rw [Expr.render_binary, binaryText_eq, Expr.row_binary, rawRow_append, rawRow_cons,
      Operator.symbol_raw hop, rawRow_encloseIf, rawRow_encloseIf]
    refine (ihl.enclosed _).operator op (ihr.enclosed _) hop ?_
    rintro rfl
    exact of_decide_eq_false hadmits.apart
  | beside _ _ _ hdigit hleft _ ihl ihr =>
    refine ihl.juxtapose ihr ?_ hdigit
    rintro digits rfl
    cases hleft with
    | number hne hdigits => exact ⟨hne, hdigits⟩
  | bigTerm hbig _ _ _ ihh iho =>
    exact ihh.juxtapose iho (fun digits heq => absurd heq (Expr.ne_number_of_isBig hbig digits))
      (Expr.not_gluesDigit_of_isBig hbig)
  | @call function arguments hcallee _ ih =>
    rw [Expr.render_call, Expr.row_call hcallee.ne.1 hcallee.ne.2, rawRow_cons, Symbol.raw_ofWord,
      rawRow_encloseIf, rawRow_commaRow, List.map_map]
    unfold callText
    rw [if_neg hcallee.ne.1, if_neg hcallee.ne.2]
    exact .call hcallee.word ih
  | @rootOne radicand _ ih =>
    have harguments : ∀ e ∈ [radicand], Spells e.render (rawRow e.row) := by simpa using ih
    rw [Expr.render_rootOne, Expr.row_rootOne, rawRow_cons, rawRow_encloseIf]
    exact .call isWord_rootWord harguments
  | rootTwo _ _ ihi ihr =>
    rw [Expr.render_rootTwo, Expr.row_rootTwo, rawRow_cons, rawRow_append, rawRow_encloseIf,
      rawRow_encloseIf, List.append_assoc]
    exact ihi.root ihr
  | integral hv _ ih =>
    rw [Expr.render_integral, Expr.row_integral, rawRow_cons, rawRow_integrandRow]
    exact (ih.enclosed _).integral hv
  | @integralBounds integrand lower upper v hv _ _ _ _ _ ihi ihl ihu =>
    have hintegrand := ihi.enclosed (integrand.precedence < Operator.times.precedence)
    have hlower := ihl.enclosed (lower.precedence < Expr.atomPrecedence)
    have hupper := ihu.enclosed (upper.precedence < Expr.atomPrecedence)
    rw [Expr.render_integralBounds, Expr.row_integralBounds]
    simpa [scriptText, integrandText, scriptRow, rawRow_integrandRow, rawRow_encloseIf, Symbol.raw]
      using hintegrand.integralBounds hlower hupper hv

end MathScribe

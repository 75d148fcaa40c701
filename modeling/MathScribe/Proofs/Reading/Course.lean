/-
The course of a reading.

`read` is told how many phrases may lie inside each other, and every statement about it would have to
carry that number along. This file does away with it. `Reads phrase input tree rest` says that reading
`phrase` at the front of `input` gives `tree` and leaves `rest`; it has one rule for every way in which
a reading can go, and each rule names the phrases that are read on the way and what has to come next
for the rule to apply. `read_eq_ok_iff` says that the relation and the reader agree: what is read is
related (`Reads.of_read`), and a related tree is found whenever the number is at least
`readingNeed` (`Reads.isFound`), which `readingBound` always is.

The rules follow the grammar. Where the grammar leaves a choice, the condition of a rule makes it:
a name in front of a parenthesis is a call, a function takes an operand whenever an atom can start, a
root takes a second group, a big operator takes a term whenever one can start.
-/
import Mathlib
import MathScribe.AsciiMath.Reading

set_option autoImplicit false

namespace MathScribe

/-! ## Kinds of symbols -/

namespace Symbol

/-- The operator of an additive symbol. -/
def additive? : Symbol → Option Operator
  | plus => some .plus
  | minus => some .minus
  | plusMinus => some .plusMinus
  | _ => none

/-- The operator of a multiplicative symbol. -/
def multiplicative? : Symbol → Option Operator
  | star => some .times
  | slash => some .dividedBy
  | _ => none

/-- The operator of a symbol that may stand in front of an operand. -/
def sign? : Symbol → Option Operator
  | minus => some .minus
  | plusMinus => some .plusMinus
  | _ => none

/-- The name that a symbol gives to the group behind it. -/
def callee? : Symbol → Option Text
  | name text => some text
  | function f => some f.text
  | _ => none

/-- A relation. -/
def isRelation : Symbol → Bool
  | relation _ => true
  | _ => false

/-- The mark of a subscript or of an exponent. -/
def isScriptMark : Symbol → Bool
  | underscore | caret => true
  | _ => false

/-- A big operator. -/
def isBigOperator : Symbol → Bool
  | bigOperator _ => true
  | _ => false

/-- An additive symbol. -/
def isAdditive (symbol : Symbol) : Bool :=
  symbol.additive?.isSome

/-- A multiplicative symbol. -/
def isMultiplicative (symbol : Symbol) : Bool :=
  symbol.multiplicative?.isSome

/-- A sign. -/
def isSign (symbol : Symbol) : Bool :=
  symbol.sign?.isSome

/-- An opening parenthesis. -/
def isOpen (symbol : Symbol) : Bool :=
  symbol = openParen

/-- A closing parenthesis. -/
def isClose (symbol : Symbol) : Bool :=
  symbol = closeParen

end Symbol

/-! ## The rules -/

/-- Reading a phrase at the front of a row of symbols gives a tree and leaves the rest of the row. -/
inductive Reads : Phrase → List Symbol → Expr → List Symbol → Prop
  | relation {input middle rest : List Symbol} {left tree : Expr} :
      Reads .additive input left middle → Reads (.moreRelation left) middle tree rest →
      Reads .relation input tree rest
  | relationNext {r : Relation} {input middle rest : List Symbol} {left right tree : Expr} :
      Reads .additive input right middle →
      Reads (.moreRelation (.binary (.relation r) left right false)) middle tree rest →
      Reads (.moreRelation left) (.relation r :: input) tree rest
  | relationEnd {rest : List Symbol} {left : Expr} :
      goesOn Symbol.isRelation rest = false → Reads (.moreRelation left) rest left rest
  | additive {input middle rest : List Symbol} {left tree : Expr} :
      Reads .term input left middle → Reads (.moreAdditive left) middle tree rest →
      Reads .additive input tree rest
  | additiveNext {symbol : Symbol} {op : Operator} {input middle rest : List Symbol}
      {left right tree : Expr} :
      symbol.additive? = some op → Reads .term input right middle →
      Reads (.moreAdditive (.binary op left right false)) middle tree rest →
      Reads (.moreAdditive left) (symbol :: input) tree rest
  | additiveEnd {rest : List Symbol} {left : Expr} :
      goesOn Symbol.isAdditive rest = false → Reads (.moreAdditive left) rest left rest
  | term {input middle rest : List Symbol} {left tree : Expr} :
      Reads .factor input left middle → Reads (.moreTerm left) middle tree rest →
      Reads .term input tree rest
  | termNext {symbol : Symbol} {op : Operator} {input middle rest : List Symbol}
      {left right tree : Expr} :
      symbol.multiplicative? = some op → Reads .factor input right middle →
      Reads (.moreTerm (.binary op left right false)) middle tree rest →
      Reads (.moreTerm left) (symbol :: input) tree rest
  | termBeside {input middle rest : List Symbol} {left right tree : Expr} :
      goesOn Symbol.startsPowered input = true → Reads .powered input right middle →
      Reads (.moreTerm (.juxtapose left right)) middle tree rest →
      Reads (.moreTerm left) input tree rest
  | termEnd {rest : List Symbol} {left : Expr} :
      goesOn Symbol.isMultiplicative rest = false → goesOn Symbol.startsPowered rest = false →
      Reads (.moreTerm left) rest left rest
  | sign {symbol : Symbol} {op : Operator} {input rest : List Symbol} {operand : Expr} :
      symbol.sign? = some op → Reads .factor input operand rest →
      Reads .factor (symbol :: input) (.unary op operand) rest
  | bigOperator {op : BigOperator} {input rest : List Symbol} {tree : Expr} :
      Reads (.bigOperator (.name op.text)) input tree rest →
      Reads .factor (.bigOperator op :: input) tree rest
  | factor {input rest : List Symbol} {tree : Expr} :
      goesOn Symbol.isSign input = false → goesOn Symbol.isBigOperator input = false →
      Reads .powered input tree rest → Reads .factor input tree rest
  | bigSubscript {input middle rest : List Symbol} {head script tree : Expr} :
      Reads .primary input script middle →
      Reads (.bigOperator (.binary .subscript head script false)) middle tree rest →
      Reads (.bigOperator head) (.underscore :: input) tree rest
  | bigPower {input middle rest : List Symbol} {head exponent tree : Expr} :
      Reads .factor input exponent middle →
      Reads (.bigOperator (.binary .power head exponent false)) middle tree rest →
      Reads (.bigOperator head) (.caret :: input) tree rest
  | bigTerm {input rest : List Symbol} {head operand : Expr} :
      goesOn Symbol.startsTerm input = true → Reads .term input operand rest →
      Reads (.bigOperator head) input (.juxtapose head operand) rest
  | bigAlone {rest : List Symbol} {head : Expr} :
      goesOn Symbol.isScriptMark rest = false → goesOn Symbol.startsTerm rest = false →
      Reads (.bigOperator head) rest head rest
  | powered {input middle rest : List Symbol} {base tree : Expr} :
      Reads .primary input base middle → Reads (.morePowered base) middle tree rest →
      Reads .powered input tree rest
  | subscript {input middle rest : List Symbol} {base script tree : Expr} :
      Reads .primary input script middle →
      Reads (.morePowered (.binary .subscript base script false)) middle tree rest →
      Reads (.morePowered base) (.underscore :: input) tree rest
  | power {input rest : List Symbol} {base exponent : Expr} :
      Reads .factor input exponent rest →
      Reads (.morePowered base) (.caret :: input) (.binary .power base exponent false) rest
  | poweredEnd {rest : List Symbol} {base : Expr} :
      goesOn Symbol.isScriptMark rest = false → Reads (.morePowered base) rest base rest
  | operand {input middle rest : List Symbol} {base tree : Expr} :
      Reads .atom input base middle → Reads (.morePowered base) middle tree rest →
      Reads .operand input tree rest
  | group {input rest : List Symbol} {inside : Expr} :
      Reads .relation input inside (.closeParen :: rest) →
      Reads .primary (.openParen :: input) inside rest
  | primary {input rest : List Symbol} {tree : Expr} :
      goesOn Symbol.isOpen input = false → Reads .atom input tree rest →
      Reads .primary input tree rest
  | number {digits : Text} {rest : List Symbol} :
      Reads .atom (.number digits :: rest) (.number digits) rest
  | name {text : Text} {rest : List Symbol} :
      goesOn Symbol.isOpen rest = false → Reads .atom (.name text :: rest) (.name text) rest
  | callEmpty {symbol : Symbol} {function : Text} {rest : List Symbol} :
      symbol.callee? = some function →
      Reads .atom (symbol :: .openParen :: .closeParen :: rest) (.call function []) rest
  | call {symbol : Symbol} {function : Text} {input rest : List Symbol} {tree : Expr} :
      symbol.callee? = some function → goesOn Symbol.isClose input = false →
      Reads (.arguments function []) input tree rest →
      Reads .atom (symbol :: .openParen :: input) tree rest
  | functionOperand {f : NamedFunction} {input rest : List Symbol} {operand : Expr} :
      goesOn Symbol.startsAtom input = true → Reads .operand input operand rest →
      Reads .atom (.function f :: input) (.call f.text [operand]) rest
  | functionAlone {f : NamedFunction} {rest : List Symbol} :
      goesOn Symbol.startsPowered rest = false →
      Reads .atom (.function f :: rest) (.name f.text) rest
  | rootAlone {rest : List Symbol} :
      goesOn Symbol.isOpen rest = false → Reads .atom (.root :: rest) (.name rootWord) rest
  | rootOne {input rest : List Symbol} {first : Expr} :
      Reads .relation input first (.closeParen :: rest) → goesOn Symbol.isOpen rest = false →
      Reads .atom (.root :: .openParen :: input) (.call rootWord [first]) rest
  | rootTwo {input middle rest : List Symbol} {first second : Expr} :
      Reads .relation input first (.closeParen :: .openParen :: middle) →
      Reads .relation middle second (.closeParen :: rest) →
      Reads .atom (.root :: .openParen :: input) (.call rootWord [first, second]) rest
  | integral {input rest : List Symbol} {integrand : Expr} {v : Text} :
      goesOn Symbol.isScriptMark input = false →
      Reads .additive input integrand (.differential v :: rest) →
      Reads .atom (.integral :: input) (.call integralWord [integrand, .name v]) rest
  | integralLower {input middle body rest : List Symbol} {lower upper integrand : Expr} {v : Text} :
      Reads .bound input lower (.caret :: middle) → Reads .bound middle upper body →
      Reads .additive body integrand (.differential v :: rest) →
      Reads .atom (.integral :: .underscore :: input)
        (.call integralWord [integrand, .name v, lower, upper]) rest
  | integralUpper {input middle body rest : List Symbol} {lower upper integrand : Expr} {v : Text} :
      Reads .bound input upper (.underscore :: middle) → Reads .bound middle lower body →
      Reads .additive body integrand (.differential v :: rest) →
      Reads .atom (.integral :: .caret :: input)
        (.call integralWord [integrand, .name v, lower, upper]) rest
  | argumentsNext {function : Text} {done : List Expr} {input middle rest : List Symbol}
      {argument tree : Expr} :
      Reads .relation input argument (.comma :: middle) →
      Reads (.arguments function (done ++ [argument])) middle tree rest →
      Reads (.arguments function done) input tree rest
  | argumentsEnd {function : Text} {done : List Expr} {input rest : List Symbol}
      {argument : Expr} :
      Reads .relation input argument (.closeParen :: rest) →
      Reads (.arguments function done) input (.call function (done ++ [argument])) rest
  | boundMinus {input rest : List Symbol} {operand : Expr} :
      Reads .primary input operand rest →
      Reads .bound (.minus :: input) (.unary .minus operand) rest
  | bound {input rest : List Symbol} {tree : Expr} :
      goesOn (· = Symbol.minus) input = false → Reads .primary input tree rest →
      Reads .bound input tree rest

/-! ## What is read is related -/

/-- Two steps succeed together when the first one does, and the second one does with what the first one
found. -/
private theorem bind_eq_ok {ε α β : Type} {x : Except ε α} {f : α → Except ε β} {b : β} :
    (x >>= f) = .ok b ↔ ∃ a, x = .ok a ∧ f a = .ok b := by
  cases x with
  | error e =>
    constructor
    · intro h
      cases h
    · rintro ⟨a, h, -⟩
      cases h
  | ok a =>
    constructor
    · intro h
      exact ⟨a, rfl, h⟩
    · rintro ⟨a', h, h'⟩
      cases h
      exact h'

/-- The expected symbol is there. -/
theorem expect_eq_ok_iff {symbol : Symbol} {input rest : List Symbol} :
    expect symbol input = .ok rest ↔ input = symbol :: rest := by
  unfold expect
  split
  · simp
  · next next rest' =>
    by_cases h : next = symbol
    · simp [h]
    · simp [h]

/-- A differential is there, and its variable is found. -/
theorem expectDifferential_eq_ok_iff {input rest : List Symbol} {v : Text} :
    expectDifferential input = .ok (v, rest) ↔ input = .differential v :: rest := by
  unfold expectDifferential
  split
  · simp
  · next h =>
    constructor
    · intro h'
      exact absurd h' (by simp)
    · intro h'
      exact absurd h' (h v rest)

/-- The reader with the number `n` gives related trees only. -/
private def Sound (n : Nat) : Prop :=
  ∀ (phrase : Phrase) (input : List Symbol) (tree : Expr) (rest : List Symbol),
    read n phrase input = .ok (tree, rest) → Reads phrase input tree rest

section Sound

variable {n : Nat} {input rest : List Symbol} {tree : Expr}

/-- Where a relation stands, the left side goes on with it; any other symbol ends the phrase. -/
private theorem of_read_moreRelation (ih : Sound n) {left : Expr}
    (h : read (n + 1) (.moreRelation left) input = .ok (tree, rest)) :
    Reads (.moreRelation left) input tree rest := by
  cases input with
  | nil =>
    cases h
    exact .relationEnd rfl
  | cons symbol input =>
    cases symbol with
    | relation =>
      obtain ⟨⟨right, middle⟩, h₁, h₂⟩ := bind_eq_ok.mp h
      exact .relationNext (ih _ _ _ _ h₁) (ih _ _ _ _ h₂)
    | _ =>
      cases h
      exact .relationEnd rfl

/-- Where an additive symbol stands, a sum goes on with a term; any other symbol ends it. -/
private theorem of_read_moreAdditive (ih : Sound n) {left : Expr}
    (h : read (n + 1) (.moreAdditive left) input = .ok (tree, rest)) :
    Reads (.moreAdditive left) input tree rest := by
  cases input with
  | nil =>
    cases h
    exact .additiveEnd rfl
  | cons symbol input =>
    cases symbol with
    | plus | minus | plusMinus =>
      obtain ⟨⟨right, middle⟩, h₁, h₂⟩ := bind_eq_ok.mp h
      exact .additiveNext rfl (ih _ _ _ _ h₁) (ih _ _ _ _ h₂)
    | _ =>
      cases h
      exact .additiveEnd rfl

/-- A term goes on with a multiplicative symbol, or with something powered that stands beside it. -/
private theorem of_read_moreTerm (ih : Sound n) {left : Expr}
    (h : read (n + 1) (.moreTerm left) input = .ok (tree, rest)) :
    Reads (.moreTerm left) input tree rest := by
  cases input with
  | nil =>
    cases h
    exact .termEnd rfl rfl
  | cons symbol input =>
    cases symbol with
    | star | slash =>
      obtain ⟨⟨right, middle⟩, h₁, h₂⟩ := bind_eq_ok.mp h
      exact .termNext rfl (ih _ _ _ _ h₁) (ih _ _ _ _ h₂)
    | number | name | function | root | integral | openParen =>
      obtain ⟨⟨right, middle⟩, h₁, h₂⟩ := bind_eq_ok.mp h
      exact .termBeside rfl (ih _ _ _ _ h₁) (ih _ _ _ _ h₂)
    | _ =>
      cases h
      exact .termEnd rfl rfl

/-- A sign and a big operator are told by their symbols. -/
private theorem of_read_factor (ih : Sound n)
    (h : read (n + 1) .factor input = .ok (tree, rest)) : Reads .factor input tree rest := by
  cases input with
  | nil => exact .factor rfl rfl (ih _ _ _ _ h)
  | cons symbol input =>
    cases symbol with
    | minus | plusMinus =>
      obtain ⟨⟨operand, middle⟩, h₁, h₂⟩ := bind_eq_ok.mp h
      cases h₂
      exact .sign rfl (ih _ _ _ _ h₁)
    | bigOperator => exact .bigOperator (ih _ _ _ _ h)
    | _ => exact .factor rfl rfl (ih _ _ _ _ h)

/-- Behind a big operator stand its scripts, then a term if one can start there. -/
private theorem of_read_bigOperator (ih : Sound n) {head : Expr}
    (h : read (n + 1) (.bigOperator head) input = .ok (tree, rest)) :
    Reads (.bigOperator head) input tree rest := by
  cases input with
  | nil =>
    cases h
    exact .bigAlone rfl rfl
  | cons symbol input =>
    cases symbol with
    | underscore =>
      obtain ⟨⟨script, middle⟩, h₁, h₂⟩ := bind_eq_ok.mp h
      exact .bigSubscript (ih _ _ _ _ h₁) (ih _ _ _ _ h₂)
    | caret =>
      obtain ⟨⟨exponent, middle⟩, h₁, h₂⟩ := bind_eq_ok.mp h
      exact .bigPower (ih _ _ _ _ h₁) (ih _ _ _ _ h₂)
    | number | name | function | root | integral | openParen | bigOperator | minus | plusMinus =>
      obtain ⟨⟨operand, middle⟩, h₁, h₂⟩ := bind_eq_ok.mp h
      cases h₂
      exact .bigTerm rfl (ih _ _ _ _ h₁)
    | _ =>
      cases h
      exact .bigAlone rfl rfl

/-- A subscript may be followed by more scripts, a power ends them. -/
private theorem of_read_morePowered (ih : Sound n) {base : Expr}
    (h : read (n + 1) (.morePowered base) input = .ok (tree, rest)) :
    Reads (.morePowered base) input tree rest := by
  cases input with
  | nil =>
    cases h
    exact .poweredEnd rfl
  | cons symbol input =>
    cases symbol with
    | underscore =>
      obtain ⟨⟨script, middle⟩, h₁, h₂⟩ := bind_eq_ok.mp h
      exact .subscript (ih _ _ _ _ h₁) (ih _ _ _ _ h₂)
    | caret =>
      obtain ⟨⟨exponent, middle⟩, h₁, h₂⟩ := bind_eq_ok.mp h
      cases h₂
      exact .power (ih _ _ _ _ h₁)
    | _ =>
      cases h
      exact .poweredEnd rfl

/-- A parenthesized relation, up to its closing parenthesis. -/
private theorem of_read_group (ih : Sound n) {β : Type}
    {f : Expr × List Symbol → List Symbol → Except (List Symbol) β} {b : β}
    (h : (do
      let found ← read n .relation input
      let rest ← expect .closeParen found.2
      f found rest) = .ok b) :
    ∃ inside rest, Reads .relation input inside (.closeParen :: rest)
      ∧ f (inside, .closeParen :: rest) rest = .ok b := by
  obtain ⟨⟨inside, middle⟩, h₁, h₂⟩ := bind_eq_ok.mp h
  obtain ⟨rest', h₃, h₄⟩ := bind_eq_ok.mp h₂
  have hclose : middle = .closeParen :: rest' := expect_eq_ok_iff.mp h₃
  rw [hclose] at h₁ h₄
  exact ⟨inside, rest', ih _ _ _ _ h₁, h₄⟩

/-- A parenthesis opens a group, anything else is an atom. -/
private theorem of_read_primary (ih : Sound n)
    (h : read (n + 1) .primary input = .ok (tree, rest)) : Reads .primary input tree rest := by
  cases input with
  | nil => exact .primary rfl (ih _ _ _ _ h)
  | cons symbol input =>
    cases symbol with
    | openParen =>
      obtain ⟨inside, rest', hinside, hrest⟩ := of_read_group ih h
      cases hrest
      exact .group hinside
    | _ => exact .primary rfl (ih _ _ _ _ h)

/-- The last argument of a call, up to the closing parenthesis. -/
private theorem argumentsEnd_of_ok {function : Text} {done : List Expr} {argument : Expr}
    {middle : List Symbol} (hargument : Reads .relation input argument middle)
    (h : (do
      let rest ← expect .closeParen middle
      return (Expr.call function (done ++ [argument]), rest)) = .ok (tree, rest)) :
    Reads (.arguments function done) input tree rest := by
  obtain ⟨rest', h₁, h₂⟩ := bind_eq_ok.mp h
  cases h₂
  have hclose : middle = .closeParen :: rest := expect_eq_ok_iff.mp h₁
  rw [hclose] at hargument
  exact .argumentsEnd hargument

/-- A comma behind an argument means that another one follows. -/
private theorem of_read_arguments (ih : Sound n) {function : Text} {done : List Expr}
    (h : read (n + 1) (.arguments function done) input = .ok (tree, rest)) :
    Reads (.arguments function done) input tree rest := by
  obtain ⟨⟨argument, middle⟩, h₁, h₂⟩ := bind_eq_ok.mp h
  have hargument : Reads .relation input argument middle := ih _ _ _ _ h₁
  cases middle with
  | nil => exact argumentsEnd_of_ok hargument h₂
  | cons symbol others =>
    cases symbol with
    | comma => exact .argumentsNext hargument (ih _ _ _ _ h₂)
    | _ => exact argumentsEnd_of_ok hargument h₂

/-- A bound may have a minus. -/
private theorem of_read_bound (ih : Sound n)
    (h : read (n + 1) .bound input = .ok (tree, rest)) : Reads .bound input tree rest := by
  cases input with
  | nil => exact .bound rfl (ih _ _ _ _ h)
  | cons symbol input =>
    cases symbol with
    | minus =>
      obtain ⟨⟨operand, middle⟩, h₁, h₂⟩ := bind_eq_ok.mp h
      cases h₂
      exact .boundMinus (ih _ _ _ _ h₁)
    | _ => exact .bound rfl (ih _ _ _ _ h)

/-- The integrand of an integral, up to its differential. -/
private theorem of_read_integrand (ih : Sound n) {β : Type}
    {f : Expr × List Symbol → Text × List Symbol → Except (List Symbol) β} {b : β}
    (h : (do
      let found ← read n .additive input
      let closed ← expectDifferential found.2
      f found closed) = .ok b) :
    ∃ integrand v rest, Reads .additive input integrand (.differential v :: rest)
      ∧ f (integrand, .differential v :: rest) (v, rest) = .ok b := by
  obtain ⟨⟨integrand, middle⟩, h₁, h₂⟩ := bind_eq_ok.mp h
  obtain ⟨⟨v, rest'⟩, h₃, h₄⟩ := bind_eq_ok.mp h₂
  have hclose : middle = .differential v :: rest' := expectDifferential_eq_ok_iff.mp h₃
  rw [hclose] at h₁ h₄
  exact ⟨integrand, v, rest', ih _ _ _ _ h₁, h₄⟩

/-- Two bounds with a mark between them, and what is read behind them. -/
private theorem of_read_bounds (ih : Sound n) {mark : Symbol} {β : Type}
    {f : Expr × List Symbol → Expr × List Symbol → Except (List Symbol) β} {b : β}
    (h : (do
      let first ← read n .bound input
      let rest ← expect mark first.2
      let second ← read n .bound rest
      f first second) = .ok b) :
    ∃ first second middle body, Reads .bound input first (mark :: middle)
      ∧ Reads .bound middle second body
      ∧ f (first, mark :: middle) (second, body) = .ok b := by
  obtain ⟨⟨first, afterFirst⟩, h₁, h₂⟩ := bind_eq_ok.mp h
  obtain ⟨middle, h₃, h₄⟩ := bind_eq_ok.mp h₂
  obtain ⟨⟨second, body⟩, h₅, h₆⟩ := bind_eq_ok.mp h₄
  have hmark : afterFirst = mark :: middle := expect_eq_ok_iff.mp h₃
  rw [hmark] at h₁ h₆
  exact ⟨first, second, middle, body, ih _ _ _ _ h₁, ih _ _ _ _ h₅, h₆⟩

/-- A name in front of a parenthesis is a call, whether the parentheses are empty or not. -/
private theorem of_read_name (ih : Sound n) {text : Text}
    (h : read (n + 1) .atom (.name text :: input) = .ok (tree, rest)) :
    Reads .atom (.name text :: input) tree rest := by
  rcases input with _ | ⟨next, _ | ⟨third, input⟩⟩
  · cases h
    exact .name rfl
  · cases next with
    | openParen => exact .call rfl rfl (ih _ _ _ _ h)
    | _ =>
      cases h
      exact .name rfl
  · cases next with
    | openParen =>
      cases third with
      | closeParen =>
        cases h
        exact .callEmpty rfl
      | _ => exact .call rfl rfl (ih _ _ _ _ h)
    | _ =>
      cases h
      exact .name rfl

/-- A function whose operand, if any, stands without parentheses. -/
private theorem of_read_function_bare (ih : Sound n) {f : NamedFunction}
    (hopen : goesOn Symbol.isOpen input = false)
    (h : read (n + 1) .atom (.function f :: input) = .ok (tree, rest)) :
    Reads .atom (.function f :: input) tree rest := by
  cases input with
  | nil =>
    cases h
    exact .functionAlone rfl
  | cons symbol input =>
    cases symbol with
    | openParen => cases hopen
    | number | name | function | root | integral =>
      obtain ⟨⟨operand, middle⟩, h₁, h₂⟩ := bind_eq_ok.mp h
      cases h₂
      exact .functionOperand rfl (ih _ _ _ _ h₁)
    | _ =>
      cases h
      exact .functionAlone rfl

/-- A function in front of a parenthesis is a call like that of a name. -/
private theorem of_read_function (ih : Sound n) {f : NamedFunction}
    (h : read (n + 1) .atom (.function f :: input) = .ok (tree, rest)) :
    Reads .atom (.function f :: input) tree rest := by
  rcases input with _ | ⟨next, _ | ⟨third, input⟩⟩
  · exact of_read_function_bare ih rfl h
  · cases next with
    | openParen => exact .call rfl rfl (ih _ _ _ _ h)
    | _ => exact of_read_function_bare ih rfl h
  · cases next with
    | openParen =>
      cases third with
      | closeParen =>
        cases h
        exact .callEmpty rfl
      | _ => exact .call rfl rfl (ih _ _ _ _ h)
    | _ => exact of_read_function_bare ih rfl h

/-- A root takes one group, and a second one if it stands there. -/
private theorem of_read_root (ih : Sound n)
    (h : read (n + 1) .atom (.root :: input) = .ok (tree, rest)) :
    Reads .atom (.root :: input) tree rest := by
  cases input with
  | nil =>
    cases h
    exact .rootAlone rfl
  | cons symbol input =>
    cases symbol with
    | openParen =>
      obtain ⟨first, after, hfirst, hafter⟩ := of_read_group ih h
      cases after with
      | nil =>
        cases hafter
        exact .rootOne hfirst rfl
      | cons next after =>
        cases next with
        | openParen =>
          obtain ⟨second, after', hsecond, hafter'⟩ := of_read_group ih hafter
          cases hafter'
          exact .rootTwo hfirst hsecond
        | _ =>
          cases hafter
          exact .rootOne hfirst rfl
    | _ =>
      cases h
      exact .rootAlone rfl

/-- An integral may have two bounds, the lower one or the upper one first. -/
private theorem of_read_integral (ih : Sound n)
    (h : read (n + 1) .atom (.integral :: input) = .ok (tree, rest)) :
    Reads .atom (.integral :: input) tree rest := by
  cases input with
  | nil =>
    obtain ⟨integrand, v, behind, hintegrand, hbehind⟩ := of_read_integrand ih h
    cases hbehind
    exact .integral rfl hintegrand
  | cons symbol input =>
    cases symbol with
    | underscore =>
      obtain ⟨lower, upper, middle, body, hlower, hupper, hbody⟩ := of_read_bounds ih h
      obtain ⟨integrand, v, after, hintegrand, hafter⟩ := of_read_integrand ih hbody
      cases hafter
      exact .integralLower hlower hupper hintegrand
    | caret =>
      obtain ⟨upper, lower, middle, body, hupper, hlower, hbody⟩ := of_read_bounds ih h
      obtain ⟨integrand, v, after, hintegrand, hafter⟩ := of_read_integrand ih hbody
      cases hafter
      exact .integralUpper hupper hlower hintegrand
    | _ =>
      obtain ⟨integrand, v, behind, hintegrand, hbehind⟩ := of_read_integrand ih h
      cases hbehind
      exact .integral rfl hintegrand

/-- The first symbol tells the kind of an atom. -/
private theorem of_read_atom (ih : Sound n)
    (h : read (n + 1) .atom input = .ok (tree, rest)) : Reads .atom input tree rest := by
  cases input with
  | nil => cases h
  | cons symbol input =>
    cases symbol with
    | number =>
      cases h
      exact .number
    | name => exact of_read_name ih h
    | function => exact of_read_function ih h
    | root => exact of_read_root ih h
    | integral => exact of_read_integral ih h
    | _ => cases h

end Sound

/-- A phrase that is read is related to what is read. -/
theorem Reads.of_read (n : Nat) : Sound n := by
  -- The induction is on the fuel, and each phrase is inverted by its own lemma.
  induction n with
  | zero =>
    intro phrase input tree rest h
    cases h
  | succ n ih =>
    intro phrase input tree rest h
    cases phrase with
    | relation =>
      obtain ⟨⟨left, middle⟩, h₁, h₂⟩ := bind_eq_ok.mp h
      exact .relation (ih _ _ _ _ h₁) (ih _ _ _ _ h₂)
    | moreRelation left => exact of_read_moreRelation ih h
    | additive =>
      obtain ⟨⟨left, middle⟩, h₁, h₂⟩ := bind_eq_ok.mp h
      exact .additive (ih _ _ _ _ h₁) (ih _ _ _ _ h₂)
    | moreAdditive left => exact of_read_moreAdditive ih h
    | term =>
      obtain ⟨⟨left, middle⟩, h₁, h₂⟩ := bind_eq_ok.mp h
      exact .term (ih _ _ _ _ h₁) (ih _ _ _ _ h₂)
    | moreTerm left => exact of_read_moreTerm ih h
    | factor => exact of_read_factor ih h
    | bigOperator head => exact of_read_bigOperator ih h
    | powered =>
      obtain ⟨⟨base, middle⟩, h₁, h₂⟩ := bind_eq_ok.mp h
      exact .powered (ih _ _ _ _ h₁) (ih _ _ _ _ h₂)
    | morePowered base => exact of_read_morePowered ih h
    | operand =>
      obtain ⟨⟨base, middle⟩, h₁, h₂⟩ := bind_eq_ok.mp h
      exact .operand (ih _ _ _ _ h₁) (ih _ _ _ _ h₂)
    | primary => exact of_read_primary ih h
    | atom => exact of_read_atom ih h
    | arguments function done => exact of_read_arguments ih h
    | bound => exact of_read_bound ih h

/-! ## How much is read -/

/-- A phrase that takes at least one symbol. The others go on with a phrase whose first part has been
read, and may find that nothing follows. -/
def Phrase.takesSymbol : Phrase → Bool
  | moreRelation _ | moreAdditive _ | moreTerm _ | bigOperator _ | morePowered _ => false
  | _ => true

/-- What a phrase leaves is shorter than the row by at least one symbol, or not longer. -/
theorem Reads.length_le {phrase : Phrase} {input rest : List Symbol} {tree : Expr}
    (h : Reads phrase input tree rest) :
    rest.length + (if phrase.takesSymbol then 1 else 0) ≤ input.length := by
  induction h <;> simp only [Phrase.takesSymbol, if_true, List.length_cons, Bool.false_eq_true,
    if_false] at * <;> omega

/-- A phrase that takes a symbol leaves a shorter row. -/
theorem Reads.length_lt {phrase : Phrase} {input rest : List Symbol} {tree : Expr}
    (h : Reads phrase input tree rest) (htakes : phrase.takesSymbol = true) :
    rest.length < input.length := by
  have := h.length_le
  rw [if_pos htakes] at this
  omega

/-- What a phrase leaves is the end of the row. -/
theorem Reads.suffix {phrase : Phrase} {input rest : List Symbol} {tree : Expr}
    (h : Reads phrase input tree rest) : rest <:+ input := by
  induction h <;> grind [List.suffix_cons, List.IsSuffix.trans]

/-! ## What is related is read

The equations of the reader come first, by the kinds of symbols that the rules speak of. -/

section Equations

variable {n : Nat} {symbol : Symbol} {op : Operator} {function : Text} {input : List Symbol}
  {left head base : Expr}

/-- A chain of relations ends in front of anything but a relation. -/
private theorem read_relationEnd (h : goesOn Symbol.isRelation input = false) :
    read (n + 1) (.moreRelation left) input = .ok (left, input) := by
  rcases input with _ | ⟨symbol, input⟩
  · rfl
  · cases symbol <;> first | rfl | exact Bool.noConfusion h

/-- A sum goes on with the next sign of a summand. -/
private theorem read_additiveNext (h : symbol.additive? = some op) :
    read (n + 1) (.moreAdditive left) (symbol :: input) = (do
      let found ← read n .term input
      read n (.moreAdditive (.binary op left found.1 false)) found.2) := by
  cases symbol <;> simp only [Symbol.additive?, reduceCtorEq, Option.some.injEq] at h <;>
    subst h <;> rfl

/-- A sum ends in front of anything but such a sign. -/
private theorem read_additiveEnd (h : goesOn Symbol.isAdditive input = false) :
    read (n + 1) (.moreAdditive left) input = .ok (left, input) := by
  rcases input with _ | ⟨symbol, input⟩
  · rfl
  · cases symbol <;> first | rfl | exact Bool.noConfusion h

/-- A product goes on with a sign of multiplication or division. -/
private theorem read_termNext (h : symbol.multiplicative? = some op) :
    read (n + 1) (.moreTerm left) (symbol :: input) = (do
      let found ← read n .factor input
      read n (.moreTerm (.binary op left found.1 false)) found.2) := by
  cases symbol <;> simp only [Symbol.multiplicative?, reduceCtorEq, Option.some.injEq] at h <;>
    subst h <;> rfl

/-- A product goes on without a sign, with what starts a power. -/
private theorem read_termBeside (h : goesOn Symbol.startsPowered input = true) :
    read (n + 1) (.moreTerm left) input = (do
      let found ← read n .powered input
      read n (.moreTerm (.juxtapose left found.1)) found.2) := by
  rcases input with _ | ⟨symbol, input⟩
  · cases h
  · cases symbol <;> first | rfl | exact Bool.noConfusion h

/-- A product ends in front of anything but these signs and the start of a power. -/
private theorem read_termEnd (hm : goesOn Symbol.isMultiplicative input = false)
    (hp : goesOn Symbol.startsPowered input = false) :
    read (n + 1) (.moreTerm left) input = .ok (left, input) := by
  rcases input with _ | ⟨symbol, input⟩
  · rfl
  · cases symbol <;> first | rfl | exact Bool.noConfusion hm | exact Bool.noConfusion hp

private theorem read_sign (h : symbol.sign? = some op) :
    read (n + 1) .factor (symbol :: input) = (do
      let found ← read n .factor input
      return (.unary op found.1, found.2)) := by
  cases symbol <;> simp only [Symbol.sign?, reduceCtorEq, Option.some.injEq] at h <;>
    subst h <;> rfl

private theorem read_factor (hs : goesOn Symbol.isSign input = false)
    (hb : goesOn Symbol.isBigOperator input = false) :
    read (n + 1) .factor input = read n .powered input := by
  rcases input with _ | ⟨symbol, input⟩
  · rfl
  · cases symbol <;> first | rfl | exact Bool.noConfusion hs | exact Bool.noConfusion hb

/-- A big operator takes a term whenever one can start. -/
private theorem read_bigTerm (h : goesOn Symbol.startsTerm input = true) :
    read (n + 1) (.bigOperator head) input = (do
      let found ← read n .term input
      return (.juxtapose head found.1, found.2)) := by
  rcases input with _ | ⟨symbol, input⟩
  · cases h
  · cases symbol <;> first | rfl | exact Bool.noConfusion h

/-- A big operator stands alone in front of what starts no term. -/
private theorem read_bigAlone (hm : goesOn Symbol.isScriptMark input = false)
    (ht : goesOn Symbol.startsTerm input = false) :
    read (n + 1) (.bigOperator head) input = .ok (head, input) := by
  rcases input with _ | ⟨symbol, input⟩
  · rfl
  · cases symbol <;> first | rfl | exact Bool.noConfusion hm | exact Bool.noConfusion ht

private theorem read_poweredEnd (h : goesOn Symbol.isScriptMark input = false) :
    read (n + 1) (.morePowered base) input = .ok (base, input) := by
  rcases input with _ | ⟨symbol, input⟩
  · rfl
  · cases symbol <;> first | rfl | exact Bool.noConfusion h

private theorem read_primary (h : goesOn Symbol.isOpen input = false) :
    read (n + 1) .primary input = read n .atom input := by
  rcases input with _ | ⟨symbol, input⟩
  · rfl
  · cases symbol <;> first | rfl | exact Bool.noConfusion h

private theorem read_name {text : Text} (h : goesOn Symbol.isOpen input = false) :
    read (n + 1) .atom (.name text :: input) = .ok (.name text, input) := by
  rcases input with _ | ⟨symbol, input⟩
  · rfl
  · cases symbol <;> first | rfl | exact Bool.noConfusion h

private theorem read_callEmpty (h : symbol.callee? = some function) :
    read (n + 1) .atom (symbol :: .openParen :: .closeParen :: input)
      = .ok (.call function [], input) := by
  cases symbol <;> simp only [Symbol.callee?, reduceCtorEq, Option.some.injEq] at h <;>
    subst h <;> rfl

private theorem read_call (h : symbol.callee? = some function)
    (hclose : goesOn Symbol.isClose input = false) :
    read (n + 1) .atom (symbol :: .openParen :: input) = read n (.arguments function []) input := by
  cases symbol <;> simp only [Symbol.callee?, reduceCtorEq, Option.some.injEq] at h <;>
    subst h <;> rcases input with _ | ⟨next, input⟩ <;>
    first | rfl | (cases next <;> first | rfl | exact Bool.noConfusion hclose)

/-- A function without parentheses takes what follows it. -/
private theorem read_functionOperand {f : NamedFunction}
    (h : goesOn Symbol.startsAtom input = true) :
    read (n + 1) .atom (.function f :: input) = (do
      let found ← read n .operand input
      return (.call f.text [found.1], found.2)) := by
  rcases input with _ | ⟨symbol, input⟩
  · cases h
  · cases symbol <;> first | rfl | exact Bool.noConfusion h

/-- A function in front of what starts no power is a name. -/
private theorem read_functionAlone {f : NamedFunction}
    (h : goesOn Symbol.startsPowered input = false) :
    read (n + 1) .atom (.function f :: input) = .ok (.name f.text, input) := by
  rcases input with _ | ⟨symbol, input⟩
  · rfl
  · cases symbol <;> first | rfl | exact Bool.noConfusion h

private theorem read_rootAlone (h : goesOn Symbol.isOpen input = false) :
    read (n + 1) .atom (.root :: input) = .ok (.name rootWord, input) := by
  rcases input with _ | ⟨symbol, input⟩
  · rfl
  · cases symbol <;> first | rfl | exact Bool.noConfusion h

/-- A root ends behind its first parentheses when no others follow. -/
private theorem read_rootOne {input rest : List Symbol} {first : Expr}
    (h₁ : read n .relation input = .ok (first, .closeParen :: rest))
    (h : goesOn Symbol.isOpen rest = false) :
    read (n + 1) .atom (.root :: .openParen :: input) = .ok (.call rootWord [first], rest) := by
  refine bind_eq_ok.mpr ⟨_, h₁, bind_eq_ok.mpr ⟨_, expect_eq_ok_iff.mpr rfl, ?_⟩⟩
  rcases rest with _ | ⟨symbol, rest⟩
  · rfl
  · cases symbol <;> first | rfl | exact Bool.noConfusion h

/-- A root takes a second group whenever there is one. -/
private theorem read_rootTwo {input middle rest : List Symbol} {first second : Expr}
    (h₁ : read n .relation input = .ok (first, .closeParen :: .openParen :: middle))
    (h₂ : read n .relation middle = .ok (second, .closeParen :: rest)) :
    read (n + 1) .atom (.root :: .openParen :: input)
      = .ok (.call rootWord [first, second], rest) := by
  refine bind_eq_ok.mpr ⟨_, h₁, bind_eq_ok.mpr ⟨_, expect_eq_ok_iff.mpr rfl, ?_⟩⟩
  exact bind_eq_ok.mpr ⟨_, h₂, bind_eq_ok.mpr ⟨_, expect_eq_ok_iff.mpr rfl, rfl⟩⟩

/-- The integrand and the differential behind the bounds. -/
private theorem read_body {body rest : List Symbol} {integrand : Expr} {v : Text} {β : Type}
    {f : Expr × List Symbol → Text × List Symbol → Except (List Symbol) β} {b : β}
    (h : read n .additive body = .ok (integrand, .differential v :: rest))
    (hf : f (integrand, .differential v :: rest) (v, rest) = .ok b) :
    (do
      let found ← read n .additive body
      let closed ← expectDifferential found.2
      f found closed) = .ok b :=
  bind_eq_ok.mpr ⟨_, h, bind_eq_ok.mpr ⟨_, expectDifferential_eq_ok_iff.mpr rfl, hf⟩⟩

/-- Both bounds with the lower one first. -/
private theorem read_integralLower {input middle body rest : List Symbol}
    {lower upper integrand : Expr} {v : Text}
    (h₁ : read n .bound input = .ok (lower, .caret :: middle))
    (h₂ : read n .bound middle = .ok (upper, body))
    (h₃ : read n .additive body = .ok (integrand, .differential v :: rest)) :
    read (n + 1) .atom (.integral :: .underscore :: input)
      = .ok (.call integralWord [integrand, .name v, lower, upper], rest) := by
  refine bind_eq_ok.mpr ⟨_, h₁, bind_eq_ok.mpr ⟨_, expect_eq_ok_iff.mpr rfl, ?_⟩⟩
  exact bind_eq_ok.mpr ⟨_, h₂, read_body h₃ rfl⟩

/-- Both bounds with the upper one first. -/
private theorem read_integralUpper {input middle body rest : List Symbol}
    {lower upper integrand : Expr} {v : Text}
    (h₁ : read n .bound input = .ok (upper, .underscore :: middle))
    (h₂ : read n .bound middle = .ok (lower, body))
    (h₃ : read n .additive body = .ok (integrand, .differential v :: rest)) :
    read (n + 1) .atom (.integral :: .caret :: input)
      = .ok (.call integralWord [integrand, .name v, lower, upper], rest) := by
  refine bind_eq_ok.mpr ⟨_, h₁, bind_eq_ok.mpr ⟨_, expect_eq_ok_iff.mpr rfl, ?_⟩⟩
  exact bind_eq_ok.mpr ⟨_, h₂, read_body h₃ rfl⟩

private theorem read_integral (h : goesOn Symbol.isScriptMark input = false) :
    read (n + 1) .atom (.integral :: input) = (do
      let found ← read n .additive input
      let closed ← expectDifferential found.2
      return (.call integralWord [found.1, .name closed.1], closed.2)) := by
  rcases input with _ | ⟨symbol, input⟩
  · rfl
  · cases symbol <;> first | rfl | exact Bool.noConfusion h

/-- A bound is a primary, unless a minus stands in front of it. -/
private theorem read_bound (h : goesOn (· = Symbol.minus) input = false) :
    read (n + 1) .bound input = read n .primary input := by
  rcases input with _ | ⟨symbol, input⟩
  · rfl
  · cases symbol <;> first | rfl | exact Bool.noConfusion h

end Equations

/-- How far a phrase stands from the first symbol it takes. -/
def Phrase.rank : Phrase → Nat
  | arguments .. => 7
  | relation => 6
  | additive | bigOperator _ => 5
  | term => 4
  | factor | moreTerm _ => 3
  | powered | bound => 2
  | primary | operand => 1
  | _ => 0

/-- How many phrases may lie inside each other when a phrase is read: eight for each symbol, and the
ones that lead to the next symbol. -/
def readingNeed (phrase : Phrase) (input : List Symbol) : Nat :=
  8 * input.length + phrase.rank + 1

/-- The reader finds the tree of a phrase however many phrases may lie inside each other, from the need
of the phrase on. -/
private def IsFound (phrase : Phrase) (input : List Symbol) (tree : Expr) (rest : List Symbol) : Prop :=
  ∀ n, readingNeed phrase input ≤ n → read n phrase input = .ok (tree, rest)

section Found

variable {phrase part : Phrase} {symbol : Symbol} {input inner middle rest : List Symbol}
  {found tree : Expr} {n : Nat}

/-- A part that starts behind a symbol of the phrase needs less than the phrase, whatever it is: no
rank reaches eight. -/
private theorem readingNeed_lt_of_length_lt (h : inner.length < input.length) :
    readingNeed part inner < readingNeed phrase input := by
  have hrank : part.rank ≤ 7 := by cases part <;> simp [Phrase.rank]
  unfold readingNeed
  omega

/-- Any phrase of what is behind a symbol needs less than a phrase of the whole. -/
private theorem readingNeed_tail : readingNeed part inner < readingNeed phrase (symbol :: inner) :=
  readingNeed_lt_of_length_lt (Nat.lt_succ_self _)

/-- Any phrase of what is behind two symbols needs less than a phrase of the whole. -/
private theorem readingNeed_tail_tail {next : Symbol} :
    readingNeed part inner < readingNeed phrase (symbol :: next :: inner) :=
  readingNeed_lt_of_length_lt (Nat.lt_succ_of_lt (Nat.lt_succ_self _))

/-- A part that starts where the phrase starts needs less when it stands closer to the first symbol. -/
private theorem readingNeed_lt_of_rank_lt (h : part.rank < phrase.rank) :
    readingNeed part input < readingNeed phrase input := by
  unfold readingNeed
  omega

/-- It is enough to look at one step of the reader, since every need is at least one. -/
private theorem isFound_of_step
    (h : ∀ n, readingNeed phrase input ≤ n + 1 → read (n + 1) phrase input = .ok (tree, rest)) :
    IsFound phrase input tree rest := by
  intro n hn
  obtain ⟨m, rfl⟩ : ∃ m, n = m + 1 := ⟨n - 1, by unfold readingNeed at hn; omega⟩
  exact h m hn

/-- In one step of a phrase, a part that needs less is found. -/
private theorem IsFound.inside (h : IsFound part inner found middle)
    (hn : readingNeed phrase input ≤ n + 1)
    (hneed : readingNeed part inner < readingNeed phrase input) :
    read n part inner = .ok (found, middle) :=
  h n (by omega)

/-- A phrase that is read as another phrase. -/
private theorem IsFound.of_eq (h : IsFound part inner tree rest)
    (hneed : readingNeed part inner < readingNeed phrase input)
    (hread : ∀ n, read (n + 1) phrase input = read n part inner) : IsFound phrase input tree rest :=
  isFound_of_step fun n hn => (hread n).trans (h.inside hn hneed)

/-- A phrase that makes its tree of the tree of one part. -/
private theorem IsFound.bind {f : Expr × List Symbol → Reading} (h : IsFound part inner found middle)
    (hneed : readingNeed part inner < readingNeed phrase input)
    (hread : ∀ n, read (n + 1) phrase input = read n part inner >>= f)
    (hf : f (found, middle) = .ok (tree, rest)) : IsFound phrase input tree rest :=
  isFound_of_step fun n hn => (hread n).trans (bind_eq_ok.mpr ⟨_, h.inside hn hneed, hf⟩)

/-- A phrase that goes on, behind its first part, with a phrase that carries the tree so far. -/
private theorem IsFound.andThen {next : Phrase} {f : Nat → Expr × List Symbol → Reading}
    (h : IsFound part inner found middle) (hnext : IsFound next middle tree rest)
    (hneed : readingNeed part inner < readingNeed phrase input)
    (hlength : middle.length < input.length)
    (hread : ∀ n, read (n + 1) phrase input = read n part inner >>= f n)
    (hf : ∀ n, f n (found, middle) = read n next middle) : IsFound phrase input tree rest :=
  isFound_of_step fun n hn => (hread n).trans <| bind_eq_ok.mpr
    ⟨_, h.inside hn hneed, (hf n).trans (hnext.inside hn (readingNeed_lt_of_length_lt hlength))⟩

/-- What stands behind the next symbol of the rest is shorter than the row. -/
private theorem Reads.length_lt_of_cons (h : Reads phrase input tree (symbol :: rest)) :
    rest.length < input.length := by
  have := h.length_le
  rw [List.length_cons] at this
  omega

end Found

/-- A related tree is read when enough phrases may lie inside each other. The induction is on the rules;
each says which part is shorter than the phrase, or closer to the first symbol. -/
private theorem Reads.isFound {phrase : Phrase} {input rest : List Symbol} {tree : Expr}
    (h : Reads phrase input tree rest) : IsFound phrase input tree rest := by
  -- Each rule is a step of the parser that finds its parts, with the fuel that is left, and goes on with them.
  induction h with
  | relation h₁ _ ih₁ ih₂ | additive h₁ _ ih₁ ih₂ | term h₁ _ ih₁ ih₂ | powered h₁ _ ih₁ ih₂
  | operand h₁ _ ih₁ ih₂ =>
    exact ih₁.andThen ih₂ (readingNeed_lt_of_rank_lt (by simp [Phrase.rank])) (h₁.length_lt rfl)
      (fun _ => rfl) fun _ => rfl
  | relationNext h₁ _ ih₁ ih₂ | bigSubscript h₁ _ ih₁ ih₂ | bigPower h₁ _ ih₁ ih₂
  | subscript h₁ _ ih₁ ih₂ =>
    exact ih₁.andThen ih₂ readingNeed_tail (Nat.lt_succ_of_lt (h₁.length_lt rfl))
      (fun _ => rfl) fun _ => rfl
  | additiveNext h h₁ _ ih₁ ih₂ =>
    exact ih₁.andThen ih₂ readingNeed_tail (Nat.lt_succ_of_lt (h₁.length_lt rfl))
      (fun _ => read_additiveNext h) fun _ => rfl
  | termNext h h₁ _ ih₁ ih₂ =>
    exact ih₁.andThen ih₂ readingNeed_tail (Nat.lt_succ_of_lt (h₁.length_lt rfl))
      (fun _ => read_termNext h) fun _ => rfl
  | termBeside h h₁ _ ih₁ ih₂ =>
    exact ih₁.andThen ih₂ (readingNeed_lt_of_rank_lt (by simp [Phrase.rank])) (h₁.length_lt rfl)
      (fun _ => read_termBeside h) fun _ => rfl
  | relationEnd h => exact isFound_of_step fun _ _ => read_relationEnd h
  | additiveEnd h => exact isFound_of_step fun _ _ => read_additiveEnd h
  | termEnd hm hp => exact isFound_of_step fun _ _ => read_termEnd hm hp
  | bigAlone hm ht => exact isFound_of_step fun _ _ => read_bigAlone hm ht
  | poweredEnd h => exact isFound_of_step fun _ _ => read_poweredEnd h
  | number => exact isFound_of_step fun _ _ => rfl
  | name h => exact isFound_of_step fun _ _ => read_name h
  | callEmpty h => exact isFound_of_step fun _ _ => read_callEmpty h
  | functionAlone h => exact isFound_of_step fun _ _ => read_functionAlone h
  | rootAlone h => exact isFound_of_step fun _ _ => read_rootAlone h
  | bigOperator _ ih => exact ih.of_eq readingNeed_tail fun _ => rfl
  | factor hs hb _ ih =>
    exact ih.of_eq (readingNeed_lt_of_rank_lt (by simp [Phrase.rank])) fun _ => read_factor hs hb
  | primary h _ ih =>
    exact ih.of_eq (readingNeed_lt_of_rank_lt (by simp [Phrase.rank])) fun _ => read_primary h
  | bound h _ ih =>
    exact ih.of_eq (readingNeed_lt_of_rank_lt (by simp [Phrase.rank])) fun _ => read_bound h
  | call h hclose _ ih => exact ih.of_eq readingNeed_tail_tail fun _ => read_call h hclose
  | sign h _ ih => exact ih.bind readingNeed_tail (fun _ => read_sign h) rfl
  | power _ ih | group _ ih | boundMinus _ ih => exact ih.bind readingNeed_tail (fun _ => rfl) rfl
  | bigTerm h _ ih =>
    exact ih.bind (readingNeed_lt_of_rank_lt (by simp [Phrase.rank])) (fun _ => read_bigTerm h) rfl
  | functionOperand h _ ih =>
    exact ih.bind readingNeed_tail (fun _ => read_functionOperand h) rfl
  | integral h _ ih => exact ih.bind readingNeed_tail (fun _ => read_integral h) rfl
  | argumentsEnd _ ih =>
    refine isFound_of_step fun n hn => ?_
    have hargument := ih.inside hn (readingNeed_lt_of_rank_lt (by simp [Phrase.rank]))
    exact bind_eq_ok.mpr ⟨_, hargument, rfl⟩
  | rootOne _ h ih =>
    exact isFound_of_step fun n hn => read_rootOne (ih.inside hn readingNeed_tail_tail) h
  | rootTwo h₁ _ ih₁ ih₂ =>
    refine isFound_of_step fun n hn => read_rootTwo (ih₁.inside hn readingNeed_tail_tail) ?_
    refine ih₂.inside hn (readingNeed_lt_of_length_lt ?_)
    exact Nat.lt_add_right 2 (Nat.lt_of_succ_lt h₁.length_lt_of_cons)
  | integralLower h₁ h₂ _ ih₁ ih₂ ih₃ =>
    have hmiddle := h₁.length_lt_of_cons
    have hbody := (h₂.length_lt rfl).trans hmiddle
    refine isFound_of_step fun n hn => ?_
    have hlower := ih₁.inside hn readingNeed_tail_tail
    have hupper := ih₂.inside hn (readingNeed_lt_of_length_lt (Nat.lt_add_right 2 hmiddle))
    have hintegrand := ih₃.inside hn (readingNeed_lt_of_length_lt (Nat.lt_add_right 2 hbody))
    exact read_integralLower hlower hupper hintegrand
  | integralUpper h₁ h₂ _ ih₁ ih₂ ih₃ =>
    have hmiddle := h₁.length_lt_of_cons
    have hbody := (h₂.length_lt rfl).trans hmiddle
    refine isFound_of_step fun n hn => ?_
    have hupper := ih₁.inside hn readingNeed_tail_tail
    have hlower := ih₂.inside hn (readingNeed_lt_of_length_lt (Nat.lt_add_right 2 hmiddle))
    have hintegrand := ih₃.inside hn (readingNeed_lt_of_length_lt (Nat.lt_add_right 2 hbody))
    exact read_integralUpper hupper hlower hintegrand
  | argumentsNext h₁ _ ih₁ ih₂ =>
    refine isFound_of_step fun n hn => ?_
    have hargument := ih₁.inside hn (readingNeed_lt_of_rank_lt (by simp [Phrase.rank]))
    have hothers := ih₂.inside hn (readingNeed_lt_of_length_lt h₁.length_lt_of_cons)
    exact bind_eq_ok.mpr ⟨_, hargument, hothers⟩

/-- What the reader finds is what is related, as soon as enough phrases may lie inside each other. -/
theorem read_eq_ok_iff {n : Nat} {phrase : Phrase} {input rest : List Symbol} {tree : Expr}
    (hn : readingNeed phrase input ≤ n) :
    read n phrase input = .ok (tree, rest) ↔ Reads phrase input tree rest :=
  ⟨Reads.of_read n phrase input tree rest, fun h => h.isFound n hn⟩

/-- A phrase is read in one way only. -/
theorem Reads.unique {phrase : Phrase} {input rest rest' : List Symbol} {tree tree' : Expr}
    (h : Reads phrase input tree rest) (h' : Reads phrase input tree' rest') :
    tree = tree' ∧ rest = rest' := by
  have found := (h.isFound _ (Nat.le_refl _)).symm.trans (h'.isFound _ (Nat.le_refl _))
  simpa using found

/-- A row is read when it is one relation from end to end. -/
theorem readSymbols_eq_ok_iff {row : List Symbol} {tree : Expr} :
    readSymbols row = .ok tree ↔ Reads .relation row tree [] := by
  have hneed : readingNeed .relation row ≤ readingBound row := by
    simp only [readingNeed, readingBound, Phrase.rank]
    omega
  constructor
  · intro h
    obtain ⟨⟨found, rest⟩, h₁, h₂⟩ := bind_eq_ok.mp h
    cases rest with
    | nil =>
      cases h₂
      exact (read_eq_ok_iff hneed).mp h₁
    | cons symbol rest => exact absurd h₂ (by simp)
  · intro h
    exact bind_eq_ok.mpr ⟨_, (read_eq_ok_iff hneed).mpr h, rfl⟩

end MathScribe

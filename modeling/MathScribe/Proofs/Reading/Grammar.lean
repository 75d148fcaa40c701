/-
The grammar of formulas.

The reader makes a choice wherever the grammar leaves one. This file writes down the grammar itself, with
all its choices: `Derives nonterminal row meaning` says that a row of symbols can be derived from a
nonterminal and what the row then stands for. It has one rule for each production, and the meaning in the
conclusion of a rule is what the production makes of the meanings of its parts. No rule looks at what
stands behind its row, so a row may be derived in several ways.

`derives_of_parse` says that the reader stays within the grammar: the tree of a text is one that the whole
row of its tokens derives, each token used once and in its place. A phrase that goes on with a tree derives
nothing by itself; it is related to the grammar by what it makes of a row that derives the tree it goes on
with (`Phrase.Explains`), and so the reader is followed by one induction over its course (`Reads.derives`).
-/
import MathScribe.Proofs.Reading.Row

set_option autoImplicit false

namespace MathScribe

/-! ## The productions -/

/-- The kinds of rows that the grammar tells apart. -/
inductive Nonterminal
  /-- A whole formula. -/
  | start
  /-- Sums joined by relations. -/
  | relation
  /-- Terms joined by additive operators. -/
  | additive
  /-- Factors joined by multiplicative operators or by nothing. -/
  | term
  /-- Signs in front of a powered phrase, or a big operator with what it takes. -/
  | factor
  /-- A big operator with its scripts. -/
  | bigOperator
  /-- A primary with its subscripts and one exponent. -/
  | powered
  /-- A primary with its subscripts. -/
  | scripted
  /-- A parenthesized relation, or an atom. -/
  | primary
  /-- A number, a name, a call or an integral. -/
  | atom
  /-- The operand of a function that stands without parentheses. -/
  | barePowered
  /-- The same without an exponent. -/
  | bareScripted
  /-- Relations with commas between them. -/
  | arguments
  /-- An integral with its bounds, its integrand and its differential. -/
  | integral
  /-- Both bounds of an integral, each behind its mark. -/
  | bounds
  /-- One bound of an integral. -/
  | bound
  deriving DecidableEq, Repr

/-- What a row stands for. -/
inductive Meaning
  /-- An expression. -/
  | tree (e : Expr)
  /-- The arguments of a call. -/
  | trees (es : List Expr)
  /-- The bounds of an integral, the lower one first however they are written. -/
  | bounds (lower upper : Expr)

/-- **The grammar.** One rule for each production, with the meaning that the production gives to the row. -/
inductive Derives : Nonterminal → List Symbol → Meaning → Prop
  | start {row : List Symbol} {e : Expr} :
      Derives .relation row (.tree e) → Derives .start row (.tree e)
  | relation {row : List Symbol} {e : Expr} :
      Derives .additive row (.tree e) → Derives .relation row (.tree e)
  | compared {a b : List Symbol} {symbol : Symbol} {left right : Expr} :
      Derives .relation a (.tree left) → symbol.isRelation = true → Derives .additive b (.tree right) →
      Derives .relation (a ++ symbol :: b) (.tree (.binary (.ofText symbol.text) left right false))
  | additive {row : List Symbol} {e : Expr} :
      Derives .term row (.tree e) → Derives .additive row (.tree e)
  | added {a b : List Symbol} {symbol : Symbol} {left right : Expr} :
      Derives .additive a (.tree left) → symbol.isAdditive = true → Derives .term b (.tree right) →
      Derives .additive (a ++ symbol :: b) (.tree (.binary (.ofText symbol.text) left right false))
  | term {row : List Symbol} {e : Expr} :
      Derives .factor row (.tree e) → Derives .term row (.tree e)
  | multiplied {a b : List Symbol} {symbol : Symbol} {left right : Expr} :
      Derives .term a (.tree left) → symbol.isMultiplicative = true → Derives .factor b (.tree right) →
      Derives .term (a ++ symbol :: b) (.tree (.binary (.ofText symbol.text) left right false))
  | beside {a b : List Symbol} {left right : Expr} :
      Derives .term a (.tree left) → Derives .powered b (.tree right) →
      Derives .term (a ++ b) (.tree (.juxtapose left right))
  | factor {row : List Symbol} {e : Expr} :
      Derives .powered row (.tree e) → Derives .factor row (.tree e)
  | signed {row : List Symbol} {symbol : Symbol} {operand : Expr} :
      symbol.isSign = true → Derives .factor row (.tree operand) →
      Derives .factor (symbol :: row) (.tree (.unary (.ofText symbol.text) operand))
  | bigAlone {row : List Symbol} {head : Expr} :
      Derives .bigOperator row (.tree head) → Derives .factor row (.tree head)
  | bigTaking {a b : List Symbol} {head operand : Expr} :
      Derives .bigOperator a (.tree head) → Derives .term b (.tree operand) →
      Derives .factor (a ++ b) (.tree (.juxtapose head operand))
  | bigName {op : BigOperator} :
      Derives .bigOperator [.bigOperator op] (.tree (.name op.text))
  | bigSubscript {a b : List Symbol} {head script : Expr} :
      Derives .bigOperator a (.tree head) → Derives .primary b (.tree script) →
      Derives .bigOperator (a ++ .underscore :: b) (.tree (.binary .subscript head script false))
  | bigPower {a b : List Symbol} {head exponent : Expr} :
      Derives .bigOperator a (.tree head) → Derives .factor b (.tree exponent) →
      Derives .bigOperator (a ++ .caret :: b) (.tree (.binary .power head exponent false))
  | powered {row : List Symbol} {e : Expr} :
      Derives .scripted row (.tree e) → Derives .powered row (.tree e)
  | power {a b : List Symbol} {base exponent : Expr} :
      Derives .scripted a (.tree base) → Derives .factor b (.tree exponent) →
      Derives .powered (a ++ .caret :: b) (.tree (.binary .power base exponent false))
  | scripted {row : List Symbol} {e : Expr} :
      Derives .primary row (.tree e) → Derives .scripted row (.tree e)
  | subscript {a b : List Symbol} {base script : Expr} :
      Derives .scripted a (.tree base) → Derives .primary b (.tree script) →
      Derives .scripted (a ++ .underscore :: b) (.tree (.binary .subscript base script false))
  | group {row : List Symbol} {e : Expr} :
      Derives .relation row (.tree e) →
      Derives .primary (.openParen :: row ++ [.closeParen]) (.tree e)
  | primary {row : List Symbol} {e : Expr} :
      Derives .atom row (.tree e) → Derives .primary row (.tree e)
  | number {digits : Text} : Derives .atom [.number digits] (.tree (.number digits))
  | name {text : Text} : Derives .atom [.name text] (.tree (.name text))
  | callEmpty {symbol : Symbol} {function : Text} :
      symbol.callee? = some function →
      Derives .atom [symbol, .openParen, .closeParen] (.tree (.call function []))
  | call {row : List Symbol} {symbol : Symbol} {function : Text} {es : List Expr} :
      symbol.callee? = some function → Derives .arguments row (.trees es) →
      Derives .atom (symbol :: .openParen :: row ++ [.closeParen]) (.tree (.call function es))
  | functionTaking {row : List Symbol} {f : NamedFunction} {operand : Expr} :
      Derives .barePowered row (.tree operand) →
      Derives .atom (.function f :: row) (.tree (.call f.text [operand]))
  | functionName {f : NamedFunction} : Derives .atom [.function f] (.tree (.name f.text))
  | rootOne {row : List Symbol} {radicand : Expr} :
      Derives .relation row (.tree radicand) →
      Derives .atom (.root :: .openParen :: row ++ [.closeParen]) (.tree (.call rootWord [radicand]))
  | rootTwo {a b : List Symbol} {index radicand : Expr} :
      Derives .relation a (.tree index) → Derives .relation b (.tree radicand) →
      Derives .atom (.root :: .openParen :: a ++ .closeParen :: .openParen :: b ++ [.closeParen])
        (.tree (.call rootWord [index, radicand]))
  | rootName : Derives .atom [.root] (.tree (.name rootWord))
  | integral {row : List Symbol} {e : Expr} :
      Derives .integral row (.tree e) → Derives .atom row (.tree e)
  | barePowered {row : List Symbol} {e : Expr} :
      Derives .bareScripted row (.tree e) → Derives .barePowered row (.tree e)
  | barePower {a b : List Symbol} {base exponent : Expr} :
      Derives .bareScripted a (.tree base) → Derives .factor b (.tree exponent) →
      Derives .barePowered (a ++ .caret :: b) (.tree (.binary .power base exponent false))
  | bareScripted {row : List Symbol} {e : Expr} :
      Derives .atom row (.tree e) → Derives .bareScripted row (.tree e)
  | bareSubscript {a b : List Symbol} {base script : Expr} :
      Derives .bareScripted a (.tree base) → Derives .primary b (.tree script) →
      Derives .bareScripted (a ++ .underscore :: b) (.tree (.binary .subscript base script false))
  | argument {row : List Symbol} {e : Expr} :
      Derives .relation row (.tree e) → Derives .arguments row (.trees [e])
  | arguments {a b : List Symbol} {e : Expr} {es : List Expr} :
      Derives .relation a (.tree e) → Derives .arguments b (.trees es) →
      Derives .arguments (a ++ .comma :: b) (.trees (e :: es))
  | unbounded {row : List Symbol} {integrand : Expr} {v : Text} :
      Derives .additive row (.tree integrand) →
      Derives .integral (.integral :: row ++ [.differential v])
        (.tree (.call integralWord [integrand, .name v]))
  | bounded {a b : List Symbol} {lower upper integrand : Expr} {v : Text} :
      Derives .bounds a (.bounds lower upper) → Derives .additive b (.tree integrand) →
      Derives .integral (.integral :: a ++ b ++ [.differential v])
        (.tree (.call integralWord [integrand, .name v, lower, upper]))
  | lowerUpper {a b : List Symbol} {lower upper : Expr} :
      Derives .bound a (.tree lower) → Derives .bound b (.tree upper) →
      Derives .bounds (.underscore :: a ++ .caret :: b) (.bounds lower upper)
  | upperLower {a b : List Symbol} {lower upper : Expr} :
      Derives .bound a (.tree upper) → Derives .bound b (.tree lower) →
      Derives .bounds (.caret :: a ++ .underscore :: b) (.bounds lower upper)
  | bound {row : List Symbol} {e : Expr} :
      Derives .primary row (.tree e) → Derives .bound row (.tree e)
  | boundMinus {row : List Symbol} {operand : Expr} :
      Derives .primary row (.tree operand) →
      Derives .bound (.minus :: row) (.tree (.unary (.ofText Symbol.minus.text) operand))

/-! ## What a phrase takes -/

/-- The operator of a symbol is written like the symbol. -/
theorem Symbol.ofText_operator {symbol : Symbol} {op : Operator}
    (h : symbol.additive? = some op ∨ symbol.multiplicative? = some op ∨ symbol.sign? = some op) :
    op = .ofText symbol.text := by
  cases symbol <;> rcases h with h | h | h <;> cases h <;> rfl

/-- The operator of a relation is written like the relation. -/
theorem Symbol.ofText_relation (r : Relation) :
    .relation r = Operator.ofText (Symbol.relation r).text := by
  cases r <;> rfl

/-- The symbols that a phrase takes explain the tree that it gives. A phrase that goes on with a tree
explains it behind every row that derives the tree it goes on with. -/
def Phrase.Explains : Phrase → List Symbol → Expr → Prop
  | relation, taken, tree => Derives .relation taken (.tree tree)
  | moreRelation left, taken, tree =>
    ∀ front, Derives .relation front (.tree left) → Derives .relation (front ++ taken) (.tree tree)
  | additive, taken, tree => Derives .additive taken (.tree tree)
  | moreAdditive left, taken, tree =>
    ∀ front, Derives .additive front (.tree left) → Derives .additive (front ++ taken) (.tree tree)
  | term, taken, tree => Derives .term taken (.tree tree)
  | moreTerm left, taken, tree =>
    ∀ front, Derives .term front (.tree left) → Derives .term (front ++ taken) (.tree tree)
  | factor, taken, tree => Derives .factor taken (.tree tree)
  | bigOperator head, taken, tree =>
    ∀ front, Derives .bigOperator front (.tree head) → Derives .factor (front ++ taken) (.tree tree)
  | powered, taken, tree => Derives .powered taken (.tree tree)
  | morePowered base, taken, tree =>
    (∀ front, Derives .scripted front (.tree base) → Derives .powered (front ++ taken) (.tree tree))
    ∧ ∀ front, Derives .bareScripted front (.tree base) →
        Derives .barePowered (front ++ taken) (.tree tree)
  | operand, taken, tree => Derives .barePowered taken (.tree tree)
  | primary, taken, tree => Derives .primary taken (.tree tree)
  | atom, taken, tree => Derives .atom taken (.tree tree)
  | arguments function done, taken, tree =>
    ∃ row es, taken = row ++ [.closeParen] ∧ Derives .arguments row (.trees es)
      ∧ tree = .call function (done ++ es)
  | bound, taken, tree => Derives .bound taken (.tree tree)

/-- A row starts with symbols that have a property, and `rest` stands behind them. -/
def Takes (property : List Symbol → Prop) (input rest : List Symbol) : Prop :=
  ∃ taken, input = taken ++ rest ∧ property taken

namespace Takes

variable {first second property : List Symbol → Prop} {symbol : Symbol}
  {input middle rest : List Symbol}

/-- Nothing is taken. -/
theorem empty (h : property []) : Takes property rest rest :=
  ⟨[], rfl, h⟩

/-- A symbol is taken, and then what goes with it. -/
theorem cons (h : Takes (fun taken => property (symbol :: taken)) input rest) :
    Takes property (symbol :: input) rest := by
  obtain ⟨taken, rfl, htaken⟩ := h
  exact ⟨symbol :: taken, rfl, htaken⟩

/-- A symbol is taken and nothing behind it. -/
theorem one (h : property [symbol]) : Takes property (symbol :: rest) rest :=
  cons (empty h)

/-- What is taken may have a weaker property. -/
theorem mono (h : Takes first input rest) (hmono : ∀ taken, first taken → property taken) :
    Takes property input rest := by
  obtain ⟨taken, rfl, htaken⟩ := h
  exact ⟨taken, rfl, hmono taken htaken⟩

/-- One part is taken and then another. -/
theorem andThen (h₁ : Takes first input middle) (h₂ : Takes second middle rest)
    (hboth : ∀ a b, first a → second b → property (a ++ b)) : Takes property input rest := by
  obtain ⟨a, rfl, ha⟩ := h₁
  obtain ⟨b, rfl, hb⟩ := h₂
  exact ⟨a ++ b, by simp, hboth a b ha hb⟩

/-- A part is taken, the symbol that it ends in front of, and then another part. -/
theorem upTo (h₁ : Takes first input (symbol :: middle)) (h₂ : Takes second middle rest)
    (hboth : ∀ a b, first a → second b → property (a ++ symbol :: b)) : Takes property input rest := by
  obtain ⟨a, rfl, ha⟩ := h₁
  obtain ⟨b, rfl, hb⟩ := h₂
  exact ⟨a ++ symbol :: b, by simp, hboth a b ha hb⟩

/-- A part is taken with the symbol that it ends in front of. -/
theorem closed (h : Takes first input (symbol :: rest))
    (hclosed : ∀ taken, first taken → property (taken ++ [symbol])) : Takes property input rest := by
  obtain ⟨taken, rfl, htaken⟩ := h
  exact ⟨taken ++ [symbol], by simp, hclosed taken htaken⟩

end Takes

/-- **The reader stays within the grammar.** A phrase takes symbols from the front of the row, and they
explain its tree. -/
theorem Reads.derives {phrase : Phrase} {input rest : List Symbol} {tree : Expr}
    (h : Reads phrase input tree rest) :
    Takes (fun taken => phrase.Explains taken tree) input rest := by
  -- Each rule of the reader is a production, up to its look-ahead, which the grammar does not have. A phrase
  -- that goes on with a left side explains it together with any symbols that explain the left side.
  induction h with
  | relation _ _ ih₁ ih₂ => exact ih₁.andThen ih₂ fun a _ ha hb => hb a (.relation ha)
  | @relationNext r _ _ _ _ _ _ _ _ ih₁ ih₂ =>
    refine .cons (ih₁.andThen ih₂ fun a b ha hb front hfront => ?_)
    -- The builder makes the operator from the text of the symbol.
    have hboth := @Derives.compared _ _ (.relation r) _ _ hfront rfl ha
    rw [← Symbol.ofText_relation] at hboth
    simpa using hb _ hboth
  | relationEnd | additiveEnd | termEnd => exact .empty fun front hfront => by simpa using hfront
  | additive _ _ ih₁ ih₂ => exact ih₁.andThen ih₂ fun a _ ha hb => hb a (.additive ha)
  | additiveNext hop _ _ ih₁ ih₂ =>
    obtain rfl := Symbol.ofText_operator (.inl hop)
    refine .cons (ih₁.andThen ih₂ fun a b ha hb front hfront => ?_)
    simpa using hb _ (.added hfront (Option.isSome_of_eq_some hop) ha)
  | term _ _ ih₁ ih₂ => exact ih₁.andThen ih₂ fun a _ ha hb => hb a (.term ha)
  | termNext hop _ _ ih₁ ih₂ =>
    obtain rfl := Symbol.ofText_operator (.inr (.inl hop))
    refine .cons (ih₁.andThen ih₂ fun a b ha hb front hfront => ?_)
    simpa using hb _ (.multiplied hfront (Option.isSome_of_eq_some hop) ha)
  | termBeside _ _ _ ih₁ ih₂ =>
    refine ih₁.andThen ih₂ fun a b ha hb front hfront => ?_
    simpa using hb _ (.beside hfront ha)
  | sign hop _ ih =>
    obtain rfl := Symbol.ofText_operator (.inr (.inr hop))
    exact .cons (ih.mono fun _ => .signed (Option.isSome_of_eq_some hop))
  | bigOperator _ ih => exact .cons (ih.mono fun _ ha => ha _ .bigName)
  | factor _ _ _ ih => exact ih.mono fun _ => .factor
  | bigSubscript _ _ ih₁ ih₂ =>
    refine .cons (ih₁.andThen ih₂ fun a b ha hb front hfront => ?_)
    simpa using hb _ (.bigSubscript hfront ha)
  | bigPower _ _ ih₁ ih₂ =>
    refine .cons (ih₁.andThen ih₂ fun a b ha hb front hfront => ?_)
    simpa using hb _ (.bigPower hfront ha)
  | bigTerm _ _ ih => exact ih.mono fun _ ha _ hfront => .bigTaking hfront ha
  | bigAlone => exact .empty fun _ hfront => by simpa using Derives.bigAlone hfront
  | powered _ _ ih₁ ih₂ => exact ih₁.andThen ih₂ fun a _ ha hb => hb.1 a (.scripted ha)
  | subscript _ _ ih₁ ih₂ =>
    -- The same symbols go on with a base of its own and with the bare operand of a function.
    refine .cons (ih₁.andThen ih₂ fun a b ha hb => ⟨fun front hfront => ?_, fun front hfront => ?_⟩)
    · simpa using hb.1 _ (.subscript hfront ha)
    · simpa using hb.2 _ (.bareSubscript hfront ha)
  | power _ ih =>
    exact .cons (ih.mono fun _ ha =>
      ⟨fun _ hfront => .power hfront ha, fun _ hfront => .barePower hfront ha⟩)
  | poweredEnd =>
    refine .empty ⟨fun front hfront => ?_, fun front hfront => ?_⟩
    · simpa using Derives.powered hfront
    · simpa using Derives.barePowered hfront
  | operand _ _ ih₁ ih₂ => exact ih₁.andThen ih₂ fun a _ ha hb => hb.2 a (.bareScripted ha)
  | group _ ih => exact .cons (ih.closed fun _ => .group)
  | primary _ _ ih => exact ih.mono fun _ => .primary
  | number => exact .one .number
  | name => exact .one .name
  | callEmpty hcallee => exact .cons (.cons (.one (.callEmpty hcallee)))
  | call hcallee _ _ ih =>
    refine .cons (.cons (ih.mono fun _ hrow => ?_))
    obtain ⟨row, es, rfl, hrow, rfl⟩ := hrow
    exact .call hcallee hrow
  | functionOperand _ _ ih => exact .cons (ih.mono fun _ => .functionTaking)
  | functionAlone => exact .one .functionName
  | rootAlone => exact .one .rootName
  | rootOne _ _ ih => exact .cons (.cons (ih.closed fun _ => .rootOne))
  | rootTwo _ _ ih₁ ih₂ =>
    obtain ⟨a, rfl, ha⟩ := ih₁
    obtain ⟨b, rfl, hb⟩ := ih₂
    exact ⟨.root :: .openParen :: a ++ .closeParen :: .openParen :: b ++ [Symbol.closeParen], by simp,
      .rootTwo ha hb⟩
  | integral _ _ ih => exact .cons (ih.closed fun _ ha => .integral (.unbounded ha))
  | @integralLower _ _ _ _ _ _ _ v _ _ _ ih₁ ih₂ ih₃ =>
    obtain ⟨a, rfl, ha⟩ := ih₁
    obtain ⟨b, rfl, hb⟩ := ih₂
    obtain ⟨c, rfl, hc⟩ := ih₃
    exact ⟨.integral :: (.underscore :: a ++ .caret :: b) ++ c ++ [.differential v], by simp,
      .integral (.bounded (.lowerUpper ha hb) hc)⟩
  | @integralUpper _ _ _ _ _ _ _ v _ _ _ ih₁ ih₂ ih₃ =>
    obtain ⟨a, rfl, ha⟩ := ih₁
    obtain ⟨b, rfl, hb⟩ := ih₂
    obtain ⟨c, rfl, hc⟩ := ih₃
    exact ⟨.integral :: (.caret :: a ++ .underscore :: b) ++ c ++ [.differential v], by simp,
      .integral (.bounded (.upperLower ha hb) hc)⟩
  | argumentsNext _ _ ih₁ ih₂ =>
    refine ih₁.upTo ih₂ fun a b ha hb => ?_
    obtain ⟨row, es, rfl, hrow, rfl⟩ := hb
    exact ⟨a ++ .comma :: row, _ :: es, by simp, .arguments ha hrow, by simp⟩
  | argumentsEnd _ ih => exact ih.closed fun a ha => ⟨a, [_], rfl, .argument ha, rfl⟩
  | boundMinus _ ih => exact .cons (ih.mono fun _ => .boundMinus)
  | bound _ _ ih => exact ih.mono fun _ => .bound

/-! ## No tree is invented -/

/-- **The tree of a text is derived by its tokens.** When `parse` gives a tree for a text, it is split into
tokens to its end, and the grammar derives the tree from all of them. -/
theorem derives_of_parse {text : Text} {tree : Expr} (h : parse text = .ok tree) :
    ∃ tokens, tokenize text = .ok tokens ∧ Derives .start (tokens.map Token.symbol) (.tree tree) := by
  obtain ⟨row, hclosed, hreads⟩ := parse_eq_ok_iff.mp h
  obtain ⟨tokens, htokens, rfl⟩ := closedRow?_eq_some_iff_tokenize.mp hclosed
  obtain ⟨taken, htaken, hexplains⟩ := hreads.derives
  rw [List.append_nil] at htaken
  exact ⟨tokens, htokens, htaken ▸ .start hexplains⟩

/-- A function with a bare operand, a call and an integral in one formula. -/
theorem derives_of_parse_integral :
    parse "int_0^1 sin x dx = f(y)".toList = .ok (.binary (.relation .equal) (.call integralWord
        [.call NamedFunction.sin.text [.name ['x']], .name ['x'], .number ['0'], .number ['1']])
        (.call ['f'] [.name ['y']]) false)
      ∧ ∃ tokens, tokenize "int_0^1 sin x dx = f(y)".toList = .ok tokens
        ∧ Derives .start (tokens.map Token.symbol) (.tree (.binary (.relation .equal)
          (.call integralWord [.call NamedFunction.sin.text [.name ['x']], .name ['x'], .number ['0'],
            .number ['1']]) (.call ['f'] [.name ['y']]) false)) := by
  have hparse : parse "int_0^1 sin x dx = f(y)".toList = .ok (.binary (.relation .equal)
      (.call integralWord [.call NamedFunction.sin.text [.name ['x']], .name ['x'], .number ['0'],
        .number ['1']]) (.call ['f'] [.name ['y']]) false) := by
    cbv
  exact ⟨hparse, derives_of_parse hparse⟩

end MathScribe

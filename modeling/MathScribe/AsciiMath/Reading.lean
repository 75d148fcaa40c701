/-
Reading formulas.

Precedence, from the loosest to the tightest:

1. relations,
2. sum, difference and plus-or-minus, to the left,
3. product, quotient and juxtaposition, to the left,
4. a minus or plus-or-minus sign in front,
5. powers, to the right, and subscripts,
6. numbers, names, parentheses, calls and integrals.

A big operator takes the whole term behind it. Where a symbol could either go on with the phrase
that is being read or end it, it goes on: a name in front of a parenthesis is always a call, a
function takes an operand whenever one can start, and a root takes a second group.

The reader works on symbols alone, without their places. It either finds the tree of a phrase and the
symbols behind it, or stops in front of a symbol that cannot stand there; how many symbols are left
then tells where that is.
-/
import MathScribe.AsciiMath.Token
import MathScribe.AsciiMath.Expr

set_option autoImplicit false

namespace MathScribe

/-- What comes of reading a phrase: its tree and the symbols behind it, or the symbols from the first
one that cannot stand where it does. -/
abbrev Reading := Except (List Symbol) (Expr × List Symbol)

/-- A phrase that can be looked for. The ones that carry a tree go on with a phrase whose first part
has been read. -/
inductive Phrase
  /-- Sums joined by relations. -/
  | relation
  | moreRelation (left : Expr)
  /-- Terms joined by additive operators. -/
  | additive
  | moreAdditive (left : Expr)
  /-- Factors joined by multiplicative operators or by nothing. -/
  | term
  | moreTerm (left : Expr)
  /-- A factor, with the signs in front of it. -/
  | factor
  /-- The scripts of a big operator and the term that it takes. -/
  | bigOperator (head : Expr)
  /-- A primary with its scripts. -/
  | powered
  | morePowered (base : Expr)
  /-- An operand without parentheses, with its scripts. -/
  | operand
  /-- A parenthesized relation, or an atom. -/
  | primary
  /-- A number, a name, a call or an integral. -/
  | atom
  /-- The arguments of a call up to the closing parenthesis. -/
  | arguments (function : Text) (read : List Expr)
  /-- A bound of an integral. -/
  | bound
  deriving Repr

/-- A symbol that an atom can start with. -/
def Symbol.startsAtom : Symbol → Bool
  | number _ | name _ | function _ | root | integral => true
  | _ => false

/-- A symbol that a powered phrase can start with. -/
def Symbol.startsPowered : Symbol → Bool
  | openParen => true
  | symbol => symbol.startsAtom

/-- A symbol that a term can start with. -/
def Symbol.startsTerm : Symbol → Bool
  | minus | plusMinus | bigOperator _ => true
  | symbol => symbol.startsPowered

/-- Whether the row of symbols goes on with one of the given kind. -/
def goesOn (kind : Symbol → Bool) : List Symbol → Bool
  | [] => false
  | symbol :: _ => kind symbol

/-- The symbols behind the one that has to come next. -/
def expect (symbol : Symbol) (input : List Symbol) : Except (List Symbol) (List Symbol) :=
  match input with
  | [] => .error []
  | next :: rest => if next = symbol then .ok rest else .error input

/-- The variable of the differential that has to come next. -/
def expectDifferential (input : List Symbol) : Except (List Symbol) (Text × List Symbol) :=
  match input with
  | .differential v :: rest => .ok (v, rest)
  | _ => .error input

/-- Read a phrase. The number bounds how many phrases may lie inside each other; `readingBound` is
always enough. -/
def read : Nat → Phrase → List Symbol → Reading
  | 0, _, input => .error input
  | n + 1, .relation, input => do
    let (left, rest) ← read n .additive input
    read n (.moreRelation left) rest
  | n + 1, .moreRelation left, input =>
    match input with
    | .relation r :: rest => do
      let (right, rest) ← read n .additive rest
      read n (.moreRelation (.binary (.relation r) left right false)) rest
    | _ => .ok (left, input)
  | n + 1, .additive, input => do
    let (left, rest) ← read n .term input
    read n (.moreAdditive left) rest
  | n + 1, .moreAdditive left, input =>
    match input with
    | .plus :: rest => do
      let (right, rest) ← read n .term rest
      read n (.moreAdditive (.binary .plus left right false)) rest
    | .minus :: rest => do
      let (right, rest) ← read n .term rest
      read n (.moreAdditive (.binary .minus left right false)) rest
    | .plusMinus :: rest => do
      let (right, rest) ← read n .term rest
      read n (.moreAdditive (.binary .plusMinus left right false)) rest
    | _ => .ok (left, input)
  | n + 1, .term, input => do
    let (left, rest) ← read n .factor input
    read n (.moreTerm left) rest
  | n + 1, .moreTerm left, input =>
    match input with
    | .star :: rest => do
      let (right, rest) ← read n .factor rest
      read n (.moreTerm (.binary .times left right false)) rest
    | .slash :: rest => do
      let (right, rest) ← read n .factor rest
      read n (.moreTerm (.binary .dividedBy left right false)) rest
    | _ =>
      if goesOn Symbol.startsPowered input then do
        let (right, rest) ← read n .powered input
        read n (.moreTerm (.juxtapose left right)) rest
      else .ok (left, input)
  | n + 1, .factor, input =>
    match input with
    | .minus :: rest => do
      let (operand, rest) ← read n .factor rest
      return (.unary .minus operand, rest)
    | .plusMinus :: rest => do
      let (operand, rest) ← read n .factor rest
      return (.unary .plusMinus operand, rest)
    | .bigOperator op :: rest => read n (.bigOperator (.name op.text)) rest
    | _ => read n .powered input
  | n + 1, .bigOperator head, input =>
    match input with
    | .underscore :: rest => do
      let (script, rest) ← read n .primary rest
      read n (.bigOperator (.binary .subscript head script false)) rest
    | .caret :: rest => do
      let (exponent, rest) ← read n .factor rest
      read n (.bigOperator (.binary .power head exponent false)) rest
    | _ =>
      if goesOn Symbol.startsTerm input then do
        let (operand, rest) ← read n .term input
        return (.juxtapose head operand, rest)
      else .ok (head, input)
  | n + 1, .powered, input => do
    let (base, rest) ← read n .primary input
    read n (.morePowered base) rest
  | n + 1, .morePowered base, input =>
    match input with
    | .underscore :: rest => do
      let (script, rest) ← read n .primary rest
      read n (.morePowered (.binary .subscript base script false)) rest
    | .caret :: rest => do
      let (exponent, rest) ← read n .factor rest
      return (.binary .power base exponent false, rest)
    | _ => .ok (base, input)
  | n + 1, .operand, input => do
    let (base, rest) ← read n .atom input
    read n (.morePowered base) rest
  | n + 1, .primary, input =>
    match input with
    | .openParen :: rest => do
      let (inside, rest) ← read n .relation rest
      let rest ← expect .closeParen rest
      return (inside, rest)
    | _ => read n .atom input
  | n + 1, .atom, input =>
    match input with
    | .number digits :: rest => .ok (.number digits, rest)
    | .name text :: .openParen :: .closeParen :: rest => .ok (.call text [], rest)
    | .name text :: .openParen :: rest => read n (.arguments text []) rest
    | .name text :: rest => .ok (.name text, rest)
    | .function f :: .openParen :: .closeParen :: rest => .ok (.call f.text [], rest)
    | .function f :: .openParen :: rest => read n (.arguments f.text []) rest
    | .function f :: rest =>
      if goesOn Symbol.startsAtom rest then do
        let (operand, rest) ← read n .operand rest
        return (.call f.text [operand], rest)
      else .ok (.name f.text, rest)
    | .root :: .openParen :: rest => do
      let (first, rest) ← read n .relation rest
      let rest ← expect .closeParen rest
      match rest with
      | .openParen :: rest => do
        let (second, rest) ← read n .relation rest
        let rest ← expect .closeParen rest
        return (.call rootWord [first, second], rest)
      | _ => return (.call rootWord [first], rest)
    | .root :: rest => .ok (.name rootWord, rest)
    | .integral :: .underscore :: rest => do
      let (lower, rest) ← read n .bound rest
      let rest ← expect .caret rest
      let (upper, rest) ← read n .bound rest
      let (integrand, rest) ← read n .additive rest
      let (v, rest) ← expectDifferential rest
      return (.call integralWord [integrand, .name v, lower, upper], rest)
    | .integral :: .caret :: rest => do
      let (upper, rest) ← read n .bound rest
      let rest ← expect .underscore rest
      let (lower, rest) ← read n .bound rest
      let (integrand, rest) ← read n .additive rest
      let (v, rest) ← expectDifferential rest
      return (.call integralWord [integrand, .name v, lower, upper], rest)
    | .integral :: rest => do
      let (integrand, rest) ← read n .additive rest
      let (v, rest) ← expectDifferential rest
      return (.call integralWord [integrand, .name v], rest)
    | _ => .error input
  | n + 1, .arguments function done, input => do
    let (argument, rest) ← read n .relation input
    match rest with
    | .comma :: rest => read n (.arguments function (done ++ [argument])) rest
    | _ => do
      let rest ← expect .closeParen rest
      return (.call function (done ++ [argument]), rest)
  | n + 1, .bound, input =>
    match input with
    | .minus :: rest => do
      let (operand, rest) ← read n .primary rest
      return (.unary .minus operand, rest)
    | _ => read n .primary input

/-- How many phrases can lie inside each other at most: eight for each symbol, and the outermost. -/
def readingBound (input : List Symbol) : Nat :=
  8 * (input.length + 2)

/-- Read a row of symbols as one relation, from the grammar's `start`. When that fails, the symbols
from the first one that cannot stand where it does. -/
def readSymbols (input : List Symbol) : Except (List Symbol) Expr := do
  let (tree, rest) ← read (readingBound input) .relation input
  match rest with
  | [] => return tree
  | _ => .error rest

/-- The place of a failure that leaves `count` of the tokens (`_error_position`): the first of
those, or the last token of all when none is left. -/
def failurePosition (tokens : List Token) (count : Nat) : Nat :=
  let remaining := tokens.drop (tokens.length - count)
  ((remaining.head?.or tokens.getLast?).map Token.start).getD 0

/-- Read a formula (`parse`). The first thing that goes wrong is what is reported: a symbol that
cannot stand where it does comes before a later failure to split the text, and at the end of the
tokens that failure comes first. -/
def parse (text : Text) : Except ParseError Expr :=
  if isBlankText text then .error .empty
  else
    let scanned := scanClosed text
    match readSymbols (scanned.tokens.map Token.symbol), scanned.failure with
    | .ok tree, none => .ok tree
    | .ok _, some e => .error e
    | .error [], some e => .error e
    | .error left, _ => .error (.unexpected (failurePosition scanned.tokens left.length))

end MathScribe

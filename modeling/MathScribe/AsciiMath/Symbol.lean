/-
The symbols of ASCIIMath.

A formula in linear notation is a row of symbols: numbers, words, operators and marks. A word is the
longest run of ASCII letters and digits that starts with a letter; some words are reserved, and a
word is one of them only when it is exactly that word. `Symbol.read?` takes the symbol at the front
of a text, always the longest one.
-/
import MathScribe.Text.Digit

set_option autoImplicit false

namespace MathScribe

/-- The relations. -/
inductive Relation
  | tendsTo
  | atMost
  | atLeast
  | differs
  | equal
  | less
  | greater
  deriving DecidableEq, Repr

/-- How a relation is written. -/
def Relation.text : Relation → Text
  | tendsTo => ['-', '>']
  | atMost => ['<', '=']
  | atLeast => ['>', '=']
  | differs => ['!', '=']
  | equal => ['=']
  | less => ['<']
  | greater => ['>']

/-- The functions that take an operand without parentheses. -/
inductive NamedFunction
  | sin
  | cos
  | tan
  | log
  | ln
  | exp
  | sqrt
  deriving DecidableEq, Repr

namespace NamedFunction

/-- How a function is written. -/
def text : NamedFunction → Text
  | sin => ['s', 'i', 'n']
  | cos => ['c', 'o', 's']
  | tan => ['t', 'a', 'n']
  | log => ['l', 'o', 'g']
  | ln => ['l', 'n']
  | exp => ['e', 'x', 'p']
  | sqrt => ['s', 'q', 'r', 't']

/-- All of them. -/
def all : List NamedFunction :=
  [sin, cos, tan, log, ln, exp, sqrt]

end NamedFunction

/-- The big operators, which take the whole term behind them. -/
inductive BigOperator
  | lim
  | sum
  | prod
  deriving DecidableEq, Repr

namespace BigOperator

/-- How a big operator is written. -/
def text : BigOperator → Text
  | lim => ['l', 'i', 'm']
  | sum => ['s', 'u', 'm']
  | prod => ['p', 'r', 'o', 'd']

/-- All of them. -/
def all : List BigOperator :=
  [lim, sum, prod]

end BigOperator

/-- The word that opens an integral. -/
def integralWord : Text := ['i', 'n', 't']

/-- The word of a root with an index. -/
def rootWord : Text := ['r', 'o', 'o', 't']

/-- A symbol of a formula. -/
inductive Symbol
  | number (digits : Text)
  | name (text : Text)
  | function (f : NamedFunction)
  | bigOperator (op : BigOperator)
  | root
  | integral
  | relation (r : Relation)
  | plusMinus
  | plus
  | minus
  | star
  | slash
  | openParen
  | closeParen
  | comma
  | underscore
  | caret
  /-- The name that closes an integral, given by its variable. -/
  | differential (variableName : Text)
  deriving DecidableEq, Repr

namespace Symbol

/-- The value of a symbol: how it is written, or the variable of a differential. -/
def text : Symbol → Text
  | number digits => digits
  | name text => text
  | function f => f.text
  | bigOperator op => op.text
  | root => rootWord
  | integral => integralWord
  | relation r => r.text
  | plusMinus => ['+', '-']
  | plus => ['+']
  | minus => ['-']
  | star => ['*']
  | slash => ['/']
  | openParen => ['(']
  | closeParen => [')']
  | comma => [',']
  | underscore => ['_']
  | caret => ['^']
  | differential variableName => variableName

/-- The symbol that a word stands for: a reserved word, else a name. -/
def ofWord (word : Text) : Symbol :=
  if word = integralWord then integral
  else if word = rootWord then root
  else
    match NamedFunction.all.find? (·.text = word) with
    | some f => function f
    | none =>
      match BigOperator.all.find? (·.text = word) with
      | some op => bigOperator op
      | none => name word

/-- The fraction digits at the front of a text, with the point before them. -/
def fractionDigits : Text → Text
  | '.' :: c :: rest =>
    if isDecimalDigit c then '.' :: c :: rest.takeWhile isDecimalDigit else []
  | _ => []

/-- The number at the front of a text: digits with an optional fraction, or a fraction alone. Empty
when there is none. -/
def numberAt (text : Text) : Text :=
  let whole := text.takeWhile isDecimalDigit
  whole ++ fractionDigits (text.drop whole.length)

/-- The operator or mark at the front of a text. -/
def markAt? : Text → Option Symbol
  | '-' :: '>' :: _ => some (relation .tendsTo)
  | '<' :: '=' :: _ => some (relation .atMost)
  | '>' :: '=' :: _ => some (relation .atLeast)
  | '!' :: '=' :: _ => some (relation .differs)
  | '+' :: '-' :: _ => some plusMinus
  | '=' :: _ => some (relation .equal)
  | '<' :: _ => some (relation .less)
  | '>' :: _ => some (relation .greater)
  | '+' :: _ => some plus
  | '-' :: _ => some minus
  | '*' :: _ => some star
  | '/' :: _ => some slash
  | '(' :: _ => some openParen
  | ')' :: _ => some closeParen
  | ',' :: _ => some comma
  | '_' :: _ => some underscore
  | '^' :: _ => some caret
  | _ => none

/-- The symbol at the front of a text that starts with `c`. None when no symbol starts so. -/
def read? (c : Char) (rest : Text) : Option Symbol :=
  if c.isAlpha then some (ofWord (c :: rest.takeWhile Char.isAlphanum))
  else
    match numberAt (c :: rest) with
    | [] => markAt? (c :: rest)
    | digits => some (number digits)

end Symbol

end MathScribe

/-
The pieces of a formula.

LaTeX source is read as a row of pieces: plain characters, escaped characters, brace groups, and
commands together with their arguments. The arguments are kept as they are written; what becomes of
them is for the normal form to say. Nothing is ever refused: a command that is unknown, or whose
arguments are missing, is a piece that stands for its own source.
-/
import MathScribe.Text.Chop
import MathScribe.Latex.Argument
import MathScribe.Latex.Vocabulary

set_option autoImplicit false

namespace MathScribe.Latex

/-- A space or a tab, which may stand between a command and its group. -/
def isPad (c : Char) : Bool :=
  c == ' ' || c == '\t'

/-- Read a brace group behind optional spaces and tabs, as `_skip_blanks` and `read_group` do one
after the other. -/
def readPaddedBraces (text : Text) : Option (Text × Text) :=
  readBraces (text.dropWhile isPad)

/-- Read the script that follows the given mark. -/
def readMarked (mark : Char) : Text → Option (Text × Text)
  | [] => none
  | c :: rest =>
    if c = mark then (Script.read? rest).map fun (script, left) => (script.argument, left)
    else none

/-- The scripts of a big operator. -/
structure Scripts where
  /-- The subscript. -/
  lower : Option Text
  /-- The superscript. -/
  upper : Option Text
  deriving DecidableEq, Repr

/-- Read at most one subscript and at most one superscript, in either order (`_read_scripts`). -/
def readScripts (text : Text) : Scripts × Text :=
  match readMarked '_' text with
  | some (lower, left) =>
    match readMarked '^' left with
    | some (upper, left) => (⟨some lower, some upper⟩, left)
    | none => (⟨some lower, none⟩, left)
  | none =>
    match readMarked '^' text with
    | some (upper, left) =>
      match readMarked '_' left with
      | some (lower, left) => (⟨some lower, some upper⟩, left)
      | none => (⟨none, some upper⟩, left)
    | none => (⟨none, none⟩, text)

/-- A piece of LaTeX source. -/
inductive Piece
  /-- A character that means itself. -/
  | plain (c : Char)
  /-- A character behind a backslash, which keeps the backslash. -/
  | escaped (c : Char)
  /-- A brace group, given by its inside. -/
  | group (inside : Text)
  /-- A macro without arguments, given by the word it becomes. -/
  | word (text : Text)
  /-- A fraction. -/
  | fraction (numerator denominator : Text)
  /-- A square root. -/
  | squareRoot (radicand : Text)
  /-- A root with an index. -/
  | root (index radicand : Text)
  /-- A big operator with its scripts. -/
  | bigOperator (name : Text) (scripts : Scripts)
  /-- A limit with its subscript. -/
  | limit (approach : Text)
  /-- A style macro, given by what it sets in that style. -/
  | styled (inside : Text)
  /-- A macro that is not understood, with its arguments as they are written. -/
  | verbatim (source : Text)
  deriving DecidableEq, Repr

namespace Piece

/-- The piece that a known macro makes with the arguments behind it, and what is left
(`_rewrite_macro`). None when the macro is unknown or a group that it needs is missing. -/
def ofMacro? (name after : Text) : Option (Piece × Text) :=
  match wordOf? name with
  | some text => some (word text, after)
  | none =>
    if name ∈ fractionMacros then do
      let (numerator, left) ← readPaddedBraces after
      let (denominator, left) ← readPaddedBraces left
      return (fraction numerator denominator, left)
    else if name = rootMacro then
      match readBrackets after with
      | some (index, left) =>
        (readPaddedBraces left).map fun (radicand, left) => (root index radicand, left)
      | none => (readPaddedBraces after).map fun (radicand, left) => (squareRoot radicand, left)
    else if name ∈ bigOperatorMacros then
      let (scripts, left) := readScripts after
      some (bigOperator name scripts, left)
    else if name = limitMacro then
      match readScripts after with
      | (⟨some approach, _⟩, left) => some (limit approach, left)
      | (⟨none, _⟩, _) => some (word limitMacro, after)
    else if name ∈ styleMacros then
      (readPaddedBraces after).map fun (inside, left) => (styled inside, left)
    else none

/-- The piece at the front of a text that starts with `c`, and what is left of `rest` behind it. -/
def read (c : Char) (rest : Text) : Piece × Text :=
  if c = '{' then
    match readBraces (c :: rest) with
    | some (inside, left) => (group inside, left)
    | none => (plain c, rest)
  else if c = '\\' then
    match readMacro (c :: rest) with
    | some (name, after) =>
      match ofMacro? name after with
      | some found => found
      | none =>
        let (arguments, left) := readArguments false after
        (verbatim (c :: name ++ arguments.flatMap Argument.source), left)
    | none =>
      match rest with
      | [] => (plain c, [])
      | hidden :: left => (escaped hidden, left)
  else (plain c, rest)

end Piece

/-- The pieces of a text, in order, as `_rewrite_macros` meets them. -/
def pieces : Text → List Piece :=
  chop (fun c rest =>
    let (piece, left) := Piece.read c rest
    (piece, rest.length - left.length)) 0

end MathScribe.Latex

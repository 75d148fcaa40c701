/-
Arguments of a command.

Behind a command stand its arguments: options in brackets, groups in braces and, for a command
with scripts, a subscript or a superscript. This file reads one argument and the run of all
arguments that follow each other. Every argument keeps its source, so the source of the arguments
with what is left behind them is the text again.
-/
import MathScribe.Latex.Group

set_option autoImplicit false

namespace MathScribe.Latex

/-- The name of the macro at the front of a text, with what is left behind it: a backslash and the
longest run of letters. -/
def readMacro : Text → Option (Text × Text)
  | '\\' :: rest =>
    match rest.takeWhile Char.isAlpha with
    | [] => none
    | name => some (name, rest.dropWhile Char.isAlpha)
  | _ => none

/-- The argument of a script mark. -/
inductive Script
  /-- A brace group, given by its inside. -/
  | group (inside : Text)
  /-- A macro, given by its name. -/
  | command (name : Text)
  /-- One character that is neither white space nor a brace nor a backslash. -/
  | letter (c : Char)
  deriving DecidableEq, Repr

namespace Script

/-- What the script stands for: the inside of a group, without its braces. -/
def argument : Script → Text
  | group inside => inside
  | command name => '\\' :: name
  | letter c => [c]

/-- The script as it is written. -/
def source : Script → Text
  | group inside => '{' :: inside ++ ['}']
  | command name => '\\' :: name
  | letter c => [c]

/-- Read the script argument at the front of a text (`read_script`). An unclosed group, a closing
brace, white space and a backslash without a name are none. -/
def read? (text : Text) : Option (Script × Text) :=
  match text with
  | [] => none
  | c :: rest =>
    match readBraces text with
    | some (inside, left) => some (group inside, left)
    | none =>
      if c = '{' ∨ c = '}' then none
      else
        match readMacro text with
        | some (name, left) => some (command name, left)
        | none => if isBlank c ∨ c = '\\' then none else some (letter c, rest)

end Script

/-- One argument of a command. -/
inductive Argument
  /-- An option in brackets, given by its inside. -/
  | option (inside : Text)
  /-- A group in braces, given by its inside. -/
  | group (inside : Text)
  /-- A script mark with its argument. -/
  | script (mark : Char) (body : Script)
  deriving DecidableEq, Repr

namespace Argument

/-- The argument as it is written. -/
def source : Argument → Text
  | option inside => '[' :: inside ++ [']']
  | group inside => '{' :: inside ++ ['}']
  | script mark body => mark :: body.source

/-- Read the argument at the front of a text. Script marks count only when `scripts` is set. -/
def read? (scripts : Bool) (text : Text) : Option (Argument × Text) :=
  match text with
  | [] => none
  | c :: rest =>
    if c = '[' then (readBrackets text).map fun (inside, left) => (option inside, left)
    else if c = '{' then (readBraces text).map fun (inside, left) => (group inside, left)
    else if scripts ∧ (c = '_' ∨ c = '^') then
      (Script.read? rest).map fun (body, left) => (script c body, left)
    else none

end Argument

/-- Read arguments as long as the text starts with one. The first number bounds how many are read;
an argument takes at least one character, so the length of the text is bound enough. -/
def readArgumentsUpTo (scripts : Bool) : Nat → Text → List Argument × Text
  | 0, text => ([], text)
  | bound + 1, text =>
    match Argument.read? scripts text with
    | none => ([], text)
    | some (argument, left) =>
      let (others, left) := readArgumentsUpTo scripts bound left
      (argument :: others, left)

/-- All arguments at the front of a text, with what is left behind them (`skip_arguments`, which
gives the place where they end). -/
def readArguments (scripts : Bool) (text : Text) : List Argument × Text :=
  readArgumentsUpTo scripts text.length text

/-- The source of the arguments at the front of a text. -/
def argumentsSource (scripts : Bool) (text : Text) : Text :=
  (readArguments scripts text).1.flatMap Argument.source

end MathScribe.Latex

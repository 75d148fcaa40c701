/-
The command line.

Settings may be given on the command line, each by a flag made of two dashes and its name. The value
follows as the next word, or in the same word behind an equals sign. Case does not matter in flags,
and values are left alone. A word that looks like a flag is no value, unless it is a negative number
or has a space in it; the value `null` stands for nothing. When a flag is given twice, the later value
counts.
-/
import MathScribe.Record.Value
import MathScribe.Text.Case
import MathScribe.Text.Digit

set_option autoImplicit false

namespace MathScribe

namespace CommandLine

/-- Why the words of a command line give no settings. -/
inductive Refusal
  /-- The user asks for help. -/
  | help
  /-- A word has no place, a flag is unknown, or a flag lacks its value. -/
  | usage
  deriving DecidableEq, Repr

/-- A row of at least one decimal digit. -/
def isDigitRow (text : Text) : Bool :=
  !text.isEmpty && text.all isDecimalDigit

/-- The word without a line feed at its very end. -/
def dropFinalBreak (word : Text) : Text :=
  if word.getLast? = some '\n' then word.dropLast else word

/-- A negative number, whole or with a point in it; one line feed may follow it. -/
def isNegativeNumber (word : Text) : Bool :=
  match dropFinalBreak word with
  | '-' :: rest =>
    let whole := rest.takeWhile (· ≠ '.')
    match rest.drop whole.length with
    | [] => isDigitRow whole
    | _ :: fraction => whole.all isDecimalDigit && isDigitRow fraction
  | _ => false

/-- What a word is. -/
inductive Word
  /-- The flag that asks for help. -/
  | help
  /-- A flag, with the value that it carries, if it carries one. -/
  | flag (name : Text) (value? : Option Text)
  /-- A word that is refused wherever it stands: two dashes alone, behind which no flag may follow,
  and the flag for help with a value attached to it. -/
  | refused
  /-- A word that looks like a flag and is none. -/
  | strange
  /-- Any other word. -/
  | plain
  deriving DecidableEq, Repr

/-- Whether what stands behind the short flag for help leaves it a flag for help. The flag may be
repeated, and a letter that is no flag does no harm; an equals sign and one more dash do. -/
def goesWithHelp : Text → Bool
  | [] => true
  | c :: rest => if c = 'h' then goesWithHelp rest else c ≠ '=' && c ≠ '-'

/-- What a word is, given the flags that there are, in lower case. -/
def classify (flags : List Text) (word : Text) : Word :=
  let name := word.takeWhile (· ≠ '=')
  let flag := lower name
  let value? := if name.length < word.length then some (word.drop (name.length + 1)) else none
  if word.head? ≠ some '-' then .plain
  else if word = "--".toList then .refused
  else if flag = "-h".toList || flag = "--help".toList then
    if value? = none then .help else .refused
  else if flag ∈ flags then .flag flag value?
  else if word = "-".toList then .plain
  else if "-h".toList.isPrefixOf word then
    if goesWithHelp (word.drop 2) then .help else .refused
  else if isNegativeNumber word || ' ' ∈ word then .plain
  else .strange

/-- The value that a word stands for. -/
def valueOf (word : Text) : Value :=
  if word = "null".toList then .null else .text (String.ofList word)

/-- Read words from left to right. Help is given as soon as it is asked for, and a flag without its
value is refused at once; a word without a place is refused at the end. -/
def readWords (flags : List Text) : Bool → List (Text × Value) → List Text →
    Except Refusal (List (Text × Value))
  | misplaced, found, [] => if misplaced then .error .usage else .ok found
  | misplaced, found, word :: words =>
    match classify flags word with
    | .help => .error .help
    | .refused => .error .usage
    -- The words behind a misplaced one are still read, since one of them may ask for help.
    | .strange | .plain => readWords flags true found words
    | .flag name (some value) => readWords flags misplaced ((name, valueOf value) :: found) words
    | .flag name none =>
      match words with
      | [] => .error .usage
      | value :: others =>
        if classify flags value = .plain then
          readWords flags misplaced ((name, valueOf value) :: found) others
        else .error .usage

/-- The flag of a setting. -/
def flagOf (name : String) : Text :=
  "--".toList ++ lower name.toList

/-- The values that a command line gives for the settings of the given names, the latest one of a
flag first. -/
def read (names : List String) (words : List String) : Except Refusal (List (Text × Value)) :=
  readWords (names.map flagOf) false [] (words.map String.toList)

end CommandLine

end MathScribe

/-
Files of settings.

A settings file has a line for every setting: a name, an equals sign and a value, with an optional
word `export` in front. A value may stand in single or double quotes, which may reach over several
lines; in double quotes the usual escapes stand for control characters. Without quotes a value ends
at the end of its line, or where white space and a number sign begin a comment. A line that cannot be
read is passed over. A byte order mark in front of the first line is no part of it.

A value may refer to another setting, `$` and braces around its name, with an optional default behind
`:-`. Settings further up in the file are looked up first, then the environment.
-/
import MathScribe.Text.Chop
import MathScribe.Text.Line

set_option autoImplicit false

namespace MathScribe

namespace EnvFile

/-! ## Reading a line -/

/-- White space inside a line. -/
def isGap (c : Char) : Bool :=
  isBlank c && c ≠ '\n'

/-- The text without the white space in front that does not end the line. -/
def dropGap (text : Text) : Text :=
  text.dropWhile isGap

/-- The text behind the current line. -/
def dropLine (text : Text) : Text :=
  (text.dropWhile (· ≠ '\n')).drop 1

/-- The text without the word `export` and the gap behind it. -/
def dropExport (text : Text) : Text :=
  match dropStart? "export".toList text with
  | some rest => if (rest.head?.map isGap).getD false then dropGap rest else text
  | none => text

/-- The front of a quoted value, up to the closing quote, and the text behind that quote. A quote
behind a backslash does not close the value, unless no other quote does. -/
def closeQuote (quote : Char) : Text → Option (Text × Text)
  | [] => none
  | c :: rest =>
    if c = quote then some ([], rest)
    else
      match c, rest with
      | '\\', next :: others =>
        if next = quote then
          match closeQuote quote others with
          | some (value, left) => some (c :: next :: value, left)
          | none => some ([c], others)
        else (closeQuote quote (next :: others)).map fun (value, left) => (c :: value, left)
      | _, rest => (closeQuote quote rest).map fun (value, left) => (c :: value, left)
  termination_by text => text.length

/-- The character that a backslash and a letter stand for in double quotes. -/
def doubleEscape? : Char → Option Char
  | '\\' => some '\\'
  | '\'' => some '\''
  | '"' => some '"'
  | 'a' => some '\x07'
  | 'b' => some '\x08'
  | 'f' => some '\x0c'
  | 'n' => some '\n'
  | 'r' => some '\r'
  | 't' => some '\t'
  | 'v' => some '\x0b'
  | _ => none

/-- The character that a backslash and a letter stand for in single quotes. -/
def singleEscape? : Char → Option Char
  | '\\' => some '\\'
  | '\'' => some '\''
  | _ => none

/-- Write the character for each escape. -/
def unescape (escape? : Char → Option Char) (value : Text) : Text :=
  chop (fun c rest =>
    match c, rest with
    | '\\', letter :: _ =>
      match escape? letter with
      | some character => (character, 1)
      | none => (c, 0)
    | _, _ => (c, 0)) 0 value

/-- The front of a line up to a comment: white space with a number sign behind it. -/
def cutComment : Text → Text
  | [] => []
  | c :: rest =>
    if isBlank c && (trimStart rest).head? = some '#' then [] else c :: cutComment rest

/-- The value behind an equals sign, and the text behind the value. None when a quote is not closed.
Without quotes the white space behind the equals sign may already begin a comment. -/
def readValue? (text : Text) : Option (Text × Text) :=
  match dropGap text with
  | '\'' :: rest =>
    (closeQuote '\'' rest).map fun (value, left) => (unescape singleEscape? value, left)
  | '"' :: rest =>
    (closeQuote '"' rest).map fun (value, left) => (unescape doubleEscape? value, left)
  | _ =>
    let line := text.takeWhile (· ≠ '\n')
    some (trim (cutComment line), text.drop line.length)

/-- A name and the text behind it; no name at all in front of a comment. None when neither stands
here. -/
def readName? : Text → Option (Option Text × Text)
  | '#' :: rest => some (none, '#' :: rest)
  | '\'' :: rest =>
    let name := rest.takeWhile (· ≠ '\'')
    match name, rest.drop name.length with
    | _ :: _, _ :: left => some (some name, left)
    | _, _ => none
  | text =>
    let name := text.takeWhile fun c => c ≠ '=' && c ≠ '#' && !isBlank c
    if name.isEmpty then none else some (some name, text.drop name.length)

/-- A value behind an equals sign, if there is one, and the text behind it. None when the value
cannot be read, with the text where it fails. -/
def readBinding (text : Text) : Except Text (Option Text × Text) :=
  match text with
  | '=' :: rest =>
    match readValue? rest with
    | some (value, left) => .ok (some value, left)
    | none => .error rest
  | _ => .ok (none, text)

/-- The text behind the end of a line, with nothing but a comment in front of that end. -/
def endLine? (text : Text) : Option Text :=
  let rest :=
    match dropGap text with
    | '#' :: comment => comment.dropWhile (· ≠ '\n')
    | rest => rest
  match rest with
  | [] => some []
  | '\n' :: left => some left
  | _ => none

/-- The setting at the front of a text, if a line that can be read stands there, and the text behind
the line. -/
def readLine (text : Text) : Option (Text × Option Text) × Text :=
  let start := dropExport (trimStart text)
  match readName? start with
  | none => (none, dropLine start)
  | some (name?, behindName) =>
    match readBinding (dropGap behindName) with
    | .error left => (none, dropLine left)
    | .ok (value?, behindValue) =>
      match endLine? behindValue with
      | some left => (name?.map (·, value?), left)
      | none => (none, dropLine behindValue)

/-- The settings of a file, line by line; a name without an equals sign has no value. -/
def bindings (text : Text) : List (Text × Option Text) :=
  (chop (fun c rest =>
    let (found, left) := readLine (c :: rest)
    (found, rest.length - left.length)) 0 text).filterMap id

/-- The contents of a file without the byte order mark at their front. Only one is taken off, and none
that stands further behind. -/
def dropOrderMark : Text → Text
  | '\uFEFF' :: rest => rest
  | rest => rest

/-! ## References -/

/-- A reference at the front of a text: the name, the default, and the text behind it. -/
def readReference? (text : Text) : Option (Text × Text × Text) :=
  match dropStart? ['$', '{'] text with
  | none => none
  | some rest =>
    let name := rest.takeWhile fun c => c ≠ '}' && c ≠ ':'
    match rest.drop name.length with
    | '}' :: left => some (name, [], left)
    | ':' :: '-' :: more =>
      let default := more.takeWhile (· ≠ '}')
      match more.drop default.length with
      | _ :: left => some (name, default, left)
      | [] => none
    | _ => none

/-- Put the value of every setting that a text refers to in its place. A setting without a value
counts as empty. -/
def expand (lookUp : Text → Option (Option Text)) (value : Text) : Text :=
  (chop (fun c rest =>
    match readReference? (c :: rest) with
    | some (name, default, left) =>
      (match lookUp name with
        | some found => found.getD []
        | none => default,
       rest.length - left.length)
    | none => ([c], 0)) 0 value).flatten

/-- Give a name its value, in the place where the name stands first. -/
def assign {α : Type} (name : String) (value : α) : List (String × α) → List (String × α)
  | [] => [(name, value)]
  | (other, old) :: others =>
    if other = name then (name, value) :: others else (other, old) :: assign name value others

/-- The settings of a file, with references put in place from the settings above and from the
environment. -/
def resolve (environment : List (String × String)) (found : List (Text × Option Text)) :
    List (String × Option String) :=
  found.foldl
    (fun settings (name, value) =>
      let lookUp (reference : Text) : Option (Option Text) :=
        let key := String.ofList reference
        ((settings.lookup key).or ((environment.lookup key).map some)).map
          (Option.map String.toList)
      assign (String.ofList name) (value.map fun text => String.ofList (expand lookUp text))
        settings)
    []

/-- The settings that the contents of a file give. -/
def read (environment : List (String × String)) (contents : String) :
    List (String × Option String) :=
  resolve environment (bindings (unifyBreaks false (dropOrderMark contents.toList)))

end EnvFile

end MathScribe

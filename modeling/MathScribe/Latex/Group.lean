/-
Balanced groups.

A group of LaTeX source is a pair of delimiters with balanced text between them. A backslash hides
the character behind it, so an escaped delimiter neither opens nor closes anything. `readGroup`
reads the group at the front of a text and gives its inside and what is left behind it.

Only delimiters of the group's own kind are counted, so a bracket inside braces is an ordinary
character.
-/
import MathScribe.Text.Blank

set_option autoImplicit false

namespace MathScribe.Latex

/-- Read on inside a group up to the closer that ends it, which is the loop of `read_group`. The
number counts the groups of the same delimiters that have been opened inside and are not closed yet.
-/
def readInside (opener closer : Char) : Nat → Text → Option (Text × Text)
  | _, [] => none
  | _, ['\\'] => none
  | inner, '\\' :: hidden :: rest =>
    (readInside opener closer inner rest).map fun (inside, left) =>
      ('\\' :: hidden :: inside, left)
  | inner, c :: rest =>
    if c = opener then
      (readInside opener closer (inner + 1) rest).map fun (inside, left) => (c :: inside, left)
    else if c = closer then
      match inner with
      | 0 => some ([], rest)
      | inner + 1 =>
        (readInside opener closer inner rest).map fun (inside, left) => (c :: inside, left)
    else
      (readInside opener closer inner rest).map fun (inside, left) => (c :: inside, left)

/-- Read the balanced group at the front of a text (`read_group`): its inside, and what is left
behind its closer. There is none when the text does not start with the opener, or the group is never
closed. A backslash opens nothing, as it hides what follows it. -/
def readGroup (opener closer : Char) : Text → Option (Text × Text)
  | [] => none
  | c :: rest => if c = opener ∧ c ≠ '\\' then readInside opener closer 0 rest else none

/-- Read the brace group at the front of a text. -/
def readBraces : Text → Option (Text × Text) :=
  readGroup '{' '}'

/-- Read the bracket group at the front of a text. -/
def readBrackets : Text → Option (Text × Text) :=
  readGroup '[' ']'

end MathScribe.Latex

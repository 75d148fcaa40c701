/-
The normal form of a formula.

LaTeX source is brought into the linear notation that the expression reader understands: sizing
commands are dropped, spacing commands become one space, macros become words and symbols, and groups
become parentheses. The inside of a group has its own normal form, down to a fixed depth; what lies
deeper is left as it is written.
-/
import MathScribe.Latex.Piece

set_option autoImplicit false

namespace MathScribe.Latex

/-- A text that goes on with a letter, which would lengthen the macro name in front of it. -/
def startsWithLetter : Text → Bool
  | [] => false
  | c :: _ => c.isAlpha

/-- What is left behind the macro of the given name at the front of a text. -/
def dropMacro? (name text : Text) : Option Text :=
  match dropStart? ('\\' :: name) text with
  | some left => if startsWithLetter left then none else some left
  | none => none

/-- What is left behind a command that only sets the size of a delimiter. -/
def findSizing (text : Text) : Option Text :=
  (dropMacro? "left".toList text).or (dropMacro? "right".toList text)

/-- What is left behind a command that only makes room. -/
def dropSpacing? (text : Text) : Option Text :=
  match text with
  | '\\' :: c :: left =>
    if c = ',' ∨ c = ';' ∨ c = ':' ∨ c = '!' then some left
    else (dropMacro? "quad".toList text).or (dropMacro? "qquad".toList text)
  | _ => none

/-- What is left behind a spacing command with the spaces and tabs around it. -/
def findSpacing (text : Text) : Option Text :=
  (dropSpacing? (text.dropWhile isPad)).map (·.dropWhile isPad)

/-- What is left behind an arrow with the white space around it. -/
def findArrow (text : Text) : Option Text :=
  (dropStart? "->".toList (text.dropWhile isBlank)).map (·.dropWhile isBlank)

/-- Write an arrow without the white space around it. -/
def tightenArrows : Text → Text :=
  replaceAll findArrow "->".toList

/-- A text in parentheses. -/
def parenthesized (text : Text) : Text :=
  '(' :: text ++ [')']

/-- The normal form of a piece, where `inner` gives the normal form of the texts inside it. -/
def Piece.normal (inner : Text → Text) : Piece → Text
  | plain c => [c]
  | escaped c => ['\\', c]
  | group inside => parenthesized (inner inside)
  | word text => text
  | fraction numerator denominator =>
    parenthesized (inner numerator) ++ '/' :: parenthesized (inner denominator)
  | squareRoot radicand => rootMacro ++ parenthesized (inner radicand)
  | root index radicand =>
    "root".toList ++ parenthesized (inner index) ++ parenthesized (inner radicand)
  | bigOperator name scripts =>
    name ++ (match scripts.lower with | some lower => '_' :: inner lower | none => [])
      ++ (match scripts.upper with | some upper => '^' :: inner upper | none => [])
  | limit approach =>
    limitMacro ++ '_' :: parenthesized (trim (tightenArrows (inner approach)))
  | styled inside => inner inside
  | verbatim source => source

/-- The normal form of a text, piece by piece (`_rewrite_macros`). Groups are entered only so many
levels deep. -/
def normalTo : Nat → Text → Text
  | 0, text => text
  | levels + 1, text => (pieces text).flatMap (Piece.normal (normalTo levels))

/-- The number of levels that have a normal form: the formula itself and sixty-four of groups. -/
def maxLevels : Nat := 65

/-- The normal form of a formula (`normalize`): sizing commands, then spacing commands, then macros.
-/
def normalize (text : Text) : Text :=
  normalTo maxLevels (replaceAll findSpacing [' '] (replaceAll findSizing [] text))

end MathScribe.Latex

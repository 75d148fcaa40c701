/-
Line breaks.

A text from a file may end its lines with a line feed, a carriage return, or both. Inside the program
a line feed ends every line.
-/
import MathScribe.Text.Blank

set_option autoImplicit false

namespace MathScribe

/-- Write every line break as a line feed. The flag tells whether a carriage return has just been
passed, whose line feed is then part of the same break. -/
def unifyBreaks (afterReturn : Bool) : Text → Text
  | [] => []
  | c :: rest =>
    if c = '\r' then '\n' :: unifyBreaks true rest
    else if c = '\n' && afterReturn then unifyBreaks false rest
    else c :: unifyBreaks false rest

/-- The contents of a file with a line feed at every line break. -/
def unifyLines (contents : String) : String :=
  String.ofList (unifyBreaks false contents.toList)

end MathScribe

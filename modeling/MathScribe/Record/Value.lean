/-
Values from outside.

What a database returns and what settings are given is only known to be one of a few kinds of value.
A record is a row of named values; its names are unique.
-/
import MathScribe.Number.Binary64

set_option autoImplicit false

namespace MathScribe

/-- A value of a record. -/
inductive Value
  | null
  | bool (b : Bool)
  | int (n : Int)
  | real (x : Binary64)
  | text (s : String)
  | list (items : List Value)
  | map (fields : List (String × Value))
  deriving Inhabited, Repr

/-- Named values. -/
abbrev Fields := List (String × Value)

namespace Value

/-- A value that says nothing: null, false, zero, or empty. -/
def isVoid : Value → Bool
  | null => true
  | bool b => !b
  | int n => n = 0
  | real x => x.isZero
  | text s => s.isEmpty
  | list items => items.isEmpty
  | map fields => fields.isEmpty

/-- The value of a name, with another value in the place of a missing or void one. -/
def getOr (fields : Fields) (name : String) (default : Value) : Value :=
  match fields.lookup name with
  | some value => if value.isVoid then default else value
  | none => default

end Value

end MathScribe

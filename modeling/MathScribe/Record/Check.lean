/-
Checking values.

A record is checked field by field, and all faults are reported together, in the order in which the
fields are declared. `Checked` is a result that collects faults instead of stopping at the first; the
readers below say which values a field of each kind takes. They are lenient: a number may be given as
text, and a truth value as a word or as a number.
-/
import MathScribe.Number.Numeral
import MathScribe.Record.Value

set_option autoImplicit false

namespace MathScribe

/-- What can be wrong with a field. -/
inductive Fault
  /-- The field is required and not given. -/
  | missing
  /-- There is no field of that name. -/
  | unknown
  | notString
  | notInteger
  /-- A text that does not spell a whole number. -/
  | integerText
  /-- A text or a real number that stands for a whole number of too great a size. -/
  | integerSize
  /-- A number with a fraction in the place of a whole one. -/
  | fraction
  /-- Infinity or no number in the place of a whole one. -/
  | notFinite
  | notReal
  /-- A text that does not spell a number. -/
  | realText
  | notBool
  /-- A word or number that does not stand for a truth value. -/
  | boolText
  | notList
  | notPath
  /-- A rule about the record as a whole is broken. -/
  | rule (reason : String)
  deriving DecidableEq, Repr

namespace Fault

/-- The fault in words. -/
def message : Fault → String
  | missing => "Field required"
  | unknown => "Extra inputs are not permitted"
  | notString => "Input should be a valid string"
  | notInteger => "Input should be a valid integer"
  | integerText => "Input should be a valid integer, unable to parse string as an integer"
  | integerSize => "Unable to parse input string as an integer, exceeded maximum size"
  | fraction => "Input should be a valid integer, got a number with a fractional part"
  | notFinite => "Input should be a finite number"
  | notReal => "Input should be a valid number"
  | realText => "Input should be a valid number, unable to parse string as a number"
  | notBool => "Input should be a valid boolean"
  | boolText => "Input should be a valid boolean, unable to interpret input"
  | notList => "Input should be a valid list"
  | notPath => "Input is not a valid path for <class 'pathlib.Path'>"
  | rule reason => "Value error, " ++ reason

end Fault

/-- A step on the way to the place of a fault. -/
inductive Place
  | field (name : String)
  | index (n : Nat)
  deriving DecidableEq, Repr

/-- A fault at its place. -/
structure FieldError where
  place : List Place
  fault : Fault
  deriving DecidableEq, Repr

/-- A checked value, or all faults that were found on the way to it. -/
inductive Checked (α : Type)
  | ok (value : α)
  | faulty (errors : List FieldError)
  deriving Repr

namespace Checked

/-- Change the value. -/
def map {α β : Type} (f : α → β) : Checked α → Checked β
  | ok a => ok (f a)
  | faulty errors => faulty errors

/-- Apply a checked function to a checked value; the faults of both are kept, the function's
first. -/
def ap {α β : Type} (f : Checked (α → β)) (x : Checked α) : Checked β :=
  match f, x with
  | ok f, ok a => ok (f a)
  | ok _, faulty errors => faulty errors
  | faulty errors, ok _ => faulty errors
  | faulty first, faulty second => faulty (first ++ second)

instance : Functor Checked where
  map := map

instance : Pure Checked where
  pure := ok

instance : Seq Checked where
  seq f x := ap f (x ())

/-- Put the faults below one more step. -/
def below {α : Type} (step : Place) : Checked α → Checked α
  | ok a => ok a
  | faulty errors => faulty (errors.map fun e => { e with place := step :: e.place })

/-- A value as it was read, or the fault of the whole of it. -/
def ofExcept {α : Type} : Except Fault α → Checked α
  | .ok a => ok a
  | .error fault => faulty [⟨[], fault⟩]

/-- Check the items of a row one by one, each at its index. -/
def each {α : Type} (check : Value → Checked α) (start : Nat) : List Value → Checked (List α)
  | [] => ok []
  | item :: items => ap (map List.cons ((check item).below (.index start))) (each check (start + 1) items)

/-- Where a fault is reported does not decide whether there is one. -/
theorem below_faulty_iff {α : Type} (step : Place) (checked : Checked α) :
    (∃ errors, checked.below step = .faulty errors) ↔ ∃ errors, checked = .faulty errors := by
  cases checked <;> simp [below]

/-- A row is faulty when one of its items is. -/
theorem each_faulty_iff {α : Type} {check : Value → Checked α} (items : List Value) (start : Nat) :
    (∃ errors, each check start items = .faulty errors) ↔ ∃ item ∈ items, ∃ errors, check item = .faulty errors := by
  induction items generalizing start with
  | nil => simp [each]
  | cons item items ih =>
    have ihnext := ih (start + 1)
    rw [each]
    cases hitem : check item <;> cases hrest : each check (start + 1) items <;>
      simp_all [below, map, ap]

end Checked

namespace Value

/-- A text. -/
def toText : Value → Except Fault String
  | text s => .ok s
  | _ => .error .notString

/-- A text or null. -/
def toOptionalText : Value → Except Fault (Option String)
  | null => .ok none
  | value => value.toText.map some

/-- Real numbers are taken for whole numbers, and whole numbers for truth values, only up to this
size. -/
def sizeBound : Int := Int.pow 2 63

/-- The whole number that a real number stands for. -/
def wholeOfReal (x : Binary64) : Except Fault Int :=
  if x.isFinite then
    match x.toInt? with
    | some n => if -sizeBound < n ∧ n < sizeBound then .ok n else .error .integerSize
    | none => .error .fraction
  else .error .notFinite

/-- A whole number, which may be given as a truth value, a real number or a text. -/
def toInteger : Value → Except Fault Int
  | int n => .ok n
  | bool b => .ok (if b then 1 else 0)
  | real x => wholeOfReal x
  | text s =>
    match readWhole s.toList with
    | .number n => .ok n
    | .tooLong => .error .integerSize
    | .malformed => .error .integerText
  | _ => .error .notInteger

/-- The real number nearest to a whole number, when that is finite. -/
def realOfInt (n : Int) : Except Fault Binary64 :=
  let x := Binary64.ofInt n
  if x.isFinite then .ok x else .error .notReal

/-- A real number, which may be given as a truth value, a whole number or a text. -/
def toReal : Value → Except Fault Binary64
  | real x => .ok x
  | int n => realOfInt n
  | bool b => realOfInt (if b then 1 else 0)
  | text s =>
    match readReal? s.toList with
    | some x => .ok x
    | none => .error .realText
  | _ => .error .notReal

/-- The words for true and for false. -/
def boolOfWord? (word : String) : Option Bool :=
  if word ∈ ["true", "1", "yes", "on", "y", "t"] then some true
  else if word ∈ ["false", "0", "no", "off", "n", "f"] then some false
  else none

/-- The truth value of a whole number. -/
def boolOfInt (n : Int) : Except Fault Bool :=
  if n = 0 then .ok false else if n = 1 then .ok true else .error .boolText

/-- A truth value, which may be given as a word of either case or as zero or one. -/
def toBool : Value → Except Fault Bool
  | bool b => .ok b
  | text s =>
    match boolOfWord? (String.ofList (s.toList.map Char.toLower)) with
    | some b => .ok b
    | none => .error .boolText
  | int n => if -sizeBound ≤ n ∧ n < sizeBound then boolOfInt n else .error .notBool
  | real x =>
    match wholeOfReal x with
    | .ok n => boolOfInt n
    | .error _ => .error .notBool
  | _ => .error .notBool

/-- A row of real numbers. -/
def toReals : Value → Checked (List Binary64)
  | list items => Checked.each (fun item => .ofExcept item.toReal) 0 items
  | _ => .faulty [⟨[], .notList⟩]

end Value

/-- The check of a field of a record, with a default for a field that is not given. -/
def checkField {α : Type} (fields : Fields) (name : String) (default : Option α)
    (check : Value → Checked α) : Checked α :=
  (match fields.lookup name with
    | some value => check value
    | none =>
      match default with
      | some a => .ok a
      | none => .faulty [⟨[], .missing⟩]).below (.field name)

end MathScribe

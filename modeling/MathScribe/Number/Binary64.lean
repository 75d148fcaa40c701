/-
Binary floating point.

A real number that comes from outside is kept as the nearest number with a 53-bit significand, held
exactly as a significand and a power of two. Rounding is done in whole numbers: a quotient goes to
the nearer neighbour, and a tie to the even one. The same rounding writes such a number with a fixed
count of decimal places. Powers are written with `Nat.pow`, which means the same whatever instances
are in scope.
-/
set_option autoImplicit false

namespace MathScribe

/-- A binary floating-point number. -/
inductive Binary64
  /-- The number `significand * 2 ^ exponent`, with its sign. -/
  | finite (negative : Bool) (significand : Nat) (exponent : Int)
  /-- Beyond the greatest finite number. -/
  | infinite (negative : Bool)
  /-- No number at all. -/
  | nan
  deriving DecidableEq, Repr

/-- The quotient of two whole numbers, rounded to the nearest one and from a tie to the even one. -/
def roundedQuotient (numerator denominator : Nat) : Nat :=
  let quotient := numerator / denominator
  let double := 2 * (numerator % denominator)
  if double > denominator ∨ (double = denominator ∧ quotient % 2 = 1) then quotient + 1
  else quotient

namespace Binary64

/-- The number of bits of a significand. -/
def precision : Nat := 53

/-- The exponent of the smallest numbers. -/
def minExponent : Int := -1074

/-- The exponent of the greatest numbers. -/
def maxExponent : Int := 971

/-- Zero. -/
def zero : Binary64 :=
  finite false 0 minExponent

/-- The quotient `numerator * 2 ^ -exponent / denominator` as a fraction of whole numbers. -/
def scaled (numerator denominator : Nat) (exponent : Int) : Nat × Nat :=
  if 0 ≤ exponent then (numerator, denominator * Nat.pow 2 exponent.toNat)
  else (numerator * Nat.pow 2 (-exponent).toNat, denominator)

/-- The number nearest to a quotient of whole numbers. The exponent is the least one whose
significand fits. -/
def ofQuotient (negative : Bool) (numerator denominator : Nat) : Binary64 :=
  if numerator = 0 then finite negative 0 minExponent
  else
    let guess : Int := max minExponent (numerator.log2 - denominator.log2 - precision : Int)
    let (n, d) := scaled numerator denominator guess
    let exponent :=
      if n / d < Nat.pow 2 precision then guess
      else if n / d < Nat.pow 2 (precision + 1) then guess + 1 else guess + 2
    let (n, d) := scaled numerator denominator exponent
    let significand := roundedQuotient n d
    let (significand, exponent) :=
      if significand = Nat.pow 2 precision then (Nat.pow 2 (precision - 1), exponent + 1)
      else (significand, exponent)
    if maxExponent < exponent then infinite negative else finite negative significand exponent

/-- The number of decimal digits of a whole number. -/
def digitCount (n : Nat) : Nat :=
  (Nat.toDigits 10 n).length

/-- The number nearest to `mantissa * 10 ^ exponent`. Far out of range the answer is known without
computing the power. -/
def ofDecimal (negative : Bool) (mantissa : Nat) (exponent : Int) : Binary64 :=
  let magnitude := exponent + digitCount mantissa
  if mantissa = 0 ∨ magnitude < -400 then finite negative 0 minExponent
  else if 400 < magnitude then infinite negative
  else if 0 ≤ exponent then ofQuotient negative (mantissa * Nat.pow 10 exponent.toNat) 1
  else ofQuotient negative mantissa (Nat.pow 10 (-exponent).toNat)

/-- The number nearest to a whole number. -/
def ofInt (n : Int) : Binary64 :=
  ofDecimal (n < 0) n.natAbs 0

/-- Zero of either sign. -/
def isZero : Binary64 → Bool
  | finite _ significand _ => significand = 0
  | _ => false

/-- The whole number that a number is, when it is one. -/
def toInt? : Binary64 → Option Int
  | finite negative significand exponent =>
    let (n, d) := scaled significand 1 (-exponent)
    if n % d = 0 then some (if negative then -(n / d : Nat) else (n / d : Nat)) else none
  | _ => none

/-- Whether a number is finite. -/
def isFinite : Binary64 → Bool
  | finite .. => true
  | _ => false

/-- A whole number with at least so many digits. -/
def padded (width n : Nat) : List Char :=
  let digits := Nat.toDigits 10 n
  List.replicate (width - digits.length) '0' ++ digits

/-- The number with the given count of decimal places. -/
def toFixed (places : Nat) : Binary64 → String
  | finite negative significand exponent =>
    let (n, d) := scaled (significand * Nat.pow 10 places) 1 (-exponent)
    let digits := padded (places + 1) (roundedQuotient n d)
    let whole := digits.take (digits.length - places)
    let fraction := digits.drop (digits.length - places)
    String.ofList ((if negative then ['-'] else []) ++ whole ++
      (if places = 0 then [] else '.' :: fraction))
  | infinite negative => if negative then "-inf" else "inf"
  | nan => "nan"

end Binary64

end MathScribe

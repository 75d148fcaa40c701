/-
Numbers from text.

Numbers in settings and records may be written as text. A whole number may have white space around
it, a sign, leading zeros, single underscores between its digits and a fraction of zeros; it is
brought into its plain form first, and there is a limit to the length of that form. A real number
may have a fraction and an exponent, or be the word for infinity or for no number.
-/
import MathScribe.Number.Binary64
import MathScribe.Text.Blank

set_option autoImplicit false

namespace MathScribe

/-- White space around a numeral: any but the information separators. -/
def isNumeralBlank (c : Char) : Bool :=
  isBlank c && !(28 ≤ c.toNat && c.toNat ≤ 31)

/-- A numeral without the white space around it. -/
def trimNumeral (text : Text) : Text :=
  ((text.dropWhile isNumeralBlank).reverse.dropWhile isNumeralBlank).reverse

/-- The value of a row of ASCII digits. -/
def digitsValue (digits : Text) : Nat :=
  digits.foldl (fun value c => 10 * value + (c.toNat - '0'.toNat)) 0

/-- A row of at least one ASCII digit. -/
def isDigits (text : Text) : Bool :=
  !text.isEmpty && text.all Char.isDigit

/-- Underscores stand only one at a time and between other characters. -/
def hasTidyUnderscores (text : Text) : Bool :=
  text.head? != some '_' && text.getLast? != some '_'
    && (text.zip text.tail).all fun (a, b) => !(a == '_' && b == '_')

/-- The text without its underscores, when it has any and they are tidy. -/
def dropUnderscores? (text : Text) : Option Text :=
  if text.contains '_' && hasTidyUnderscores text then some (text.filter (· != '_')) else none

/-! ## Whole numbers -/

/-- What a text says where a whole number is wanted. -/
inductive WholeNumber
  | number (n : Int)
  /-- A number of more characters than are read. -/
  | tooLong
  /-- No whole number. -/
  | malformed
  deriving DecidableEq, Repr

/-- The number of characters that a whole number may have, its minus sign among them. -/
def maxWholeLength : Nat := 4300

/-- A minus sign in front of a text, and the rest of it. -/
def splitMinus : Text → Text × Text
  | '-' :: rest => (['-'], rest)
  | rest => ([], rest)

/-- Read a whole number in its plain form: an optional minus sign and digits, of which the first is
zero only when it is the only one. A number that is too long is found out before what follows it. -/
def readPlainWhole (text : Text) : WholeNumber :=
  let (sign, rest) := splitMinus text
  let digits := rest.takeWhile Char.isDigit
  if digits.isEmpty then .malformed
  else if digits.head? = some '0' then if rest = ['0'] then .number 0 else .malformed
  else if maxWholeLength < sign.length + digits.length then .tooLong
  else if digits.length < rest.length then .malformed
  else .number (if sign.isEmpty then digitsValue digits else -(digitsValue digits : Int))

/-- What follows a leading zero, without more zeros and the underscores among them. The character
passed last stays when a fraction or nothing follows. None when the text does not go on like a
number. -/
def dropZeros? (last : Char) : Text → Option Text
  | [] => some [last]
  | c :: rest =>
    if c = '0' ∨ c = '_' then dropZeros? c rest
    else if c = '.' then some (last :: c :: rest)
    else if c.isDigit ∨ c = '-' then some (c :: rest)
    else none

/-- The text without leading zeros. None when it does not begin like a number. -/
def dropLeadingZeros? : Text → Option Text
  | [] => none
  | c :: rest =>
    if c = '0' then dropZeros? c rest
    else if c.isDigit ∨ c = '-' then some (c :: rest)
    else none

/-- The text without a fraction that consists of zeros, of which there must be one. -/
def dropZeroFraction (text : Text) : Text :=
  let whole := text.takeWhile (· != '.')
  let fraction := text.drop (whole.length + 1)
  if !fraction.isEmpty && fraction.all (· == '0') then whole else text

/-- The text without a plus sign; none when a minus sign follows that. -/
def dropPlus? : Text → Option Text
  | '+' :: rest => if rest.head? = some '-' then none else some rest
  | rest => some rest

/-- The plain form of a whole number: without white space around it, plus sign, leading zeros,
fraction and underscores. None when the text does not begin like a number. -/
def plainWhole? (text : Text) : Option Text := do
  let (sign, rest) := splitMinus (← dropPlus? (trimNumeral text))
  let whole := dropZeroFraction (← dropLeadingZeros? rest)
  pure (sign ++ (dropUnderscores? whole).getD whole)

/-- Read a whole number. -/
def readWhole (text : Text) : WholeNumber :=
  match plainWhole? text with
  | some plain => readPlainWhole plain
  | none => .malformed

/-! ## Real numbers -/

/-- An exponent at the end of a numeral; nothing at all counts as zero. -/
def readExponent? : Text → Option Int
  | [] => some 0
  | e :: rest =>
    if e = 'e' ∨ e = 'E' then
      let (negative, digits) :=
        match rest with
        | '-' :: digits => (true, digits)
        | '+' :: digits => (false, digits)
        | digits => (false, digits)
      if isDigits digits then
        some (if negative then -(digitsValue digits : Int) else digitsValue digits)
      else none
    else none

/-- A real number without its sign: a word, or digits with an optional point among them and an
optional exponent. -/
def readUnsigned? (negative : Bool) (text : Text) : Option Binary64 :=
  let lower := String.ofList (text.map Char.toLower)
  if lower = "inf" ∨ lower = "infinity" then some (.infinite negative)
  else if lower = "nan" then some .nan
  else
    let whole := text.takeWhile Char.isDigit
    let rest := text.drop whole.length
    let (fraction, rest) :=
      match rest with
      | '.' :: more => (more.takeWhile Char.isDigit, more.dropWhile Char.isDigit)
      | _ => ([], rest)
    let digits := whole ++ fraction
    if digits.isEmpty then none
    else
      (readExponent? rest).map fun exponent =>
        .ofDecimal negative (digitsValue digits) (exponent - fraction.length)

/-- A real number with an optional sign. -/
def readSigned? : Text → Option Binary64
  | '-' :: rest => readUnsigned? true rest
  | '+' :: rest => readUnsigned? false rest
  | rest => readUnsigned? false rest

/-- Read a real number. -/
def readReal? (text : Text) : Option Binary64 :=
  (readSigned? (trimNumeral text)).or ((dropUnderscores? text).bind readSigned?)

end MathScribe

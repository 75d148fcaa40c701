/-
White space.

A text is a list of characters, and every position in it counts characters. This file says which
characters are white space and trims it off both ends of a text. The class is wider than the one
of `Char.isWhitespace`: it has every character that Unicode counts as a space, a line break or a
paragraph break, and the four information separators. The zero-width characters are not in it.
-/
set_option autoImplicit false

namespace MathScribe

/-- A text, one character after another. -/
abbrev Text := List Char

/-- Texts are compared character by character. -/
instance : LawfulBEq Text :=
  inferInstance

/-- White space: the controls from tab to carriage return, the information separators, the space,
the next-line control, the no-break space and the other spaces and breaks of Unicode. -/
def isBlank (c : Char) : Bool :=
  let n := c.toNat
  (9 ≤ n && n ≤ 13) || (28 ≤ n && n ≤ 32) || n == 0x85 || n == 0xa0 || n == 0x1680
    || (0x2000 ≤ n && n ≤ 0x200a) || n == 0x2028 || n == 0x2029 || n == 0x202f || n == 0x205f
    || n == 0x3000

/-- The text without the white space at its front. -/
def trimStart (text : Text) : Text :=
  text.dropWhile isBlank

/-- The text without the white space at its back. -/
def trimEnd (text : Text) : Text :=
  (text.reverse.dropWhile isBlank).reverse

/-- The text without the white space at either end. -/
def trim (text : Text) : Text :=
  trimEnd (trimStart text)

/-- A text of white space alone, the empty text included. -/
def isBlankText (text : Text) : Bool :=
  text.all isBlank

end MathScribe

/-
Texts on the console.

Before a text is shown, pictures take the place of their codes. Control characters that move the
cursor are left out, and a tab reaches up to the next column that is a multiple of eight. Columns are
counted in cells: a wide character takes two of them, and a mark that is set on another character
takes none.
-/
import MathScribe.Command.Picture

set_option autoImplicit false

namespace MathScribe

namespace Console

/-! ## Control characters -/

/-- The control characters that are left out: bell, backspace, vertical tab, form feed and carriage
return. -/
def isDropped (c : Char) : Bool :=
  c.toNat ∈ [7, 8, 11, 12, 13]

/-- The characters that take two cells: ideographs, syllables, full-width forms and pictures. -/
def isWide (c : Char) : Bool :=
  let n := c.toNat
  (0x1100 ≤ n && n ≤ 0x115f) || (0x2e80 ≤ n && n ≤ 0x303e) || (0x3041 ≤ n && n ≤ 0xa4cf)
    || (0xac00 ≤ n && n ≤ 0xd7a3) || (0xf900 ≤ n && n ≤ 0xfaff) || (0xfe30 ≤ n && n ≤ 0xfe6f)
    || (0xff01 ≤ n && n ≤ 0xff60) || (0xffe0 ≤ n && n ≤ 0xffe6) || (0x1f300 ≤ n && n ≤ 0x1f64f)
    || (0x1f900 ≤ n && n ≤ 0x1f9ff) || (0x20000 ≤ n && n ≤ 0x3fffd)
    || n ∈ [0x26a1, 0x2b50, 0x2b55, 0x274c, 0x2753]

/-- The characters that take no cell: marks on other characters, joiners and presentation marks. -/
def isMark (c : Char) : Bool :=
  let n := c.toNat
  n = 0 || (0x300 ≤ n && n ≤ 0x36f) || (0x483 ≤ n && n ≤ 0x489) || (0x591 ≤ n && n ≤ 0x5bd)
    || (0x64b ≤ n && n ≤ 0x65f) || (0x200b ≤ n && n ≤ 0x200f) || (0x20d0 ≤ n && n ≤ 0x20f0)
    || (0xfe00 ≤ n && n ≤ 0xfe0f)

/-- The number of cells that a character takes. -/
def cellCount (c : Char) : Nat :=
  if isMark c then 0 else if isWide c then 2 else 1

/-- The distance of two tab stops. -/
def tabStop : Nat := 8

/-- Put spaces in the place of tabs. The number is the column that the text starts in. -/
def expandTabs : Nat → Text → Text
  | _, [] => []
  | column, c :: rest =>
    if c = '\n' then c :: expandTabs 0 rest
    else if c = '\t' then
      let width := tabStop - column % tabStop
      List.replicate width ' ' ++ expandTabs (column + width) rest
    else c :: expandTabs (column + cellCount c) rest

/-! ## Lines -/

/-- A text as it is shown. -/
def display (text : String) : String :=
  String.ofList
    (expandTabs 0 ((Picture.showAll text.toList).filter fun c => !isDropped c))

/-- Texts as they are shown one below the other. -/
def lines (texts : List String) : String :=
  String.join (texts.map fun text => display text ++ "\n")

end Console

end MathScribe

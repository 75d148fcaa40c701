/-
Conversion of pages.

A converter goes through a page fragment by fragment. Literal text is copied. A formula is brought
into its normal form, and the rendering of that form is taken from the cache or, when it is not
there, made by reading the normal form as a tree and writing the tree. A formula that cannot be read,
or whose tree is too deep to be written, is left in its normal form and not remembered; so a
conversion always succeeds.
-/
import MathScribe.AsciiMath.Reading
import MathScribe.AsciiMath.Render
import MathScribe.Conversion.Cache
import MathScribe.Fragment
import MathScribe.Latex.Normal

set_option autoImplicit false

namespace MathScribe

/-- The rendering of a normal form: none when it cannot be read, or is too deep to be written. -/
def renderNormal? (normal : Text) : Option Text :=
  match parse normal with
  | .ok tree => tree.render?
  | .error _ => none

/-- A converter with the cache that it uses (`NotationConverter`). -/
structure Converter where
  /-- The renderings that it has met. -/
  cache : Cache
  /-- How often it has read a formula. -/
  parseCount : Nat
  deriving DecidableEq, Repr

namespace Converter

/-- A converter that has done nothing yet. -/
def fresh : Converter :=
  ⟨Cache.empty, 0⟩

/-- Convert one formula without its delimiters (`convert_fragment`). What the cache remembers is not
read again, and what cannot be read stays as it is written. -/
def convertFragment (converter : Converter) (formula : Text) : Text × Converter :=
  let normal := Latex.normalize formula
  match converter.cache.get normal with
  | (some rendering, cache) => (rendering, { converter with cache := cache })
  | (none, cache) =>
    let counted : Converter := ⟨cache, converter.parseCount + 1⟩
    match renderNormal? normal with
    | none => (normal, counted)
    | some rendering => (rendering, { counted with cache := cache.put normal rendering })

/-- Convert the fragments of a page one after another. -/
def convertFragments (converter : Converter) : List Fragment → Text × Converter
  | [] => ([], converter)
  | fragment :: others =>
    let (text, next) :=
      if fragment.isMath then converter.convertFragment fragment.body
      else (fragment.text, converter)
    let (rest, final) := next.convertFragments others
    (text ++ rest, final)

/-- Convert a page (`convert`): every formula becomes ASCIIMath, and all else stays. -/
def convert (converter : Converter) (page : Text) : Text × Converter :=
  converter.convertFragments (Fragment.ofPage page)

end Converter

/-- Convert a page with a converter of its own (`convert_to_target_notation`). -/
def toAsciiMath (page : String) : String :=
  String.ofList (Converter.fresh.convert page.toList).1

end MathScribe

/-
Fragments of a page.

A page of prose and LaTeX is cut into math fragments and the literal text between them. A math
fragment is a delimited region, a command with its arguments and scripts, a spacing command, or a
bare run of letters and digits. The fragments put together are the page again.
-/
import MathScribe.Text.Chop
import MathScribe.Latex.Argument

set_option autoImplicit false

namespace MathScribe

/-- Whether a fragment is mathematics or text that is left alone. -/
inductive FragmentKind
  | math
  | literal
  deriving DecidableEq, Repr

/-- A stretch of a page (`RawFragment`). -/
structure Fragment where
  /-- The characters of the stretch. -/
  text : Text
  /-- Where the stretch starts in the page. -/
  start : Nat
  /-- What the stretch is taken for. -/
  kind : FragmentKind
  deriving DecidableEq, Repr

namespace Fragment

/-- Where the fragment ends: the position behind its last character. -/
def stop (fragment : Fragment) : Nat :=
  fragment.start + fragment.text.length

/-- A fragment of mathematics. -/
def isMath (fragment : Fragment) : Bool :=
  fragment.kind = .math

/-- The mark that closes a region, by the character behind the backslash that opens it. -/
def regionCloser? : Char → Option Char
  | '(' => some ')'
  | '[' => some ']'
  | _ => none

/-- A text that starts like a delimited region. -/
def opensRegion : Text → Bool
  | '\\' :: c :: _ => (regionCloser? c).isSome
  | _ => false

/-- The formula of a fragment (`body`): a delimited region without its delimiters, else the whole
text. -/
def body (fragment : Fragment) : Text :=
  if fragment.isMath && opensRegion fragment.text then
    (fragment.text.drop 2).take (fragment.text.length - 4)
  else fragment.text

/-- The math fragment at the front of a text that starts with `c`, as the number of characters of
`rest` that belong to it (`_match_end`). None when no math fragment starts here; an opened region
that is never closed starts none. -/
def mathReach? (c : Char) (rest : Text) : Option Nat :=
  if c = '\\' then
    match rest with
    | [] => none
    | mark :: inside =>
      match regionCloser? mark with
      | some closer =>
        (splitAt? ['\\', closer] inside).map fun (formula, _) => formula.length + 3
      | none =>
        match Latex.readMacro (c :: rest) with
        | some (name, after) =>
          some (name.length + (Latex.argumentsSource true after).length)
        | none => if mark = ',' ∨ mark = ';' ∨ mark = ':' ∨ mark = '!' then some 1 else none
  else if c.isAlphanum then some (rest.takeWhile Char.isAlphanum).length
  else none

/-- The stretches of a page before neighbouring literal characters are joined. -/
def stretches : Text → List (FragmentKind × Text) :=
  chop (fun c rest =>
    match mathReach? c rest with
    | some reach => ((.math, c :: rest.take reach), reach)
    | none => ((.literal, [c]), 0)) 0

/-- Put a stretch in front, where a literal stretch joins the literal stretch behind it. -/
def join : FragmentKind × Text → List (FragmentKind × Text) → List (FragmentKind × Text)
  | (.literal, text), (.literal, next) :: others => (.literal, text ++ next) :: others
  | stretch, others => stretch :: others

/-- Give every stretch its place, the first one at `start`. -/
def place (start : Nat) : List (FragmentKind × Text) → List Fragment
  | [] => []
  | (kind, text) :: others => ⟨text, start, kind⟩ :: place (start + text.length) others

/-- Cut a page into its fragments (`extract_fragments`). -/
def ofPage (page : Text) : List Fragment :=
  place 0 ((stretches page).foldr join [])

end Fragment

end MathScribe

/-
Paths of files.

A path is written in one way only: without empty steps, without steps that stay where they are, and
without a slash at the end. A step that goes up stays, because what it means depends on the files.
-/
import MathScribe.Text.Blank

set_option autoImplicit false

namespace MathScribe

namespace Path

/-- The steps of a path, the empty ones included. -/
def steps : Text → List Text
  | [] => [[]]
  | c :: rest =>
    if c = '/' then [] :: steps rest
    else
      match steps rest with
      | [] => [[c]]
      | step :: others => (c :: step) :: others

/-- The slashes that a path starts with. One slash stands for the root; exactly two are a root of
their own; more than two are one. -/
def root (path : Text) : Text :=
  match (path.takeWhile (· = '/')).length with
  | 0 => []
  | 2 => ['/', '/']
  | _ => ['/']

/-- The steps that go somewhere. -/
def realSteps (path : Text) : List Text :=
  (steps path).filter fun step => step ≠ [] && step ≠ ['.']

/-- A path in its one written form. The path that goes nowhere is a full stop. -/
def normalize (path : Text) : Text :=
  let normal := root path ++ ['/'].intercalate (realSteps path)
  if normal.isEmpty then ['.'] else normal

end Path

end MathScribe

/-
Reading a text item by item.

Replacing a pattern, splitting a formula into its pieces and cutting a page into fragments are all
one activity: look at the front of the text, decide what stands there and how far it reaches, and
go on behind it. `chop` is that activity. It recurses on the text itself, with a count of the
characters that the last item still covers, so it always ends, whatever the items claim.

The two equations `chop_skip` and `chop_cons` are all that a reader needs of it.
-/
import MathScribe.Text.Blank

set_option autoImplicit false

namespace MathScribe

/-- Read a text item by item. At the front character `c`, with `rest` behind it, `item c rest` is
what stands there and the number of characters of `rest` that belong to it too. The first argument
counts the characters that are passed over because an earlier item covers them. -/
def chop {α : Type} (item : Char → Text → α × Nat) : Nat → Text → List α
  | _, [] => []
  | covered + 1, _ :: rest => chop item covered rest
  | 0, c :: rest =>
    let found := item c rest
    found.1 :: chop item found.2 rest

section Lemmas

variable {α : Type} (item : Char → Text → α × Nat)

@[simp] theorem chop_nil (covered : Nat) : chop item covered [] = [] := by
  cases covered <;> rfl

/-- Covered characters are passed over. -/
theorem chop_skip (covered : Nat) (text : Text) :
    chop item covered text = chop item 0 (text.drop covered) := by
  induction text generalizing covered with
  | nil => simp
  | cons c rest ih =>
    cases covered with
    | zero => rfl
    | succ covered => exact ih covered

/-- The item at the front comes first, and reading goes on behind it. -/
theorem chop_cons (c : Char) (rest : Text) :
    chop item 0 (c :: rest) = (item c rest).1 :: chop item 0 (rest.drop (item c rest).2) := by
  rw [← chop_skip]
  rfl

end Lemmas

/-- Replace everything that `find` finds, from left to right. When the thing looked for stands at
the front of a text, `find` gives what is left behind it. -/
def replaceAll (find : Text → Option Text) (replacement : Text) (text : Text) : Text :=
  (chop (fun c rest =>
    match find (c :: rest) with
    | some left => (replacement, rest.length - left.length)
    | none => ([c], 0)) 0 text).flatten

/-- What is left of `text` behind `start`, when it starts so. -/
def dropStart? (start text : Text) : Option Text :=
  if start.isPrefixOf text then some (text.drop start.length) else none

/-- The text before and the text behind the first occurrence of `mark`. -/
def splitAt? (mark : Text) : Text → Option (Text × Text)
  | [] => if mark.isEmpty then some ([], []) else none
  | c :: rest =>
    match dropStart? mark (c :: rest) with
    | some left => some ([], left)
    | none => (splitAt? mark rest).map fun (before, left) => (c :: before, left)

end MathScribe

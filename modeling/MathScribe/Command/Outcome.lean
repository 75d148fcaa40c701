/-
Outcomes of commands.

A command writes an output and ends either with a value or with an exit code that tells the caller
that it has failed. What went wrong is said in the log.
-/
set_option autoImplicit false

namespace MathScribe

/-- What a command has written, and how it has ended. -/
structure Outcome (α : Type) where
  /-- All that has been written to the standard output. -/
  output : String
  /-- The exit code of a command that has failed, or the value of one that has not. -/
  ending : Except Nat α

namespace Outcome

/-- The end of a command that has done its work. -/
def done {α : Type} (output : String) (value : α) : Outcome α :=
  ⟨output, .ok value⟩

/-- The end of a command that has failed before it wrote anything. -/
def failure {α : Type} : Outcome α :=
  ⟨"", .error 1⟩

end Outcome

end MathScribe

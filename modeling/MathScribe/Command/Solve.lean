/-
The command that solves questions.

The command sets a solver up, has it do one task, shows what comes of it, and closes the connection to
the database whatever happens. Filling gaps in the store goes before looking similar questions up, and
that goes before solving. A failure that the solver reports ends the command with an exit code, and so
does an interruption by the user.
-/
import MathScribe.Command.Console
import MathScribe.Command.Outcome
import MathScribe.Service.Setup

set_option autoImplicit false

namespace MathScribe

/-- What the command has the solver do. -/
inductive SolveTask
  /-- Give stored questions the texts in ASCIIMath that they lack. -/
  | backfill
  /-- Show stored questions that are similar to a question. -/
  | similar (question : String)
  /-- Solve a question and show its solution. -/
  | solve (question : String)
  deriving DecidableEq, Repr

/-- The task that is asked for. -/
def SolveTask.choose (question : String) (similar backfill : Bool) : SolveTask :=
  if backfill then .backfill else if similar then .similar question else .solve question

/-- The task that the settings ask for. -/
def SolveSettings.task (settings : SolveSettings) : SolveTask :=
  .choose (settings.question.getD "") settings.similar settings.backfill

/-! ## What is shown -/

/-- What is shown for a solved question. -/
def SolvedQuestion.report (solved : SolvedQuestion) : String :=
  Console.lines
    ["Type: " ++ solved.questionType, "Solution:", solved.solution, "ASCIIMath:",
     solved.solutionAsciiMath]

/-- The line between two similar questions. -/
def separatorLine : String :=
  String.ofList (List.replicate 40 '-')

/-- What is shown for similar questions, which are counted from the given number on. -/
def SimilarQuestion.reportFrom : Nat → List SimilarQuestion → List String
  | _, [] => []
  | number, similar :: others =>
    (toString number ++ ". (score " ++ similar.score.toFixed 4 ++ ")") :: similar.question
      :: separatorLine :: reportFrom (number + 1) others

/-- What is shown for the similar questions that were found. -/
def SimilarQuestion.report (found : List SimilarQuestion) : String :=
  Console.lines
    (if found.isEmpty then ["No similar questions stored yet"] else reportFrom 1 found)

/-- What is shown when gaps in the store have been filled. -/
def backfillReport (count : Nat) : String :=
  Console.lines ["Added notation to " ++ toString count ++ " stored questions"]

/-! ## The command -/

section Command

variable {σ : Type} (outside : Outside σ)

/-- Have the solver do a task, with what is shown for it. -/
def SolveTask.carryOut (solver : Solver) : SolveTask → Task σ String
  | .backfill => backfillReport <$> solver.backfill outside
  | .similar question => SimilarQuestion.report <$> solver.similar outside question
  | .solve question => SolvedQuestion.report <$> solver.solve outside question

/-- End the command because of a problem that the solver reports; any other problem goes on. -/
def endReported {α : Type} (problem : Problem) : Task σ (Outcome α) :=
  if problem.isReported then do
    Task.log .error problem.message
    pure .failure
  else throw problem

/-- Do the task of the command with a solver that has been set up. -/
def SolveTask.outcome (solver : Solver) (task : SolveTask) : Task σ (Outcome Unit) := do
  match ← Task.attempt (task.carryOut outside solver) with
  | .ok output => pure (.done output ())
  | .error .interrupted =>
    Task.log .info "Interrupted by user"
    pure .failure
  | .error problem => endReported problem

/-- The command: set a solver up, do the task, and close the connection. -/
def solveCommand (setUp : Task σ Solver) (task : SolveTask) : Task σ (Outcome Unit) := do
  match ← Task.attempt setUp with
  | .error problem => endReported problem
  | .ok solver =>
    Task.lastly (task.outcome outside solver) do
      Task.log .info "Closing database connections..."
      QuestionStore.close outside

end Command

end MathScribe

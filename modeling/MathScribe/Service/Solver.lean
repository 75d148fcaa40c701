/-
The solver.

A question is placed in the taxonomy, solved by a chat model, written in ASCIIMath together with its
solution, embedded and stored, in this order: it is stored last, so that only questions that were
solved to the end are in the store. Stored questions can be searched for similar ones, and those
that lack their texts in ASCIIMath can be given them.

A collaborator that fails makes the whole request fail, with a problem that names the activity.
-/
import MathScribe.Service.QuestionStore
import MathScribe.Service.Transcription

set_option autoImplicit false

namespace MathScribe

/-- A solver (`MathSolverService`): where it stores questions, and which models it asks. -/
structure Solver where
  store : QuestionStore
  /-- The model that names the types of questions. -/
  classifier : Model
  /-- The model whose ASCIIMath is preferred, when there is one. -/
  transcriber : Option Model
  /-- How many similar questions a search brings. -/
  topK : Int
  deriving DecidableEq, Repr

namespace Solver

variable {σ : Type} (outside : Outside σ) (solver : Solver)

/-- The type of a question (`get_question_type`). -/
def classify (question : String) : Task σ String := do
  let answer ← Task.during .classifying
    (Task.perform outside (.ask solver.classifier (Prompt.classify question)))
  pure (QuestionType.ofAnswer answer)

/-- The embedding of a text, as the embedding model gives it (`create_embedding`). -/
def embed (text : String) : Task σ (List Value) :=
  Task.during .embedding (Task.perform outside (.embed text))

/-- A text in ASCIIMath (`to_notation`). -/
def transcribe (text : String) : Task σ String :=
  Transcription.ofText outside solver.transcriber text

/-- The solution of a question. -/
def solution (question : String) : Task σ String := do
  let answer ← Task.during .solving
    (Task.perform outside (.ask .solver (Prompt.solve question)))
  pure (trimmed answer)

/-- Solve a question and store it (`solve_question`). The record is put together between two guarded
blocks, outside of both. -/
def solve (question : String) : Task σ SolvedQuestion := do
  let questionType ← solver.classify outside question
  let solution ← Solver.solution outside question
  let questionAsciiMath ← solver.transcribe outside question
  let solutionAsciiMath ← solver.transcribe outside solution
  let vector ← Solver.embed outside question
  -- Whatever else the embedding model may give, only a row of numbers can be stored.
  let embedding ← Task.ofChecked "SolvedQuestion"
    ((SolvedQuestion.checkEmbedding (.list vector)).below (.field "embedding"))
  let solved : SolvedQuestion :=
    ⟨question, solution, questionType, questionAsciiMath, solutionAsciiMath, embedding⟩
  Task.during .storing (solver.store.create outside solved)
  Task.log .info ("Question solved: " ++ question)
  pure solved

/-- The stored questions that are similar to a question (`get_similar_questions`). -/
def similar (question : String) : Task σ (List SimilarQuestion) := do
  let vector ← Solver.embed outside question
  let found ← Task.during .searching (solver.store.nearest outside vector solver.topK)
  Task.log .info ("Retrieved similar questions for: " ++ question)
  pure found

/-! ## Backfilling -/

/-- The value of a record, which has to be there. -/
def valueOf (record : Fields) (name : String) : Task σ Value :=
  match record.lookup name with
  | some value => pure value
  | none => throw (.missingValue name)

/-- The text that a value of a record is; a value that says nothing counts as the empty text. -/
def textOf (value : Value) : Task σ String :=
  if value.isVoid then pure ""
  else match value with
    | .text text => pure text
    | other => throw (.notText other)

/-- The text in ASCIIMath of a value of a record. -/
def transcribeValue (record : Fields) (name : String) : Task σ String := do
  let value ← valueOf record name
  let text ← textOf value
  solver.transcribe outside text

/-- Give a stored question its texts in ASCIIMath. -/
def backfillRecord (record : Fields) : Task σ Unit := do
  let id ← valueOf record "id"
  let question ← solver.transcribeValue outside record "question"
  let solution ← solver.transcribeValue outside record "solution"
  solver.store.transcribe outside id question solution

/-- Give stored questions their texts in ASCIIMath, one after another. -/
def backfillRecords : List Fields → Task σ Unit
  | [] => pure ()
  | record :: records => do
    solver.backfillRecord outside record
    backfillRecords records

/-- Give every stored question that lacks a text in ASCIIMath its texts, and tell how many there
were (`backfill_notation`). -/
def backfill : Task σ Nat := do
  let count ← Task.during .backfilling do
    let pending ← solver.store.untranscribed outside
    solver.backfillRecords outside pending
    pure pending.length
  Task.log .info ("Added notation to " ++ toString count ++ " stored questions")
  pure count

end Solver

/-! ## Requests -/

/-- What can be asked of a solver. -/
inductive SolverRequest
  | solve (question : String)
  | similar (question : String)
  | classify (question : String)
  | embed (text : String)
  | transcribe (text : String)
  | backfill
  deriving DecidableEq, Repr

/-- What a solver answers. -/
inductive SolverAnswer
  | solved (question : SolvedQuestion)
  | similar (questions : List SimilarQuestion)
  | text (text : String)
  | vector (values : List Value)
  | count (n : Nat)

namespace Solver

variable {σ : Type} (outside : Outside σ) (solver : Solver)

/-- Carry out a request. -/
def carryOut : SolverRequest → Task σ SolverAnswer
  | .solve question => .solved <$> solver.solve outside question
  | .similar question => .similar <$> solver.similar outside question
  | .classify question => .text <$> solver.classify outside question
  | .embed text => .vector <$> Solver.embed outside text
  | .transcribe text => .text <$> solver.transcribe outside text
  | .backfill => .count <$> solver.backfill outside

end Solver

end MathScribe

/-
The question store.

Solved questions live in a graph database, each linked to its type, with an index over their
embeddings for the search. The operations here are requests to the database, each in a session of its
own, and the log records that go with them.
-/
import MathScribe.Service.Task

set_option autoImplicit false

namespace MathScribe

/-- Where questions are stored: the index over their embeddings, and the database. -/
structure QuestionStore where
  index : String
  /-- How many numbers an embedding has. -/
  dimensions : Int
  /-- The name of the measure of nearness. -/
  similarity : String
  /-- The name of the database; none or an empty one stands for the default database. -/
  database : Option String
  deriving DecidableEq, Repr

namespace QuestionStore

/-- The store that is used when nothing else is said. -/
def standard : QuestionStore :=
  ⟨"embeddingIndex", 1536, "cosine", none⟩

/-- How many questions a search brings when nothing else is said. -/
def standardCount : Int := 5

variable {σ : Type} (outside : Outside σ) (store : QuestionStore)

/-- Run a request in a session of its own (`_session`). -/
def request (query : Query) : Task σ (List Fields) := do
  let _ ← Task.perform outside (.openSession (store.database.filter (· ≠ "")))
  Task.perform outside (.run query)

/-- Create the index over the embeddings unless there is one, and tell whether there is one now
(`create_vector_index`). A failure is logged and does no other harm. -/
def createIndex : Task σ Bool := do
  Task.log .info ("Creating vector index " ++ store.index ++ " on Question.embedding...")
  let created ← Task.rescue
    (do
      let _ ← store.request outside (.createIndex store.index store.dimensions store.similarity)
      pure true)
    (fun problem => do
      Task.log .error
        ("Error creating vector index " ++ store.index ++ ": " ++ problem.message)
      pure false)
  if created then
    Task.log .info "Vector index created or already exists"
  pure created

/-- Store a solved question (`store`). -/
def create (solved : SolvedQuestion) : Task σ Unit := do
  let _ ← store.request outside (.create solved)
  Task.log .info ("Stored question and solution: " ++ solved.question)

/-- Check the records of a search one by one; the first faulty one is a problem. -/
def readSimilar : List Fields → Task σ (List SimilarQuestion)
  | [] => pure []
  | record :: records => do
    let similar ← Task.ofChecked "SimilarQuestion" (SimilarQuestion.ofRecord record)
    let others ← readSimilar records
    pure (similar :: others)

/-- The stored questions nearest to an embedding, the nearest one first (`similar_questions`). -/
def nearest (embedding : List Value) (count : Int) : Task σ (List SimilarQuestion) := do
  let records ← store.request outside (.nearest store.index count embedding)
  Task.log .info ("Found " ++ toString records.length ++ " similar questions")
  readSimilar records

/-- The records of the stored questions that lack a text in ASCIIMath
(`questions_missing_notation`). -/
def untranscribed : Task σ (List Fields) := do
  let records ← store.request outside .untranscribed
  Task.log .info ("Found " ++ toString records.length ++ " questions without notation")
  pure records

/-- Write both texts in ASCIIMath onto a stored question (`set_notation`). -/
def transcribe (id : Value) (question solution : String) : Task σ Unit := do
  let _ ← store.request outside (.transcribe id question solution)
  pure ()

/-- Close the connection to the database (`close`). -/
def close : Task σ Unit := do
  let _ ← Task.perform outside .close
  Task.log .info "Neo4j connection closed"

end QuestionStore

end MathScribe

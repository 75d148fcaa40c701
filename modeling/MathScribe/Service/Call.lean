/-
Calls to the outside.

The solver works with collaborators that it does not control: chat models, an embedding model and a
graph database. This file lists every call that it can make to them and says what kind of reply each
call has. A collaborator is a function from calls to replies with a state of its own, so it may
answer anything, fail at any call, and answer differently the next time.

All requests to the database are values of `Query`, with their text and their parameters.
-/
import MathScribe.Question.Prompt
import MathScribe.Question.Stored

set_option autoImplicit false

namespace MathScribe

/-- The chat models, by what they are asked for. -/
inductive Model
  /-- Solves questions. -/
  | solver
  /-- Names the types of questions. -/
  | classifier
  /-- Writes LaTeX as ASCIIMath. -/
  | transcriber
  deriving DecidableEq, Repr

/-- A request to the database. -/
inductive Query
  /-- Create the index over the embeddings of the questions, unless there is one. -/
  | createIndex (index : String) (dimensions : Int) (similarity : String)
  /-- Create a question and link it to its type. -/
  | create (solved : SolvedQuestion)
  /-- Find the questions nearest to an embedding. -/
  | nearest (index : String) (count : Int) (embedding : List Value)
  /-- List the questions that lack a text in ASCIIMath. -/
  | untranscribed
  /-- Write both texts in ASCIIMath onto a question. -/
  | transcribe (id : Value) (question solution : String)

namespace Query

/-- The text of a request, in the query language of the database. -/
def text : Query → String
  | createIndex index dimensions similarity =>
    "CREATE VECTOR INDEX " ++ index ++ " IF NOT EXISTS FOR (q:Question) ON (q.embedding) OPTIONS "
      ++ "\x7b indexConfig: \x7b \x60vector.dimensions\x60: " ++ toString dimensions
      ++ ", \x60vector.similarity_function\x60: '" ++ similarity ++ "' \x7d \x7d"
  | create _ =>
    "MERGE (qt:QuestionType \x7bname: $questionType\x7d) CREATE (q:Question \x7b question: "
      ++ "$question, solution: $solution, embedding: $embedding, questionNotation: "
      ++ "$questionNotation, solutionNotation: $solutionNotation \x7d) "
      ++ "MERGE (q)-[:OF_TYPE]->(qt)"
  | nearest .. =>
    "CALL db.index.vector.queryNodes($indexName, $topK, $embedding) YIELD node, score "
      ++ "OPTIONAL MATCH (node)-[:OF_TYPE]->(qt:QuestionType) RETURN node.question AS question, "
      ++ "node.solution AS solution, node.questionNotation AS questionNotation, "
      ++ "node.solutionNotation AS solutionNotation, qt.name AS questionType, score "
      ++ "ORDER BY score DESC"
  | untranscribed =>
    "MATCH (q:Question) WHERE q.questionNotation IS NULL OR q.solutionNotation IS NULL "
      ++ "RETURN elementId(q) AS id, q.question AS question, q.solution AS solution"
  | transcribe .. =>
    "MATCH (q:Question) WHERE elementId(q) = $id SET q.questionNotation = $questionNotation, "
      ++ "q.solutionNotation = $solutionNotation"

/-- The parameters of a request, when it has any. -/
def parameters : Query → Option Fields
  | createIndex .. => none
  | create solved => some
      [("questionType", .text solved.questionType), ("question", .text solved.question),
       ("solution", .text solved.solution), ("embedding", .list (solved.embedding.map .real)),
       ("questionNotation", .text solved.questionAsciiMath),
       ("solutionNotation", .text solved.solutionAsciiMath)]
  | nearest index count embedding => some
      [("indexName", .text index), ("topK", .int count), ("embedding", .list embedding)]
  | untranscribed => none
  | transcribe id question solution => some
      [("id", id), ("questionNotation", .text question), ("solutionNotation", .text solution)]

end Query

/-- A call to a collaborator. -/
inductive Call
  /-- Get a chat model ready, with its parameters. -/
  | prepareModel (parameters : Fields)
  /-- Get the embedding model ready, with its parameters. -/
  | prepareEmbedding (parameters : Fields)
  /-- Connect to the database. -/
  | connect (uri username password : String)
  /-- Ask a chat model. -/
  | ask (model : Model) (messages : List Message)
  /-- Embed a text. -/
  | embed (text : String)
  /-- Open a session on a database, or on the default one. -/
  | openSession (database : Option String)
  /-- Run a request in the session. -/
  | run (query : Query)
  /-- Close the connection to the database. -/
  | close

/-- The kind of reply that a call has: a chat model replies with a text, the embedding model with a
row of values that have not been checked, and a request with records. -/
def Call.Reply : Call → Type
  | .ask .. => String
  | .embed _ => List Value
  | .run _ => List Fields
  | .prepareModel _ | .prepareEmbedding _ | .connect .. | .openSession _ | .close => Unit

/-- Why a call brings no reply. -/
inductive Failure
  /-- The collaborator fails, for a reason. -/
  | failed (reason : String)
  /-- The user interrupts the work. -/
  | interrupted
  deriving DecidableEq, Repr

/-- The collaborators, with a state of type `σ` between them: what each call brings, and the state
behind it. -/
abbrev Outside (σ : Type) :=
  (call : Call) → σ → Except Failure call.Reply × σ

end MathScribe

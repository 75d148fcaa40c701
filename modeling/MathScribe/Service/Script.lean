/-
Collaborators that follow a script.

A script says in advance what every collaborator brings: a row of replies and failures for each, taken
in order. When a row comes to its end, a model goes on with the last item of its row, and the database
brings no records. With a script in the place of real collaborators, what a solver does is determined.
-/
import MathScribe.Service.Call

set_option autoImplicit false

namespace MathScribe

/-- What the collaborators bring, one call after another. -/
structure Script where
  solver : List (Except Failure String)
  classifier : List (Except Failure String)
  transcriber : List (Except Failure String)
  embeddings : List (Except Failure (List Value))
  /-- What the requests to the database bring. -/
  records : List (Except Failure (List Fields))
  /-- Why no session can be opened, if none can. -/
  sessionFailure : Option Failure

namespace Script

/-- The next item of a row, whose last item is served again and again. An empty row serves the
default. -/
def next {α : Type} (default : α) : List α → α × List α
  | [] => (default, [])
  | [last] => (last, [last])
  | item :: item' :: items => (item, item' :: items)

/-- The collaborators that follow the script. Their state is the part of the script that is still to
come. -/
def outside : Outside Script := fun call script =>
  match call with
  | .ask .solver _ =>
    let (reply, left) := next (.ok "") script.solver
    (reply, { script with solver := left })
  | .ask .classifier _ =>
    let (reply, left) := next (.ok "") script.classifier
    (reply, { script with classifier := left })
  | .ask .transcriber _ =>
    let (reply, left) := next (.ok "") script.transcriber
    (reply, { script with transcriber := left })
  | .embed _ =>
    let (reply, left) := next (.ok []) script.embeddings
    (reply, { script with embeddings := left })
  | .run _ =>
    match script.records with
    | [] => (.ok [], script)
    | reply :: left => (reply, { script with records := left })
  | .openSession _ =>
    match script.sessionFailure with
    | some failure => (.error failure, script)
    | none => (.ok (), script)
  | .prepareModel _ | .prepareEmbedding _ | .connect .. | .close => (.ok (), script)

end Script

end MathScribe

/-
Tasks.

A task is work that calls collaborators, writes log records and may run into a problem. Everything it
does is kept in a journal: each call in the order in which it is made, with whether it succeeded, and
each log record. A problem says what went wrong as a cause, and its wording is a function of the
cause.

Every call goes through `perform`, and every conversion of a failure into the one kind of problem
that the solver reports goes through `during`; the rest of the solver is put together from these.
-/
import MathScribe.Service.Call

set_option autoImplicit false

namespace MathScribe

/-! ## Problems -/

/-- What the solver is busy with when a collaborator lets it down. -/
inductive Activity
  | solving
  | classifying
  | embedding
  | storing
  | searching
  | backfilling
  deriving DecidableEq, Repr

/-- What is said when an activity fails. -/
def Activity.failure : Activity → String
  | solving => "Failed to solve the question"
  | classifying => "Failed to determine question type"
  | embedding => "Failed to create embedding"
  | storing => "Failed to store question and solution"
  | searching => "Failed to retrieve similar questions"
  | backfilling => "Failed to add notation to stored questions"

/-- A setting that the solver cannot work without. -/
inductive Requirement
  | modelKey
  | databaseAccess
  deriving DecidableEq, Repr

/-- What is said when a setting is missing. -/
def Requirement.complaint : Requirement → String
  | modelKey => "OPENAI_API_KEY is not set"
  | databaseAccess => "Neo4j credentials are not set"

/-- What stops a task. -/
inductive Problem
  /-- A collaborator failed. -/
  | failed (reason : String)
  /-- The user interrupted the work. -/
  | interrupted
  /-- The fields of a value of the given kind did not pass their checks. -/
  | invalid (kind : String) (errors : List FieldError)
  /-- A record lacks a value. -/
  | missingValue (name : String)
  /-- A value stands in the place of a text. -/
  | notText (value : Value)
  /-- An activity of the solver failed, for a reason. -/
  | unsuccessful (activity : Activity) (reason : String)
  /-- The solver cannot be set up. -/
  | unmet (requirement : Requirement)
  /-- The solver cannot be set up, for a reason from elsewhere. -/
  | unavailable (reason : String)

/-- The steps to a fault, one behind the other. -/
def FieldError.path (error : FieldError) : String :=
  ".".intercalate (error.place.map fun
    | .field name => name
    | .index n => toString n)

/-- The name of the kind of a value, as complaints give it. -/
def Value.kindName : Value → String
  | .null => "NoneType"
  | .bool _ => "bool"
  | .int _ => "int"
  | .real _ => "float"
  | .text _ => "str"
  | .list _ => "list"
  | .map _ => "dict"

/-- What is said about a value in the place of a text. A simple value lacks a length already; a row or
a record has one, and fails as its characters are looked for. -/
def Value.notTextComplaint (value : Value) : String :=
  match value with
  | .text _ | .list _ | .map _ =>
    "expected string or bytes-like object, got '" ++ value.kindName ++ "'"
  | .null | .bool _ | .int _ | .real _ =>
    "object of type '" ++ value.kindName ++ "' has no len()"

/-- A problem in words. -/
def Problem.message : Problem → String
  | failed reason => reason
  | interrupted => ""
  | invalid kind errors =>
    let count := errors.length
    "\n".intercalate
      ((toString count ++ (if count = 1 then " validation error for " else " validation errors for ")
        ++ kind) :: errors.map fun error => error.path ++ "\n  " ++ error.fault.message)
  | missingValue name => "'" ++ name ++ "'"
  | notText value => value.notTextComplaint
  | unsuccessful activity reason => activity.failure ++ ": " ++ reason
  | unmet requirement => requirement.complaint
  | unavailable reason => reason

/-- Whether a problem is one that the solver reports, not one that escapes it. -/
def Problem.isReported : Problem → Bool
  | unsuccessful .. | unmet _ | unavailable _ => true
  | failed _ | interrupted | invalid .. | missingValue _ | notText _ => false

/-- The problem that a failed call is. -/
def Problem.ofFailure : Failure → Problem
  | .failed reason => failed reason
  | .interrupted => interrupted

/-! ## The journal -/

/-- How much a log record matters. -/
inductive Level
  | info
  | warning
  | error
  deriving DecidableEq, Repr

/-- A log record. -/
structure LogRecord where
  level : Level
  message : String
  deriving DecidableEq, Repr

/-- A call that was made. -/
structure Event where
  call : Call
  /-- Whether the call brought a reply. -/
  succeeded : Bool

/-- What a task has done so far. -/
structure Journal where
  /-- The calls, the first one first. -/
  events : List Event
  /-- The log records, the first one first. -/
  logs : List LogRecord

/-- The journal of a task that has done nothing. -/
def Journal.empty : Journal :=
  ⟨[], []⟩

/-- The state of the collaborators, and the journal. -/
structure World (σ : Type) where
  outside : σ
  journal : Journal

/-! ## Tasks -/

/-- Work that changes the world and brings a value, unless a problem stops it. What was done before
the problem stays done. -/
abbrev Task (σ α : Type) :=
  ExceptT Problem (StateM (World σ)) α

namespace Task

variable {σ α : Type}

/-- Do a task. -/
def start (task : Task σ α) (world : World σ) : Except Problem α × World σ :=
  task.run.run world

/-- Write a log record. -/
def log (level : Level) (message : String) : Task σ Unit :=
  modify fun world =>
    { world with journal := { world.journal with logs := world.journal.logs ++ [⟨level, message⟩] } }

/-- Make a call, and keep it in the journal. -/
def perform (outside : Outside σ) (call : Call) : Task σ call.Reply := do
  let world ← get
  let (answer, state) := outside call world.outside
  let succeeded := match answer with
    | .ok _ => true
    | .error _ => false
  let journal := { world.journal with events := world.journal.events ++ [⟨call, succeeded⟩] }
  set (World.mk state journal)
  match answer with
  | .ok reply => pure reply
  | .error failure => throw (.ofFailure failure)

/-- Do a task, and deal with a problem that stops it. An interruption is nothing to be dealt with:
it goes on. -/
def rescue (task : Task σ α) (deal : Problem → Task σ α) : Task σ α :=
  tryCatch task fun problem =>
    match problem with
    | .interrupted => throw .interrupted
    | other => deal other

/-- Do a task as part of an activity: a problem is logged and becomes a failure of the activity. -/
def during (activity : Activity) (task : Task σ α) : Task σ α :=
  rescue task fun problem => do
    let failure := Problem.unsuccessful activity problem.message
    log .error failure.message
    throw failure

/-- Do a task, with the problem that stops it as its value. -/
def attempt (task : Task σ α) : Task σ (Except Problem α) :=
  tryCatch (Except.ok <$> task) fun problem => pure (.error problem)

/-- The value of a task that has been attempted. -/
def settle : Except Problem α → Task σ α
  | .ok value => pure value
  | .error problem => throw problem

/-- Do a task, and then another one even if a problem has stopped the first. -/
def lastly (task : Task σ α) (cleanUp : Task σ Unit) : Task σ α := do
  let result ← attempt task
  cleanUp
  settle result

/-- The value that has been checked; its faults are a problem. -/
def ofChecked (kind : String) : Checked α → Task σ α
  | .ok value => pure value
  | .faulty errors => throw (.invalid kind errors)

end Task

end MathScribe

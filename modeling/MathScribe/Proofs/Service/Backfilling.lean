/-
How far backfilling gets.

Backfilling goes through the questions that lack their texts in ASCIIMath, one record after another. Each record takes
up to four calls, any of which may fail, and the model may answer differently each time. Still only one thing can
happen: the records are written one by one from the first one on, each with its own texts, up to a record that stops
the work; and a number is returned only when there is no such record (`Solver.backfill_prefix`).

The records are the reply of the database (`Solver.Lists`). What is to be written for one of them is said by
`Solver.Prepares`, which follows the world from one transcription to the next. A record that is done leaves one
writing behind (`Solver.Writes`); one that is not leaves none, or one that has failed (`Solver.Stops`). The loop is a
row of records that are done, and then perhaps one that stops it (`backfillRecords_start`).
-/
import MathScribe.Proofs.Service.Storing

set_option autoImplicit false

namespace MathScribe

/-! ## Attempts to write -/

/-- A call that writes both texts in ASCIIMath onto a stored question. -/
def Call.writing? : Call → Option Query
  | .run (.transcribe id question solution) => some (.transcribe id question solution)
  | _ => none

/-- The requests that calls have made to write texts onto stored questions, in their order, each with whether it has
succeeded. -/
def writings (events : List Event) : List (Query × Bool) :=
  events.filterMap fun event => event.call.writing?.map (·, event.succeeded)

@[simp] theorem writings_append (events more : List Event) :
    writings (events ++ more) = writings events ++ writings more :=
  List.filterMap_append

/-- The requests to write that have been made so far. -/
def World.writings {σ : Type} (world : World σ) : List (Query × Bool) :=
  MathScribe.writings world.journal.events

/-- A call that writes nothing onto a stored question. -/
def WritesNothing (call : Call) : Prop :=
  call.writing? = none

namespace Task

variable {σ α : Type} {task : Task σ α}

/-- What a task that ensures a condition has written is told by its events. -/
theorem Ensures.writings {post : Except Problem α → List Event → Prop} (h : task.Ensures post) (world : World σ) :
    ∃ events, (task.start world).2.writings = world.writings ++ MathScribe.writings events
      ∧ post (task.start world).1 events := by
  obtain ⟨events, hevents, hpost⟩ := h world
  exact ⟨events, by rw [World.writings, hevents, writings_append]; rfl, hpost⟩

/-- A task that makes no writing call leaves the writings as they are. -/
theorem MakesOnly.writings_eq (h : MakesOnly WritesNothing task) (world : World σ) :
    (task.start world).2.writings = world.writings := by
  obtain ⟨events, hwritings, hevents⟩ := Ensures.writings h world
  have hnothing : MathScribe.writings events = [] :=
    List.filterMap_eq_nil_iff.mpr fun event hmem => by
      rw [show event.call.writing? = none from hevents event hmem]
      rfl
  rw [hwritings, hnothing, List.append_nil]

end Task

namespace Solver

variable {σ : Type} (outside : Outside σ) (solver : Solver)

/-! ## What is listed -/

/-- The records are the reply of the database to the request for the stored questions that lack a text in ASCIIMath,
which is made in a session of its own. -/
def Lists (pending : List Fields) (before listed : World σ) : Prop :=
  ∃ session, outside (.openSession (solver.store.database.filter (· ≠ ""))) before.outside = (.ok (), session)
    ∧ outside (.run .untranscribed) session = (.ok pending, listed.outside)

/-! ## What is to be written -/

/-- A value of a record is written in ASCIIMath. One that says nothing counts as the empty text, which is written as
it is and shown to no model. -/
def Transcribes (record : Fields) (name written : String) (before after : World σ) : Prop :=
  ∃ value, record.lookup name = some value
    ∧ (value.isVoid = true ∧ written = "" ∧ after = before
      ∨ value.isVoid = false ∧ ∃ text, value = .text text
        ∧ (solver.transcribe outside text).start before = (.ok written, after))

/-- The request that gives a stored question its texts: it carries the id of the record, and its question and solution
in ASCIIMath, which are transcribed in this order. -/
def Prepares (record : Fields) (query : Query) (before ready : World σ) : Prop :=
  ∃ id question solution half, record.lookup "id" = some id
    ∧ solver.Transcribes outside record "question" question before half
    ∧ solver.Transcribes outside record "solution" solution half ready
    ∧ query = .transcribe id question solution

/-- A record that is done: its request has been run. -/
def Writes (record : Fields) (query : Query) (before after : World σ) : Prop :=
  ∃ ready, solver.Prepares outside record query before ready
    ∧ ∃ reply, (solver.store.request outside query).start ready = (.ok reply, after)

/-- Records that are done, one after another. -/
inductive WritesAll : List Fields → List Query → World σ → World σ → Prop
  | nil (world : World σ) : WritesAll [] [] world world
  | cons {record : Fields} {records : List Fields} {query : Query} {queries : List Query}
      {before middle after : World σ} (first : solver.Writes outside record query before middle)
      (others : WritesAll records queries middle after) :
      WritesAll (record :: records) (query :: queries) before after

/-- A record that stops the work, and what it has tried to write: nothing when there is no request for it or no
session for the request, else its request, which has failed. -/
def Stops (record : Fields) (attempted : List (Query × Bool)) (before : World σ) : Prop :=
  (attempted = [] ∧ ¬∃ query ready, solver.Prepares outside record query before ready)
    ∨ ∃ query ready problem after, solver.Prepares outside record query before ready
      ∧ (solver.store.request outside query).start ready = (.error problem, after)
      ∧ (attempted = [] ∨ attempted = [(query, false)])

/-! ## What the parts do -/

/-- The value of a call is the reply of the collaborator. -/
theorem perform_start_eq_ok {call : Call} {reply : call.Reply} {before after : World σ}
    (h : (Task.perform outside call).start before = (.ok reply, after)) :
    outside call before.outside = (.ok reply, after.outside) := by
  rw [Task.start_perform] at h
  cases hanswer : outside call before.outside with
  | mk answer state =>
    rw [hanswer] at h
    cases answer with
    | ok value =>
      cases h
      rfl
    | error failure => cases h

/-- The records that are gone through are those that the database has brought. -/
theorem untranscribed_start_eq_ok {pending : List Fields} {before listed : World σ}
    (h : (solver.store.untranscribed outside).start before = (.ok pending, listed)) :
    solver.Lists outside pending before listed := by
  obtain ⟨records, found, hrequest, hlog⟩ := Task.start_bind_eq_ok_iff.mp h
  obtain ⟨⟨⟩, opened, hopen, hrun⟩ := Task.start_bind_eq_ok_iff.mp hrequest
  obtain ⟨rfl, hlisted⟩ : records = pending ∧ found.outside = listed.outside := by
    cases hlog
    exact ⟨rfl, rfl⟩
  exact ⟨opened.outside, perform_start_eq_ok outside hopen, hlisted ▸ perform_start_eq_ok outside hrun⟩

/-- A field is read exactly when the record has it, and reading changes nothing. -/
theorem valueOf_start_eq_iff {record : Fields} {name : String} {value : Value} {before after : World σ} :
    (valueOf record name).start before = (.ok value, after) ↔ record.lookup name = some value ∧ after = before := by
  unfold valueOf
  cases record.lookup name with
  | some found => rw [Task.start_pure_eq_iff, Option.some.injEq, eq_comm (a := before)]
  | none => exact ⟨nofun, nofun⟩

/-- An empty value counts as the empty text; any other value has to be a text. -/
theorem textOf_start_eq_iff {value : Value} {text : String} {before after : World σ} :
    (textOf value).start before = (.ok text, after)
      ↔ (value.isVoid = true ∧ text = "" ∨ value.isVoid = false ∧ value = .text text) ∧ after = before := by
  unfold textOf
  cases hvoid : value.isVoid with
  | true => rw [if_pos rfl, Task.start_pure_eq_iff]; simp [eq_comm]
  | false =>
    cases value with
    | text found => rw [if_neg nofun, Task.start_pure_eq_iff]; simp [eq_comm]
    | _ => exact ⟨nofun, by simp⟩

/-- The empty text is shown to no model, and is written as it is. -/
theorem transcribe_empty (world : World σ) : (solver.transcribe outside "").start world = (.ok "", world) := by
  unfold transcribe Transcription.ofText
  cases solver.transcriber <;> rfl

/-- The transcription of a field, as a relation of the worlds before and after it. -/
theorem transcribeValue_start_eq_iff {record : Fields} {name written : String} {before after : World σ} :
    (solver.transcribeValue outside record name).start before = (.ok written, after)
      ↔ solver.Transcribes outside record name written before after := by
  unfold transcribeValue Transcribes
  simp only [Task.start_bind_eq_ok_iff, valueOf_start_eq_iff, textOf_start_eq_iff]
  constructor
  · rintro ⟨value, _, ⟨hvalue, rfl⟩, text, _, ⟨⟨hvoid, rfl⟩ | ⟨hvoid, rfl⟩, rfl⟩, h⟩
    · rw [transcribe_empty, Prod.mk.injEq, Except.ok.injEq] at h
      exact ⟨value, hvalue, .inl ⟨hvoid, h.1.symm, h.2.symm⟩⟩
    · exact ⟨.text text, hvalue, .inr ⟨hvoid, text, rfl, h⟩⟩
  · rintro ⟨value, hvalue, ⟨hvoid, rfl, rfl⟩ | ⟨hvoid, text, rfl, h⟩⟩
    · exact ⟨value, _, ⟨hvalue, rfl⟩, "", _, ⟨.inl ⟨hvoid, rfl⟩, rfl⟩, solver.transcribe_empty outside _⟩
    · exact ⟨.text text, _, ⟨hvalue, rfl⟩, text, _, ⟨.inr ⟨hvoid, rfl⟩, rfl⟩, h⟩

/-- The part of the work on a record that makes its request. -/
def prepare (record : Fields) : Task σ Query := do
  let id ← valueOf record "id"
  let question ← solver.transcribeValue outside record "question"
  let solution ← solver.transcribeValue outside record "solution"
  pure (.transcribe id question solution)

/-- A record is prepared first and written afterwards, with one request. -/
theorem backfillRecord_eq_prepare (record : Fields) :
    solver.backfillRecord outside record
      = solver.prepare outside record >>= fun query => solver.store.request outside query >>= fun _ => pure () := by
  simp only [backfillRecord, prepare, QuestionStore.transcribe, bind_assoc, pure_bind]

/-- The preparation of a record, as a relation: both fields are transcribed, in this order, and the
request is made from them. -/
theorem prepare_start_eq_iff {record : Fields} {query : Query} {before ready : World σ} :
    (solver.prepare outside record).start before = (.ok query, ready)
      ↔ solver.Prepares outside record query before ready := by
  unfold prepare Prepares
  simp only [Task.start_bind_eq_ok_iff, valueOf_start_eq_iff, transcribeValue_start_eq_iff, Task.start_pure_eq_iff]
  constructor
  · rintro ⟨id, _, ⟨hid, rfl⟩, question, half, hquestion, solution, _, hsolution, rfl, rfl⟩
    exact ⟨id, question, solution, half, hid, hquestion, hsolution, rfl⟩
  · rintro ⟨id, question, solution, half, hid, hquestion, hsolution, rfl⟩
    exact ⟨id, _, ⟨hid, rfl⟩, question, half, hquestion, solution, _, hsolution, rfl, rfl⟩

/-! ## What the parts write -/

/-- Until its request, a record has written nothing. -/
theorem prepare_writesNothing (record : Fields) : Task.MakesOnly WritesNothing (solver.prepare outside record) :=
  (valueOf_makesOnly record "id").bind fun _ =>
    (solver.transcribeValue_makesOnly outside (fun _ _ => rfl) record "question").bind fun _ =>
      (solver.transcribeValue_makesOnly outside (fun _ _ => rfl) record "solution").bind fun _ =>
        Task.makesOnly_pure

/-- A request to list questions writes nothing. -/
theorem untranscribed_writesNothing : Task.MakesOnly WritesNothing (solver.store.untranscribed outside) := by
  refine Task.MakesOnly.bind ?_ fun _ => Task.makesOnly_log.bind fun _ => Task.makesOnly_pure
  exact (Task.makesOnly_perform outside (by rfl)).bind fun _ => Task.makesOnly_perform outside (by rfl)

/-- What a request to write leaves behind when it is done, and when it is not. -/
theorem request_writings {query : Query} (hquery : (Call.run query).writing? = some query) (ready : World σ) :
    ((solver.store.request outside query).start ready).2.writings = ready.writings ++
        [(query, ((solver.store.request outside query).start ready).1.isOk)]
      ∨ ((solver.store.request outside query).start ready).1.isOk = false
        ∧ ((solver.store.request outside query).start ready).2.writings = ready.writings := by
  obtain ⟨events, hwritings, ⟨rfl, hfailed⟩ | rfl⟩ := (solver.request_ensures outside query).writings ready
  · exact .inr ⟨hfailed, by rw [hwritings]; exact List.append_nil _⟩
  · have hopen : (Call.openSession (solver.store.database.filter (· ≠ ""))).writing? = none := rfl
    refine .inl ?_
    rw [hwritings]
    simp only [writings, List.filterMap_cons, hopen, hquery]
    rfl

variable {outside solver}

/-- What has been written when the texts of a record are at hand: nothing more. -/
theorem Prepares.writings_eq {record : Fields} {query : Query} {before ready : World σ}
    (h : solver.Prepares outside record query before ready) : ready.writings = before.writings := by
  rw [← (solver.prepare_writesNothing outside record).writings_eq before,
    (solver.prepare_start_eq_iff outside).mpr h]

/-- The request of a record writes texts onto a stored question. -/
theorem Prepares.writing?_eq {record : Fields} {query : Query} {before ready : World σ}
    (h : solver.Prepares outside record query before ready) : (Call.run query).writing? = some query := by
  obtain ⟨id, question, solution, half, -, -, -, rfl⟩ := h
  rfl

/-- A record that is done has been written. -/
theorem Writes.writings_eq {record : Fields} {query : Query} {before after : World σ}
    (h : solver.Writes outside record query before after) :
    after.writings = before.writings ++ [(query, true)] := by
  obtain ⟨ready, hprepared, reply, hrequest⟩ := h
  obtain hwritings | ⟨hfailed, -⟩ := solver.request_writings outside hprepared.writing?_eq ready
  · rw [hrequest, hprepared.writings_eq] at hwritings
    exact hwritings
  · rw [hrequest] at hfailed
    cases hfailed

/-- Records that are done have been written, in their order. -/
theorem WritesAll.writings_eq {records : List Fields} {queries : List Query} {before after : World σ}
    (h : solver.WritesAll outside records queries before after) :
    after.writings = before.writings ++ queries.map (·, true) := by
  induction h with
  | nil world => exact (List.append_nil _).symm
  | cons first _ ih => rw [ih, first.writings_eq, List.append_assoc]; rfl

/-! ## One record -/

variable (outside solver)

/-- **One record** is done, or it stops the work. -/
theorem backfillRecord_start (record : Fields) (before : World σ) :
    (∃ query after, (solver.backfillRecord outside record).start before = (.ok (), after)
        ∧ solver.Writes outside record query before after)
      ∨ ∃ problem after attempted, (solver.backfillRecord outside record).start before = (.error problem, after)
        ∧ solver.Stops outside record attempted before ∧ after.writings = before.writings ++ attempted := by
  rw [backfillRecord_eq_prepare, Task.start_bind]
  cases hprepare : (solver.prepare outside record).start before with
  | mk result ready =>
    have hready : ready.writings = before.writings := by
      rw [← (solver.prepare_writesNothing outside record).writings_eq before, hprepare]
    cases result with
    -- The preparation fails: nothing is tried.
    | error problem =>
      refine .inr ⟨problem, ready, [], rfl, .inl ⟨rfl, ?_⟩, by rw [hready, List.append_nil]⟩
      rintro ⟨query, ready', hprepares⟩
      rw [← prepare_start_eq_iff, hprepare] at hprepares
      cases hprepares
    | ok query =>
      have hprepares := (solver.prepare_start_eq_iff outside).mp hprepare
      have hwritings := solver.request_writings outside hprepares.writing?_eq ready
      simp only [Task.start_bind]
      cases hrequest : (solver.store.request outside query).start ready with
      | mk answer after =>
        rw [hrequest, hready] at hwritings
        cases answer with
        | ok reply => exact .inl ⟨query, after, rfl, ready, hprepares, reply, hrequest⟩
        | error problem =>
          refine .inr ?_
          -- The request may have reached the database or not.
          obtain hfailed | ⟨-, hnothing⟩ := hwritings
          · exact ⟨problem, after, [(query, false)], rfl,
              .inr ⟨query, ready, problem, after, hprepares, hrequest, .inr rfl⟩, hfailed⟩
          · exact ⟨problem, after, [], rfl, .inr ⟨query, ready, problem, after, hprepares, hrequest, .inl rfl⟩,
              by rw [hnothing, List.append_nil]⟩

/-! ## All records -/

/-- **The loop**: records that are done, one after another from the first one on, and then perhaps one that stops the
work. The induction is on the records, from any world. -/
theorem backfillRecords_start (records : List Fields) :
    ∀ before : World σ, ∃ done rest queries reached, records = done ++ rest
      ∧ solver.WritesAll outside done queries before reached
      ∧ (rest = [] ∧ (solver.backfillRecords outside records).start before = (.ok (), reached)
        ∨ ∃ record others problem after attempted, rest = record :: others
          ∧ (solver.backfillRecords outside records).start before = (.error problem, after)
          ∧ solver.Stops outside record attempted reached ∧ after.writings = reached.writings ++ attempted) := by
  induction records with
  | nil => exact fun before => ⟨[], [], [], before, rfl, .nil before, .inl ⟨rfl, rfl⟩⟩
  | cons record records ih =>
    intro before
    obtain ⟨query, middle, hstart, hwrites⟩ | ⟨problem, after, attempted, hstart, hstops, hwritings⟩ :=
      solver.backfillRecord_start outside record before
    · obtain ⟨done, rest, queries, reached, rfl, hdone, hend⟩ := ih middle
      have hrun : (solver.backfillRecords outside (record :: (done ++ rest))).start before
          = (solver.backfillRecords outside (done ++ rest)).start middle := by
        rw [backfillRecords, Task.start_bind, hstart]
      refine ⟨record :: done, rest, query :: queries, reached, rfl, .cons hwrites hdone, ?_⟩
      rw [hrun]
      exact hend
    · refine ⟨[], record :: records, [], before, rfl, .nil before, .inr
        ⟨record, records, problem, after, attempted, rfl, ?_, hstops, hwritings⟩⟩
      rw [backfillRecords, Task.start_bind, hstart]

/-- The work of the activity: the records are listed, gone through and counted. -/
def backfillPending : Task σ Nat := do
  let pending ← solver.store.untranscribed outside
  solver.backfillRecords outside pending
  pure pending.length

/-- Around the work problems get another name, and nothing is written. -/
theorem backfill_start (world : World σ) :
    ((solver.backfill outside).start world).1
        = ((solver.backfillPending outside).start world).1.mapError (Problem.within .backfilling)
      ∧ ((solver.backfill outside).start world).2.writings
        = ((solver.backfillPending outside).start world).2.writings := by
  obtain ⟨final, hstart, -, hevents⟩ :=
    Task.start_during .backfilling (solver.backfillPending outside) world
  have hbackfill : solver.backfill outside = Task.during .backfilling (solver.backfillPending outside)
      >>= fun count => Task.log .info ("Added notation to " ++ toString count ++ " stored questions")
        >>= fun _ => pure count := rfl
  rw [hbackfill, Task.start_bind, hstart, World.writings, World.writings, ← hevents]
  cases ((solver.backfillPending outside).start world).1 <;> exact ⟨rfl, rfl⟩

/-- **Backfilling writes the records one by one, from the first one on, and never tells too great a number.** Whatever
the collaborators answer and wherever they fail, there are three ways in which it can end:

* the records cannot be listed; then it fails, and nothing is written;
* every record is done; then their number is returned, and each has been written once, in the order of the records;
* a record stops the work; then it fails, the records in front of that one are done and have been written in their
  order, the record itself has been tried once at most, and none behind it is tried.

The records are those that the database has brought. The request of a record carries the id of the record, and its
question and solution as they have been transcribed when the work has come to this record. -/
theorem backfill_prefix (world : World σ) :
    (∃ problem reported listed, (solver.store.untranscribed outside).start world = (.error problem, listed)
        ∧ ((solver.backfill outside).start world).1 = .error reported
        ∧ ((solver.backfill outside).start world).2.writings = world.writings)
      ∨ ∃ pending listed done rest queries reached,
        (solver.store.untranscribed outside).start world = (.ok pending, listed)
        ∧ solver.Lists outside pending world listed
        ∧ pending = done ++ rest ∧ solver.WritesAll outside done queries listed reached
        ∧ (rest = [] ∧ ((solver.backfill outside).start world).1 = .ok pending.length
            ∧ ((solver.backfill outside).start world).2.writings = world.writings ++ queries.map (·, true)
          ∨ ∃ record others problem attempted, rest = record :: others
            ∧ ((solver.backfill outside).start world).1 = .error problem
            ∧ solver.Stops outside record attempted reached
            ∧ ((solver.backfill outside).start world).2.writings
              = world.writings ++ queries.map (·, true) ++ attempted) := by
  -- The activity only renames problems, so the work inside it is looked at.
  obtain ⟨hresult, hfinal⟩ := solver.backfill_start outside world
  rw [hresult, hfinal, backfillPending, Task.start_bind]
  have hlisted := (solver.untranscribed_writesNothing outside).writings_eq world
  cases hlist : (solver.store.untranscribed outside).start world with
  | mk result listed =>
    rw [hlist] at hlisted
    cases result with
    | error problem => exact .inl ⟨problem, _, listed, rfl, rfl, hlisted⟩
    | ok pending =>
      refine .inr ?_
      obtain ⟨done, rest, queries, reached, hpending, hdone, hend⟩ :=
        solver.backfillRecords_start outside pending listed
      have hreached : reached.writings = world.writings ++ queries.map (·, true) := by
        rw [hdone.writings_eq, hlisted]
      refine ⟨pending, listed, done, rest, queries, reached, rfl, solver.untranscribed_start_eq_ok outside hlist,
        hpending, hdone, ?_⟩
      simp only [Task.start_bind]
      obtain ⟨hrest, hrun⟩ | ⟨record, others, problem, after, attempted, hrest, hrun, hstops, hwritings⟩ := hend
      · rw [hrun]
        exact .inl ⟨hrest, rfl, hreached⟩
      · rw [hrun]
        exact .inr ⟨record, others, _, attempted, hrest, rfl, hstops, by rw [hwritings, hreached]⟩

end Solver

end MathScribe

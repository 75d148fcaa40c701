/-
When a question is stored.

A question is stored last, behind everything that is needed to solve it. So the store is reached only on the
way of a question that has been solved to the end (`Solver.course`), and what is written there is what the
caller gets. This file states both for one request (`Solver.StoresWhenSolved`), whatever the collaborators
answer and wherever they fail, and for a service that carries out requests of all kinds one after another
(`Solver.stored_iff_solved`): the questions that have been stored are those that have been returned, in the
same order.

Of the requests only the one to solve a question makes the call that creates one. For the others it is enough
to go through their calls (`makesOnly_of_ne_solve`); the one that solves is followed call by call
(`solve_ensures`).
-/
import Mathlib.Data.List.Count
import MathScribe.Proofs.Service.Trace
import MathScribe.Service.Script
import MathScribe.Service.Solver

set_option autoImplicit false

namespace MathScribe

/-! ## Attempts to store -/

/-- A call that creates a question in the store. -/
def Call.creation? : Call → Option SolvedQuestion
  | .run (.create solved) => some solved
  | _ => none

/-- The questions that calls have tried to store, in their order, each with whether it has been stored. -/
def creations (events : List Event) : List (SolvedQuestion × Bool) :=
  events.filterMap fun event => event.call.creation?.map (·, event.succeeded)

/-- The questions that have been stored, in their order. -/
def stored (events : List Event) : List SolvedQuestion :=
  ((creations events).filter (·.2)).map Prod.fst

@[simp] theorem creations_append (events more : List Event) :
    creations (events ++ more) = creations events ++ creations more :=
  List.filterMap_append

theorem stored_append (events more : List Event) : stored (events ++ more) = stored events ++ stored more := by
  simp [stored]

/-- Nothing is created by calls of which none creates. -/
theorem creations_of_forall {events : List Event} (h : ∀ event ∈ events, event.call.creation? = none) :
    creations events = [] :=
  List.filterMap_eq_nil_iff.mpr fun event hmem => by rw [h event hmem]; rfl

/-- A call has brought no reply. -/
def AnyFails (events : List Event) : Prop :=
  ∃ event ∈ events, event.succeeded = false

theorem anyFails_of_eq {events : List Event} {call : Call} (h : events = [⟨call, false⟩]) : AnyFails events :=
  ⟨_, by rw [h]; exact List.mem_singleton_self _, rfl⟩

/-- A failed call stays failed with other calls in front of it. -/
theorem AnyFails.append {events : List Event} (h : AnyFails events) (before : List Event) :
    AnyFails (before ++ events) :=
  let ⟨event, hmem, hfails⟩ := h
  ⟨event, List.mem_append_right before hmem, hfails⟩

namespace Solver

variable {σ : Type} (outside : Outside σ) (solver : Solver)

/-! ## The way of a question -/

/-- What a transcription leaves behind: nothing when there is no model to ask or no text, else one call, which
may have failed. -/
def transcriptionEvents (text : String) (succeeded : Bool) : List Event :=
  match solver.transcriber with
  | none => []
  | some model => if text = "" then [] else [⟨.ask model (Prompt.transcribe text), succeeded⟩]

/-- What a question that is solved to the end leaves behind before it is stored: it has been placed in the
taxonomy, solved, written in ASCIIMath together with its solution, and embedded. The two flags say whether the
model has brought the transcriptions. -/
def course (solved : SolvedQuestion) (first second : Bool) : List Event :=
  [⟨.ask solver.classifier (Prompt.classify solved.question), true⟩,
    ⟨.ask .solver (Prompt.solve solved.question), true⟩]
    ++ solver.transcriptionEvents solved.question first
    ++ solver.transcriptionEvents solved.solution second
    ++ [⟨.embed solved.question, true⟩, ⟨.openSession (solver.store.database.filter (· ≠ "")), true⟩]

/-- A transcription asks a model and creates nothing. -/
theorem creations_transcriptionEvents (text : String) (succeeded : Bool) :
    creations (solver.transcriptionEvents text succeeded) = [] := by
  unfold transcriptionEvents
  split
  · rfl
  · split <;> rfl

/-- The three calls in front of the storing create nothing. -/
theorem creations_course (solved : SolvedQuestion) (first second : Bool) :
    creations (solver.course solved first second) = [] := by
  simp only [course, creations_append, creations_transcriptionEvents]
  rfl

/-! ## What the parts leave behind -/

/-- `_classify_question` asks the classifier once and gives a category exactly when the classifier
answers. -/
theorem classify_ensures (question : String) :
    (solver.classify outside question).Ensures fun result events =>
      events = [⟨.ask solver.classifier (Prompt.classify question), result.isOk⟩] :=
  Task.ensures_reply outside _ _ _

/-- `_get_solution` asks the solver once and gives a text exactly when the solver answers. -/
theorem solution_ensures (question : String) :
    (solution outside question).Ensures fun result events =>
      events = [⟨.ask .solver (Prompt.solve question), result.isOk⟩] :=
  Task.ensures_reply outside _ _ _

/-- `_embed` asks once, and the vector it gives is the one the embedding model has brought. -/
theorem embed_ensures (text : String) :
    (embed outside text).Ensures fun result events => events = [⟨.embed text, result.isOk⟩]
      ∧ ∀ vector, result = .ok vector → Task.Brings outside (.embed text) vector :=
  (Task.ensures_perform_brings outside (.embed text)).during (fun _ _ h => h)
    fun _ _ h => ⟨h.1, fun _ hvector => nomatch hvector⟩

/-- A model that is asked for a text leaves one call behind, and none for an empty text. Only an interruption of
the call ends the work. -/
theorem byModel_ensures (model : Model) (text : String) :
    (Transcription.byModel outside model text).Ensures fun result events =>
      ∃ succeeded, events = (if text = "" then [] else [⟨.ask model (Prompt.transcribe text), succeeded⟩])
        ∧ (result.isOk = false → AnyFails events) := by
  unfold Transcription.byModel
  by_cases htext : text = ""
  · rw [if_pos htext]
    exact Task.ensures_pure ⟨true, (if_pos htext).symm, nofun⟩
  rw [if_neg htext]
  simp only [if_neg htext]
  have hask : (some <$> Task.perform outside (.ask model (Prompt.transcribe text))).Ensures
      fun result events => events = [⟨.ask model (Prompt.transcribe text), result.isOk⟩] := by
    refine Task.Ensures.map ((Task.ensures_perform outside _).mono fun result events h => ?_)
    cases result <;> exact h
  have hlog : ∀ problem : Problem,
      (Task.log .warning ("LLM notation conversion failed: " ++ problem.message) : Task σ Unit).Ensures
        fun result more => result = .ok () ∧ more = [] := fun _ => Task.ensures_log ⟨rfl, rfl⟩
  -- A failed call is rescued and told from an interruption, which goes through.
  have hrescued : (Task.rescue (some <$> Task.perform outside (.ask model (Prompt.transcribe text)))
      (fun problem => do
        Task.log .warning ("LLM notation conversion failed: " ++ problem.message)
        pure none)).Ensures
      fun result events => ∃ succeeded, events = [⟨.ask model (Prompt.transcribe text), succeeded⟩]
        ∧ (result.isOk = false → AnyFails events) := by
    refine hask.rescue (fun _ _ h => ⟨_, h, nofun⟩) (fun _ h => ⟨_, h, fun _ => ?_⟩) fun problem events _ h => ?_
    · exact anyFails_of_eq h
    · refine (hlog problem).bind (fun _ more hmore => Task.ensures_pure ⟨false, ?_, nofun⟩) nofun
      rw [hmore.2, List.append_nil, List.append_nil]
      exact h
  refine hrescued.bind (fun _ events h => Task.ensures_pure ?_) fun _ _ h => h
  obtain ⟨succeeded, hevents, -⟩ := h
  exact ⟨succeeded, by rw [List.append_nil, hevents], nofun⟩

/-- `transcribe_formulas` may ask a model, and if it raises, then because the model has failed. -/
theorem transcribe_ensures (text : String) :
    (solver.transcribe outside text).Ensures fun result events =>
      ∃ succeeded, events = solver.transcriptionEvents text succeeded
        ∧ (result.isOk = false → AnyFails events) := by
  unfold transcribe Transcription.ofText transcriptionEvents
  cases solver.transcriber with
  | none => exact Task.ensures_pure ⟨true, rfl, nofun⟩
  | some model =>
    refine (byModel_ensures outside model text).bind (fun _ events h => Task.ensures_pure ?_) fun _ _ h => h
    obtain ⟨succeeded, hevents, -⟩ := h
    exact ⟨succeeded, by rw [List.append_nil, hevents], nofun⟩

/-- What a request to the store leaves behind: it is run in a session of its own, when there is one. -/
def Requests (query : Query) (succeeded : Bool) (events : List Event) : Prop :=
  (events = [⟨.openSession (solver.store.database.filter (· ≠ "")), false⟩] ∧ succeeded = false)
    ∨ events = [⟨.openSession (solver.store.database.filter (· ≠ "")), true⟩, ⟨.run query, succeeded⟩]

/-- A request to the database makes one call, which fails when the request does. -/
theorem request_ensures (query : Query) :
    (solver.store.request outside query).Ensures fun result events =>
      solver.Requests query result.isOk events := by
  unfold QuestionStore.request
  refine (Task.ensures_perform outside _).bind (fun _ events h => ?_) fun _ _ h => .inl ⟨h, rfl⟩
  refine (Task.ensures_perform outside _).mono fun _ more hmore => .inr ?_
  rw [h, hmore]
  rfl

/-- The creation makes one request; that its failure is reported under another name does not change the
calls. -/
theorem create_ensures (solved : SolvedQuestion) :
    (Task.during .storing (solver.store.create outside solved)).Ensures fun result events =>
      solver.Requests (.create solved) result.isOk events := by
  have hcreate : (solver.store.create outside solved).Ensures fun result events =>
      solver.Requests (.create solved) result.isOk events := by
    unfold QuestionStore.create
    refine (solver.request_ensures outside (.create solved)).bind (fun _ events h => ?_) fun _ _ h => h
    refine Task.ensures_log ?_
    rw [List.append_nil]
    exact h
  exact hcreate.during (fun _ _ h => h) fun _ _ h => h

/-! ## A question that is solved -/

/-- The embedding model has brought a vector for the question in which a value is no number, and these are the
faults that the check of the vector has found. -/
def BringsFaulty (question : String) (errors : List FieldError) : Prop :=
  ∃ vector : List Value, Task.Brings outside (.embed question) vector
    ∧ (∃ value ∈ vector, ∃ fault, value.toReal = .error fault)
    ∧ (SolvedQuestion.checkEmbedding (.list vector)).below (.field "embedding") = .faulty errors

/-- A problem has a cause: a call that has brought no reply, or the embedding of the question, which has been
brought and is no row of numbers. The problem then lists the faults of the embedding. -/
def HasCause (question : String) (problem : Problem) (events : List Event) : Prop :=
  AnyFails events
    ∨ ∃ errors, problem = .invalid "SolvedQuestion" errors ∧ BringsFaulty outside question errors
      ∧ ⟨.embed question, true⟩ ∈ events

/-- How solving a question ends, and what it leaves behind: it fails for a cause before it reaches the store, or
it goes all the way and then brings what it has stored. -/
def Solves (question : String) (result : Except Problem SolvedQuestion) (events : List Event) : Prop :=
  (creations events = [] ∧ ∃ problem, result = .error problem ∧ HasCause outside question problem events)
    ∨ ∃ solved first second, solved.question = question
      ∧ events = solver.course solved first second ++ [⟨.run (.create solved), result.isOk⟩]
      ∧ ∀ value, result = .ok value → value = solved

/-- A step of `solve_question` in front of the store. When it fails, so does the request. -/
theorem step_ensures {α : Type} {outside : Outside σ} {solver : Solver} {task : Task σ α}
    {next : α → Task σ SolvedQuestion} {mid : Except Problem α → List Event → Prop} {question : String}
    {before : List Event} (hbefore : creations before = []) (htask : task.Ensures mid)
    (hmid : ∀ result events, mid result events → creations events = [])
    (hcause : ∀ problem events, mid (.error problem) events → HasCause outside question problem (before ++ events))
    (hnext : ∀ value events, mid (.ok value) events → creations (before ++ events) = [] →
      (next value).Ensures fun result more => solver.Solves outside question result (before ++ events ++ more)) :
    (task >>= next).Ensures fun result events => solver.Solves outside question result (before ++ events) := by
  have hquiet : ∀ result events, mid result events → creations (before ++ events) = [] := by
    intro result events h
    rw [creations_append, hbefore, hmid result events h]
    rfl
  refine htask.bind (fun value events h => ?_) fun problem events h =>
    .inl ⟨hquiet _ _ h, problem, rfl, hcause problem events h⟩
  refine (hnext value events h (hquiet _ _ h)).mono fun result more hsolves => ?_
  rw [← List.append_assoc]
  exact hsolves

/-- The last step: what has been solved is stored and returned. -/
theorem store_ensures {solved : SolvedQuestion} {before : List Event} {first second : Bool}
    (hbefore : before ++ [⟨.openSession (solver.store.database.filter (· ≠ "")), true⟩]
      = solver.course solved first second) :
    (do
      Task.during .storing (solver.store.create outside solved)
      Task.log .info ("Question solved: " ++ solved.question)
      pure solved).Ensures
      fun result events => solver.Solves outside solved.question result (before ++ events) := by
  refine (solver.create_ensures outside solved).bind (fun _ events h => ?_) fun problem events h => ?_
  · have hlog : (Task.log .info ("Question solved: " ++ solved.question) : Task σ Unit).Ensures
        fun result more => result = .ok () ∧ more = [] := Task.ensures_log ⟨rfl, rfl⟩
    obtain ⟨-, hfailed⟩ | rfl := h
    · cases hfailed
    · refine hlog.bind (fun _ more hmore => Task.ensures_pure (.inr ⟨solved, first, second, rfl, ?_, ?_⟩))
        fun problem more hmore => absurd hmore.1 (by simp)
      · rw [hmore.2, ← hbefore]
        simp [Except.isOk, Except.toBool]
      · exact fun value hvalue => (Except.ok.inj hvalue).symm
  · obtain ⟨rfl, -⟩ | rfl := h
    · have hquiet : creations before = [] := by
        have hcourse := congrArg creations hbefore
        rw [creations_append, creations_course] at hcourse
        exact (List.append_eq_nil_iff.mp hcourse).1
      exact .inl ⟨by rw [creations_append, hquiet]; rfl, problem, rfl, .inl ((anyFails_of_eq rfl).append before)⟩
    · refine .inr ⟨solved, first, second, rfl, ?_, fun value hvalue => absurd hvalue (by simp)⟩
      rw [← hbefore, List.append_assoc]
      rfl

/-- **Solving a question, call by call.** Whatever fails before the store is reached ends the request. -/
theorem solve_ensures (question : String) :
    (solver.solve outside question).Ensures (solver.Solves outside question) := by
  have htranscribe : ∀ text (result : Except Problem String) events,
      (∃ succeeded, events = solver.transcriptionEvents text succeeded
        ∧ (result.isOk = false → AnyFails events)) → creations events = [] := by
    rintro text result _ ⟨succeeded, rfl, -⟩
    exact solver.creations_transcriptionEvents text succeeded
  have hfails : ∀ {problem : Problem} {events : List Event} (before : List Event), AnyFails events →
      HasCause outside question problem (before ++ events) := fun before h => .inl (h.append before)
  have hstart : creations [] = [] := rfl
  -- Five calls in front of the store, each of which is the only cause when it fails.
  unfold solve
  refine step_ensures hstart (solver.classify_ensures outside question) (fun _ _ h => by rw [h]; rfl)
    (fun _ _ h => hfails _ (anyFails_of_eq h)) fun questionType classified hclassified hfirst => ?_
  refine step_ensures hfirst (solution_ensures outside question) (fun _ _ h => by rw [h]; rfl)
    (fun _ _ h => hfails _ (anyFails_of_eq h)) fun solution answered hanswered hsecond => ?_
  refine step_ensures hsecond (solver.transcribe_ensures outside question) (htranscribe question)
    (fun _ _ h => hfails _ (h.choose_spec.2 rfl)) fun questionAsciiMath third hthird hthird' => ?_
  refine step_ensures hthird' (solver.transcribe_ensures outside solution) (htranscribe solution)
    (fun _ _ h => hfails _ (h.choose_spec.2 rfl)) fun solutionAsciiMath fourth hfourth hfourth' => ?_
  refine step_ensures hfourth' (embed_ensures outside question) (fun _ _ h => by rw [h.1]; rfl)
    (fun _ _ h => hfails _ (anyFails_of_eq h.1)) fun vector embedded hembedded hfifth => ?_
  obtain ⟨rfl, hbrings⟩ := hembedded
  -- The check of the embedding makes no call; what it finds is a fault of the vector that has been brought.
  have hchecked : (Task.ofChecked "SolvedQuestion"
      ((SolvedQuestion.checkEmbedding (.list vector)).below (.field "embedding"))
        : Task σ (List Binary64)).Ensures fun result events => events = []
        ∧ ∀ problem, result = .error problem → ∃ errors, problem = .invalid "SolvedQuestion" errors
          ∧ (SolvedQuestion.checkEmbedding (.list vector)).below (.field "embedding") = .faulty errors :=
    Task.ensures_ofChecked (fun _ _ => ⟨rfl, nofun⟩) fun errors hfaulty =>
      ⟨rfl, fun problem hproblem => ⟨errors, (Except.error.inj hproblem).symm, hfaulty⟩⟩
  refine step_ensures hfifth hchecked (fun _ _ h => by rw [h.1]; rfl) (fun problem checked h => ?_)
    fun embedding checked hnothing _ => ?_
  · obtain ⟨errors, rfl, hfaulty⟩ := h.2 problem rfl
    have hvalue := (SolvedQuestion.checkEmbedding_faulty_iff vector).mp ⟨errors, hfaulty⟩
    exact .inr ⟨errors, rfl, ⟨vector, hbrings vector rfl, hvalue, hfaulty⟩, by simp [Except.isOk, Except.toBool]⟩
  · obtain ⟨first, rfl, -⟩ := hthird
    obtain ⟨second, rfl, -⟩ := hfourth
    refine solver.store_ensures outside (show _ = solver.course _ first second from ?_)
    rw [hclassified, hanswered, hnothing.1]
    simp [course, Except.isOk, Except.toBool]

/-! ## The other requests -/

/-- A call that creates nothing in the store. -/
def CreatesNothing (call : Call) : Prop :=
  call.creation? = none

/-- A call that creates nothing, made by itself. -/
theorem perform_createsNothing {call : Call} (h : call.creation? = none) :
    Task.MakesOnly CreatesNothing (Task.perform outside call) :=
  Task.makesOnly_perform outside h

theorem request_createsNothing {query : Query} (h : (Call.run query).creation? = none) :
    Task.MakesOnly CreatesNothing (solver.store.request outside query) :=
  (perform_createsNothing outside (by rfl)).bind fun _ => perform_createsNothing outside h

theorem embed_createsNothing (text : String) : Task.MakesOnly CreatesNothing (embed outside text) :=
  (perform_createsNothing outside (by rfl)).during

theorem readSimilar_createsNothing (records : List Fields) :
    Task.MakesOnly CreatesNothing (QuestionStore.readSimilar records : Task σ (List SimilarQuestion)) := by
  induction records with
  | nil => exact Task.makesOnly_pure
  | cons record records ih =>
    exact Task.makesOnly_ofChecked.bind fun _ => ih.bind fun _ => Task.makesOnly_pure

/-- `get_similar_questions` embeds and searches, and creates nothing. -/
theorem similar_createsNothing (question : String) :
    Task.MakesOnly CreatesNothing (solver.similar outside question) := by
  refine (embed_createsNothing outside question).bind fun vector => ?_
  have hnearest : Task.MakesOnly CreatesNothing (solver.store.nearest outside vector solver.topK) :=
    (solver.request_createsNothing outside (by rfl)).bind fun records =>
      Task.makesOnly_log.bind fun _ => readSimilar_createsNothing records
  exact hnearest.during.bind fun _ => Task.makesOnly_log.bind fun _ => Task.makesOnly_pure

theorem classify_createsNothing (question : String) :
    Task.MakesOnly CreatesNothing (solver.classify outside question) :=
  (perform_createsNothing outside (by rfl)).during.bind fun _ => Task.makesOnly_pure

section Reading

variable {allowed : Call → Prop}

/-- A transcription makes no call but to ask a model. -/
theorem transcribe_makesOnly (hask : ∀ model messages, allowed (.ask model messages)) (text : String) :
    Task.MakesOnly allowed (solver.transcribe outside text) := by
  refine (solver.transcribe_ensures outside text).mono fun _ events h => ?_
  obtain ⟨succeeded, rfl, -⟩ := h
  unfold transcriptionEvents
  split
  · exact nofun
  · split
    · exact nofun
    · exact List.forall_mem_singleton.mpr (hask _ _)

theorem valueOf_makesOnly (record : Fields) (name : String) :
    Task.MakesOnly allowed (valueOf record name : Task σ Value) := by
  unfold valueOf
  split
  · exact Task.makesOnly_pure
  · exact Task.makesOnly_throw

theorem textOf_makesOnly (value : Value) : Task.MakesOnly allowed (textOf value : Task σ String) := by
  unfold textOf
  split
  · exact Task.makesOnly_pure
  · split
    · exact Task.makesOnly_pure
    · exact Task.makesOnly_throw

/-- The transcription of a field asks a model at most. -/
theorem transcribeValue_makesOnly (hask : ∀ model messages, allowed (.ask model messages)) (record : Fields)
    (name : String) : Task.MakesOnly allowed (solver.transcribeValue outside record name) :=
  (valueOf_makesOnly record name).bind fun value =>
    (textOf_makesOnly value).bind fun text => solver.transcribe_makesOnly outside hask text

end Reading

theorem backfillRecords_createsNothing (records : List Fields) :
    Task.MakesOnly CreatesNothing (solver.backfillRecords outside records) := by
  induction records with
  | nil => exact Task.makesOnly_pure
  | cons record records ih =>
    have hrecord : Task.MakesOnly CreatesNothing (solver.backfillRecord outside record) :=
      (valueOf_makesOnly record "id").bind fun _ =>
        (solver.transcribeValue_makesOnly outside (fun _ _ => rfl) record "question").bind fun _ =>
          (solver.transcribeValue_makesOnly outside (fun _ _ => rfl) record "solution").bind fun _ =>
            (solver.request_createsNothing outside (by rfl)).bind fun _ => Task.makesOnly_pure
    exact hrecord.bind fun _ => ih

/-- `backfill_transcriptions` updates records, and creates none. -/
theorem backfill_createsNothing : Task.MakesOnly CreatesNothing (solver.backfill outside) := by
  have hpending : Task.MakesOnly CreatesNothing (solver.store.untranscribed outside) :=
    (solver.request_createsNothing outside (by rfl)).bind fun _ =>
      Task.makesOnly_log.bind fun _ => Task.makesOnly_pure
  have hall := hpending.bind fun pending =>
    (solver.backfillRecords_createsNothing outside pending).bind fun _ =>
      (Task.makesOnly_pure : Task.MakesOnly CreatesNothing (pure pending.length : Task σ Nat))
  exact hall.during.bind fun _ => Task.makesOnly_log.bind fun _ => Task.makesOnly_pure

/-! ## Requests of all kinds -/

/-- What a request has to do with the store. -/
structure StoresWhenSolved (request : SolverRequest) (result : Except Problem SolverAnswer)
    (events : List Event) : Prop where
  /-- No request but the one to solve a question tries to create one. -/
  others : (∀ question, request ≠ .solve question) → creations events = []
  /-- One request tries it once at most. -/
  once : (creations events).length ≤ 1
  /-- It is the last thing to be tried, behind the whole way of the question. -/
  course : ∀ attempt ∈ creations events, ∃ question first second,
    request = .solve question ∧ attempt.1.question = question
      ∧ events = solver.course attempt.1 first second ++ [⟨.run (.create attempt.1), attempt.2⟩]
  /-- A question is returned if and only if it has been stored, as it has been returned. -/
  returns : ∀ solved, result = .ok (.solved solved) ↔ solved ∈ stored events
  /-- A request to solve a question returns nothing else. -/
  answers : ∀ question answer, request = .solve question → result = .ok answer →
    ∃ solved, answer = .solved solved
  /-- It fails only when a call has failed or the embedding is no row of numbers. -/
  failure : ∀ question problem, request = .solve question → result = .error problem →
    HasCause outside question problem events

/-- What is known about the events of `solve_question` is what the statement about all requests asks for.
-/
theorem Solves.storesWhenSolved {question : String} {result : Except Problem SolvedQuestion}
    {events : List Event} {outside : Outside σ} {solver : Solver} (h : solver.Solves outside question result events) :
    solver.StoresWhenSolved outside (.solve question) (result.map .solved) events := by
  -- A request that fails on its way creates nothing, one that goes all the way creates once.
  obtain ⟨hnothing, problem, rfl, hcause⟩ | ⟨solved, first, second, hquestion, rfl, hvalue⟩ := h
  · refine ⟨fun _ => hnothing, by rw [hnothing]; exact Nat.zero_le 1, ?_, fun solved => ?_, nofun, ?_⟩
    · rw [hnothing]
      exact nofun
    · simp [stored, hnothing, Except.map]
    · intro question' problem' hquestion hproblem
      cases hquestion
      cases hproblem
      exact hcause
  · have hcreations : creations (solver.course solved first second
        ++ [⟨.run (.create solved), result.isOk⟩]) = [(solved, result.isOk)] := by
      rw [creations_append, creations_course]
      rfl
    refine ⟨fun hne => absurd rfl (hne question), by rw [hcreations]; exact Nat.le_refl 1, ?_, fun value => ?_,
      ?_, ?_⟩
    · rw [hcreations]
      refine List.forall_mem_singleton.mpr ⟨question, first, second, rfl, hquestion, rfl⟩
    · rw [stored, hcreations]
      cases result with
      | ok returned =>
        obtain rfl := hvalue returned rfl
        simp [Except.map, Except.isOk, Except.toBool, eq_comm]
      | error problem => simp [Except.map, Except.isOk, Except.toBool]
    · rintro question' answer - hanswer
      cases result with
      | ok returned => exact ⟨returned, (Except.ok.inj hanswer).symm⟩
      | error problem => cases hanswer
    · intro question' problem _ hproblem
      cases result with
      | ok returned => cases hproblem
      | error problem => exact .inl ((anyFails_of_eq rfl).append _)

/-- A request that creates nothing and answers otherwise. -/
theorem storesWhenSolved_of_createsNothing {α : Type} {task : Task σ α} {answer : α → SolverAnswer}
    {request : SolverRequest} (hrequest : ∀ question, request ≠ .solve question)
    (hanswer : ∀ value solved, answer value ≠ .solved solved) (h : Task.MakesOnly CreatesNothing task) :
    (answer <$> task).Ensures (solver.StoresWhenSolved outside request) := by
  refine Task.Ensures.map (h.mono fun result events hevents => ?_)
  have hnothing : creations events = [] := creations_of_forall hevents
  refine ⟨fun _ => hnothing, by rw [hnothing]; exact Nat.zero_le 1, ?_, fun solved => ?_, ?_, ?_⟩
  · rw [hnothing]
    exact nofun
  · cases result with
    | ok value => simp [stored, hnothing, Except.map, hanswer]
    | error problem => simp [stored, hnothing, Except.map]
  · exact fun question _ hsolve => absurd hsolve (hrequest question)
  · exact fun question _ hsolve => absurd hsolve (hrequest question)

/-- **One request stores what it has solved, and nothing else.** -/
theorem carryOut_ensures (request : SolverRequest) :
    (solver.carryOut outside request).Ensures (solver.StoresWhenSolved outside request) := by
  cases request with
  | solve question =>
    exact Task.Ensures.map ((solver.solve_ensures outside question).mono fun _ _ h => h.storesWhenSolved)
  | similar question =>
    exact solver.storesWhenSolved_of_createsNothing outside nofun nofun (solver.similar_createsNothing outside question)
  | classify question =>
    exact solver.storesWhenSolved_of_createsNothing outside nofun nofun (solver.classify_createsNothing outside question)
  | embed text =>
    exact solver.storesWhenSolved_of_createsNothing outside nofun nofun (embed_createsNothing outside text)
  | transcribe text =>
    exact solver.storesWhenSolved_of_createsNothing outside nofun nofun
      (solver.transcribe_makesOnly outside (fun _ _ => rfl) text)
  | backfill =>
    exact solver.storesWhenSolved_of_createsNothing outside nofun nofun (solver.backfill_createsNothing outside)

/-! ## A service at work -/

/-- A request with how it has ended. -/
abbrev Outcome :=
  SolverRequest × Except Problem SolverAnswer

/-- The question that a request has brought, if it has solved one. -/
def Outcome.solved? (outcome : Outcome) : Option SolvedQuestion :=
  match outcome.2 with
  | .ok (.solved solved) => some solved
  | _ => none

/-- A request has solved a question exactly when it returns one. -/
theorem Outcome.solved?_eq_some_iff {request : SolverRequest} {result : Except Problem SolverAnswer}
    {solved : SolvedQuestion} :
    Outcome.solved? (request, result) = some solved ↔ result = .ok (.solved solved) := by
  unfold Outcome.solved?
  split
  · next heq =>
    obtain rfl : result = _ := heq
    simp
  · next hne => exact ⟨nofun, fun heq => absurd heq (hne solved)⟩

/-- A request to solve a question that has returned. -/
def Outcome.returnsSolved (outcome : Outcome) : Bool :=
  match outcome with
  | (.solve _, result) => result.isOk
  | _ => false

/-- Carry out requests one after another. One that fails does not keep the next one from being carried
out. -/
def carryOutAll : List SolverRequest → World σ → List Outcome × World σ
  | [], world => ([], world)
  | request :: requests, world =>
    let (result, next) := (solver.carryOut outside request).start world
    let (outcomes, final) := carryOutAll requests next
    ((request, result) :: outcomes, final)

namespace StoresWhenSolved

variable {request : SolverRequest} {result : Except Problem SolverAnswer} {events : List Event}
  {outside : Outside σ} {solver : Solver}

/-- What a request stores is what it returns. -/
theorem stored_eq (h : solver.StoresWhenSolved outside request result events) :
    stored events = (Outcome.solved? (request, result)).toList := by
  have hlength : (stored events).length ≤ 1 := by
    rw [stored, List.length_map]
    exact Nat.le_trans (List.length_filter_le _ _) h.once
  cases hstored : stored events with
  | nil =>
    cases hsolved : Outcome.solved? (request, result) with
    | none => rfl
    | some solved =>
      have hmem := (h.returns solved).mp (Outcome.solved?_eq_some_iff.mp hsolved)
      rw [hstored] at hmem
      cases hmem
  | cons solved others =>
    have hothers : others = [] := by
      rw [hstored, List.length_cons] at hlength
      exact List.eq_nil_of_length_eq_zero (by omega)
    have hresult : result = .ok (.solved solved) := (h.returns solved).mpr (by simp [hstored])
    rw [hothers, hresult]
    rfl

/-- A request to solve a question returns if and only if it brings one. -/
theorem returnsSolved_eq (h : solver.StoresWhenSolved outside request result events) :
    Outcome.returnsSolved (request, result) = (Outcome.solved? (request, result)).isSome := by
  cases result with
  | error problem => cases request <;> rfl
  | ok answer =>
    cases request with
    | solve question =>
      obtain ⟨solved, rfl⟩ := h.answers question answer rfl rfl
      rfl
    | _ =>
      cases hsolved : Outcome.solved? (_, .ok answer) with
      | none => rfl
      | some solved =>
        have hmem := (h.returns solved).mp (Outcome.solved?_eq_some_iff.mp hsolved)
        rw [stored, h.others nofun] at hmem
        cases hmem

end StoresWhenSolved

/-- Requests that are carried out one after another leave their events one behind the other. The induction is
on the requests, from any world. -/
theorem carryOutAll_parts (requests : List SolverRequest) :
    ∀ world : World σ, ∃ parts : List (List Event),
      (solver.carryOutAll outside requests world).2.journal.events = world.journal.events ++ parts.flatten
        ∧ (solver.carryOutAll outside requests world).1.map Prod.fst = requests
        ∧ List.Forall₂ (fun outcome events => solver.StoresWhenSolved outside outcome.1 outcome.2 events)
          (solver.carryOutAll outside requests world).1 parts := by
  induction requests with
  | nil => exact fun world => ⟨[], (List.append_nil _).symm, rfl, .nil⟩
  | cons request requests ih =>
    intro world
    obtain ⟨events, hevents, hrequest⟩ := solver.carryOut_ensures outside request world
    obtain ⟨parts, hparts, hrequests, hall⟩ := ih ((solver.carryOut outside request).start world).2
    refine ⟨events :: parts, ?_, congrArg (request :: ·) hrequests, .cons hrequest hall⟩
    rw [carryOutAll, hparts, hevents, List.flatten_cons, List.append_assoc]

section Outcomes

variable {outside : Outside σ} {solver : Solver} {outcomes : List Outcome} {parts : List (List Event)}

/-- What is stored in the course of requests is what they bring. -/
theorem stored_flatten
    (h : List.Forall₂ (fun outcome events => solver.StoresWhenSolved outside outcome.1 outcome.2 events) outcomes parts) :
    stored parts.flatten = outcomes.filterMap Outcome.solved? := by
  induction h with
  | nil => rfl
  | cons hfirst _ ih =>
    rw [List.flatten_cons, stored_append, hfirst.stored_eq, ih, List.filterMap_cons]
    cases Outcome.solved? _ <;> rfl

/-- The requests that bring a solved question are those to solve one that return. -/
theorem countP_returnsSolved
    (h : List.Forall₂ (fun outcome events => solver.StoresWhenSolved outside outcome.1 outcome.2 events) outcomes parts) :
    outcomes.countP Outcome.returnsSolved = (outcomes.filterMap Outcome.solved?).length := by
  induction h with
  | nil => rfl
  | @cons outcome events outcomes parts hfirst _ ih =>
    rw [List.countP_cons, ih, hfirst.returnsSolved_eq, List.filterMap_cons]
    cases Outcome.solved? outcome <;> rfl

end Outcomes

/-- **A question is stored exactly when it has been solved.** Whatever the collaborators answer and wherever
they fail, each request does with the store what `StoresWhenSolved` says: only `solve_question` tries to create
it, once at most, when everything before has succeeded; it returns if and only if the question has been stored,
and what is stored is what it returns. So the questions that have been stored in the course of requests of all
kinds are those that have been returned, in the same order and number, each with its six fields. -/
theorem stored_iff_solved (requests : List SolverRequest) (world : World σ) :
    ∃ parts : List (List Event),
      (solver.carryOutAll outside requests world).2.journal.events = world.journal.events ++ parts.flatten
        ∧ (solver.carryOutAll outside requests world).1.map Prod.fst = requests
        ∧ List.Forall₂ (fun outcome events => solver.StoresWhenSolved outside outcome.1 outcome.2 events)
          (solver.carryOutAll outside requests world).1 parts
        ∧ stored parts.flatten = (solver.carryOutAll outside requests world).1.filterMap Outcome.solved?
        ∧ (stored parts.flatten).length
          = (solver.carryOutAll outside requests world).1.countP Outcome.returnsSolved
        ∧ ∀ solved ∈ stored parts.flatten, (Query.create solved).parameters = some
          [("questionType", .text solved.questionType), ("question", .text solved.question),
            ("solution", .text solved.solution), ("embedding", .list (solved.embedding.map .real)),
            ("questionNotation", .text solved.questionAsciiMath),
            ("solutionNotation", .text solved.solutionAsciiMath)] := by
  obtain ⟨parts, hevents, hrequests, hparts⟩ := solver.carryOutAll_parts outside requests world
  have hstored := stored_flatten hparts
  refine ⟨parts, hevents, hrequests, hparts, hstored, ?_, fun _ _ => rfl⟩
  rw [hstored, countP_returnsSolved hparts]

end Solver

end MathScribe

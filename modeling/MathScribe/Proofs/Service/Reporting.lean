/-
The problems that the solver reports.

A collaborator may fail at any call and may bring values of every shape. Whoever makes a request of the solver wants
to meet one kind of problem all the same, the one that names what the solver was busy with. So every call is made as
part of an activity, and so is nearly everything that is done with the values that come back: an activity gives every
problem the one kind (`Task.FailsOnly.during`), whatever it was.

One step stands outside of all activities. A solved question is put together out of checked values, and the check of
the embedding stops the request with the faults that it has found. `Solver.unreported_iff` says that nothing else
escapes: a problem that is not reported comes of a question for which the embedding model has brought a vector with a
value that is no number, when everything in front of the embedding has succeeded; and every such question ends so.
-/
import MathScribe.Proofs.Service.Trace
import MathScribe.Service.Script
import MathScribe.Service.Solver

set_option autoImplicit false

namespace MathScribe

namespace Solver

variable {σ : Type} (outside : Outside σ) (solver : Solver)

/-- A problem that the solver reports. -/
def Reported (problem : Problem) : Prop :=
  problem.isReported = true

/-! ## What stops the parts -/

section Parts

variable {outside} (hcalls : Uninterrupted outside)

include hcalls

/-- `_classify_question` wraps whatever its model raises. -/
theorem classify_failsOnly (question : String) : Task.FailsOnly Reported (solver.classify outside question) :=
  (Task.failsOnly_perform hcalls _).during.bind fun _ => Task.failsOnly_pure

/-- `_get_solution` wraps whatever its model raises. -/
theorem solution_failsOnly (question : String) : Task.FailsOnly Reported (solution outside question) :=
  (Task.failsOnly_perform hcalls _).during.bind fun _ => Task.failsOnly_pure

/-- `_embed` wraps whatever its model raises. -/
theorem embed_failsOnly (text : String) : Task.FailsOnly Reported (embed outside text) :=
  (Task.failsOnly_perform hcalls _).during

/-- Nothing stops a transcription: where the model fails, the rules do the work. -/
theorem transcribe_failsOnly (text : String) :
    Task.FailsOnly (fun _ => False) (solver.transcribe outside text) := by
  unfold transcribe Transcription.ofText
  cases solver.transcriber with
  | none => exact Task.failsOnly_pure
  | some model =>
    refine Task.FailsOnly.bind ?_ fun _ => Task.failsOnly_pure
    unfold Transcription.byModel
    split
    · exact Task.failsOnly_pure
    · exact (((Task.failsOnly_perform hcalls _).map some).rescue fun _ =>
        Task.failsOnly_log.bind fun _ => Task.failsOnly_pure).bind fun _ => Task.failsOnly_pure

/-- A request to the database may fail with anything; it is the callers that wrap it. -/
theorem request_failsOnly (query : Query) :
    Task.FailsOnly (· ≠ .interrupted) (solver.store.request outside query) :=
  (Task.failsOnly_perform hcalls _).bind fun _ => Task.failsOnly_perform hcalls _

/-- The creation is wrapped where it is asked for. -/
theorem create_failsOnly (solved : SolvedQuestion) :
    Task.FailsOnly Reported (Task.during .storing (solver.store.create outside solved)) :=
  ((solver.request_failsOnly hcalls _).bind fun _ => Task.failsOnly_log).during

omit hcalls in
/-- A record of the wrong form fails the check of `SimilarQuestion`, inside the `try` of its caller. -/
theorem readSimilar_failsOnly (records : List Fields) :
    Task.FailsOnly (· ≠ .interrupted) (QuestionStore.readSimilar records : Task σ (List SimilarQuestion)) := by
  induction records with
  | nil => exact Task.failsOnly_pure
  | cons record records ih =>
    exact (Task.failsOnly_ofChecked fun _ => nofun).bind fun _ => ih.bind fun _ => Task.failsOnly_pure

/-- `get_similar_questions` checks the records inside its `try`, so that their faults are reported. This
is what `solve_question` does not do. -/
theorem similar_failsOnly (question : String) : Task.FailsOnly Reported (solver.similar outside question) := by
  refine (embed_failsOnly hcalls question).bind fun vector => ?_
  have hnearest : Task.FailsOnly (· ≠ .interrupted) (solver.store.nearest outside vector solver.topK) :=
    (solver.request_failsOnly hcalls _).bind fun records =>
      Task.failsOnly_log.bind fun _ => readSimilar_failsOnly records
  exact hnearest.during.bind fun _ => Task.failsOnly_log.bind fun _ => Task.failsOnly_pure

omit hcalls in
/-- Reading a field fails when the record lacks it, and with nothing that interrupts. -/
theorem valueOf_failsOnly (record : Fields) (name : String) :
    Task.FailsOnly (· ≠ .interrupted) (valueOf record name : Task σ Value) := by
  unfold valueOf
  split
  · exact Task.failsOnly_pure
  · exact Task.failsOnly_throw nofun

omit hcalls in
/-- Taking a field for a text fails when it is another kind of value. -/
theorem textOf_failsOnly (value : Value) : Task.FailsOnly (· ≠ .interrupted) (textOf value : Task σ String) := by
  unfold textOf
  split
  · exact Task.failsOnly_pure
  · split
    · exact Task.failsOnly_pure
    · exact Task.failsOnly_throw nofun

/-- The transcription of one field may fail with anything; it is the whole backfill that is wrapped. -/
theorem transcribeValue_failsOnly (record : Fields) (name : String) :
    Task.FailsOnly (· ≠ .interrupted) (solver.transcribeValue outside record name) :=
  (valueOf_failsOnly record name).bind fun value => (textOf_failsOnly value).bind fun text =>
    (solver.transcribe_failsOnly hcalls text).mono fun _ => False.elim

/-- Going over the records fails with anything but an interruption, by induction on them. -/
theorem backfillRecords_failsOnly (records : List Fields) :
    Task.FailsOnly (· ≠ .interrupted) (solver.backfillRecords outside records) := by
  induction records with
  | nil => exact Task.failsOnly_pure
  | cons record records ih =>
    have hrecord : Task.FailsOnly (· ≠ .interrupted) (solver.backfillRecord outside record) :=
      (valueOf_failsOnly record "id").bind fun _ =>
        (solver.transcribeValue_failsOnly hcalls record "question").bind fun _ =>
          (solver.transcribeValue_failsOnly hcalls record "solution").bind fun _ =>
            (solver.request_failsOnly hcalls _).bind fun _ => Task.failsOnly_pure
    exact hrecord.bind fun _ => ih

/-- `backfill_transcriptions` wraps the whole run. -/
theorem backfill_failsOnly : Task.FailsOnly Reported (solver.backfill outside) := by
  have hpending : Task.FailsOnly (· ≠ .interrupted) (solver.store.untranscribed outside) :=
    (solver.request_failsOnly hcalls _).bind fun _ => Task.failsOnly_log.bind fun _ => Task.failsOnly_pure
  have hall := hpending.bind fun pending =>
    (solver.backfillRecords_failsOnly hcalls pending).bind fun _ =>
      (Task.failsOnly_pure : Task.FailsOnly (· ≠ .interrupted) (pure pending.length : Task σ Nat))
  exact hall.during.bind fun _ => Task.failsOnly_log.bind fun _ => Task.failsOnly_pure

end Parts

/-! ## The check of the embedding -/

/-- A question is placed, solved and written in ASCIIMath together with its solution, and the embedding model brings a
vector for it in which a value is no number. -/
def EmbedsFaulty (question : String) (world : World σ) : Prop :=
  ∃ questionType solved first second vector classified answered half ready embedded,
    (solver.classify outside question).start world = (.ok questionType, classified)
      ∧ (solution outside question).start classified = (.ok solved, answered)
      ∧ (solver.transcribe outside question).start answered = (.ok first, half)
      ∧ (solver.transcribe outside solved).start half = (.ok second, ready)
      ∧ (embed outside question).start ready = (.ok vector, embedded)
      ∧ ∃ value ∈ vector, ∃ fault, value.toReal = .error fault

/-- **How solving a question escapes.** -/
theorem solve_unreported_iff {outside : Outside σ} (hcalls : Uninterrupted outside) (question : String)
    (world : World σ) :
    (∃ problem, ((solver.solve outside question).start world).1 = .error problem ∧ ¬Reported problem)
      ↔ solver.EmbedsFaulty outside question world := by
  constructor
  · rintro ⟨problem, hresult, hunreported⟩
    obtain ⟨final, hstart⟩ : ∃ final, (solver.solve outside question).start world = (.error problem, final) :=
      ⟨_, Prod.ext hresult rfl⟩
    have hreported : ∀ {α : Type} {task : Task σ α} {before : World σ}, Task.FailsOnly Reported task →
        task.start before ≠ (.error problem, final) := fun htask hfails =>
      hunreported (htask.of_start hfails)
    -- The calls in the order they are made. A failure of any of them is reported, so the request has gone
    -- beyond it.
    unfold solve at hstart
    obtain hfails | ⟨questionType, classified, hclassified, hstart⟩ := Task.start_bind_eq_error hstart
    · exact absurd hfails (hreported (solver.classify_failsOnly hcalls question))
    obtain hfails | ⟨solved, answered, hanswered, hstart⟩ := Task.start_bind_eq_error hstart
    · exact absurd hfails (hreported (solution_failsOnly hcalls question))
    obtain hfails | ⟨first, half, hhalf, hstart⟩ := Task.start_bind_eq_error hstart
    · exact ((solver.transcribe_failsOnly hcalls question).of_start hfails).elim
    obtain hfails | ⟨second, ready, hready, hstart⟩ := Task.start_bind_eq_error hstart
    · exact ((solver.transcribe_failsOnly hcalls solved).of_start hfails).elim
    obtain hfails | ⟨vector, embedded, hembedded, hstart⟩ := Task.start_bind_eq_error hstart
    · exact absurd hfails (hreported (embed_failsOnly hcalls question))
    obtain hfails | ⟨embedding, checked, -, hstart⟩ := Task.start_bind_eq_error hstart
    · refine ⟨questionType, solved, first, second, vector, classified, answered, half, ready, embedded, hclassified,
        hanswered, hhalf, hready, hembedded, (SolvedQuestion.checkEmbedding_faulty_iff vector).mp ?_⟩
      cases hcheck : (SolvedQuestion.checkEmbedding (.list vector)).below (.field "embedding") with
      | ok embedding =>
        rw [hcheck] at hfails
        cases hfails
      | faulty errors => exact ⟨errors, rfl⟩
    · -- Behind the check everything is part of an activity.
      refine absurd hstart (hreported ?_)
      exact (solver.create_failsOnly hcalls _).bind fun _ => Task.failsOnly_log.bind fun _ => Task.failsOnly_pure
  · rintro ⟨questionType, solved, first, second, vector, classified, answered, half, ready, embedded, hclassified,
      hanswered, hhalf, hready, hembedded, hfault⟩
    -- The other way the run is followed forwards, up to the check that fails.
    obtain ⟨errors, hcheck⟩ := (SolvedQuestion.checkEmbedding_faulty_iff vector).mpr hfault
    refine ⟨.invalid "SolvedQuestion" errors, ?_, nofun⟩
    rw [solve]
    simp only [Task.start_bind, hclassified, hanswered, hhalf, hready, hembedded, hcheck]
    rfl

/-- What stops a question from being solved is reported, or it is the list of the faults of its embedding. -/
theorem solve_failsOnly {outside : Outside σ} (hcalls : Uninterrupted outside) (question : String) :
    Task.FailsOnly (fun problem => Reported problem ∨ ∃ errors, problem = .invalid "SolvedQuestion" errors)
      (solver.solve outside question) := by
  refine ((solver.classify_failsOnly hcalls question).mono fun _ => .inl).bind fun questionType => ?_
  refine ((solution_failsOnly hcalls question).mono fun _ => .inl).bind fun solved => ?_
  refine ((solver.transcribe_failsOnly hcalls question).mono fun _ => False.elim).bind fun first => ?_
  refine ((solver.transcribe_failsOnly hcalls solved).mono fun _ => False.elim).bind fun second => ?_
  refine ((embed_failsOnly hcalls question).mono fun _ => .inl).bind fun vector => ?_
  refine (Task.failsOnly_ofChecked fun errors => .inr ⟨errors, rfl⟩).bind fun embedding => ?_
  refine ((solver.create_failsOnly hcalls _).mono fun _ => .inl).bind fun _ => ?_
  exact Task.failsOnly_log.bind fun _ => Task.failsOnly_pure

/-! ## Requests of all kinds -/

section Requests

variable {outside : Outside σ} (hcalls : Uninterrupted outside)

include hcalls

/-- Every request but the one to solve a question reports what stops it. -/
theorem carryOut_failsOnly {request : SolverRequest} (hrequest : ∀ question, request ≠ .solve question) :
    Task.FailsOnly Reported (solver.carryOut outside request) := by
  cases request with
  | solve question => exact absurd rfl (hrequest question)
  | similar question => exact (solver.similar_failsOnly hcalls question).map _
  | classify question => exact (solver.classify_failsOnly hcalls question).map _
  | embed text => exact (embed_failsOnly hcalls text).map _
  | transcribe text => exact ((solver.transcribe_failsOnly hcalls text).mono fun _ => False.elim).map _
  | backfill => exact (solver.backfill_failsOnly hcalls).map _

/-- **Nothing escapes the solver but a faulty embedding.** The collaborators may fail at any call and bring anything,
as long as nobody interrupts them. A problem that stops a request is one that the solver reports, or it lists the
faults of a solved question. And a problem escapes in the second way exactly when a question is to be solved,
everything in front of its embedding succeeds, and the embedding model brings a vector in which a value is no
number. -/
theorem unreported_iff (request : SolverRequest) (world : World σ) :
    (∀ problem, ((solver.carryOut outside request).start world).1 = .error problem →
        Reported problem ∨ ∃ errors, problem = .invalid "SolvedQuestion" errors)
      ∧ ((∃ problem, ((solver.carryOut outside request).start world).1 = .error problem ∧ ¬Reported problem)
        ↔ ∃ question, request = .solve question ∧ solver.EmbedsFaulty outside question world) := by
  by_cases hsolve : ∃ question, request = .solve question
  · obtain ⟨question, rfl⟩ := hsolve
    have hresult : ∀ problem, ((solver.carryOut outside (.solve question)).start world).1 = .error problem
        ↔ ((solver.solve outside question).start world).1 = .error problem := fun problem => by
      rw [carryOut, Task.start_map]
      cases ((solver.solve outside question).start world).1 <;> simp [Except.map]
    simp only [hresult, solver.solve_unreported_iff hcalls, SolverRequest.solve.injEq, exists_eq_left', and_true]
    exact fun problem hproblem => (solver.solve_failsOnly hcalls question).of_start (Prod.ext hproblem rfl)
  · have hreported : ∀ problem, ((solver.carryOut outside request).start world).1 = .error problem →
        Reported problem := fun problem hproblem =>
      (solver.carryOut_failsOnly hcalls (not_exists.mp hsolve)).of_start (Prod.ext hproblem rfl)
    refine ⟨fun problem hproblem => .inl (hreported problem hproblem), ?_, ?_⟩
    · rintro ⟨problem, hproblem, hunreported⟩
      exact absurd (hreported problem hproblem) hunreported
    · rintro ⟨question, hquestion, -⟩
      exact absurd ⟨question, hquestion⟩ hsolve

end Requests

/-- A solver that asks one model for everything. -/
def standardSolver : Solver :=
  ⟨.standard, .solver, none, QuestionStore.standardCount⟩

/-- Collaborators of which none fails, but the embedding model brings null. -/
def numberless : Outside Unit := fun call _ =>
  match call with
  | .ask .. => (.ok "algebra", ())
  | .embed _ => (.ok [.null], ())
  | .run _ => (.ok [], ())
  | .prepareModel _ | .prepareEmbedding _ | .connect .. | .openSession _ | .close => (.ok (), ())

/-- The theorem at `numberless`: nobody interrupts the work, and what stops the request is not reported. -/
theorem unreported_iff_numberless :
    Uninterrupted numberless
      ∧ ∃ problem, ((standardSolver.carryOut numberless (.solve "x?")).start ⟨(), .empty⟩).1 = .error problem
        ∧ ¬Reported problem := by
  have hcalls : Uninterrupted numberless := by
    intro call state
    cases call <;> exact nofun
  refine ⟨hcalls, (unreported_iff standardSolver hcalls (.solve "x?") _).2.mpr ⟨"x?", rfl, ?_⟩⟩
  exact ⟨_, _, _, _, _, _, _, _, _, _, rfl, rfl, rfl, rfl, rfl, .null, List.mem_singleton_self _, _, rfl⟩

/-- Collaborators of which none fails, and an embedding with a value that is no number behind one that is. -/
def halfEmbedding : Script :=
  ⟨[.ok "x = 1"], [.ok "algebra"], [], [.ok [.real (.ofDecimal false 1 (-1)), .null]], [], none⟩

/-- The faults of the embedding escape, though no collaborator has failed. -/
theorem solving_escapes :
    ((carryOut Script.outside ⟨.standard, .classifier, none, QuestionStore.standardCount⟩ (.solve "x?")).start
        ⟨halfEmbedding, .empty⟩).1
      = .error (.invalid "SolvedQuestion" [⟨[.field "embedding", .index 1], .notReal⟩])
      ∧ ¬Reported (.invalid "SolvedQuestion" [⟨[.field "embedding", .index 1], .notReal⟩]) :=
  ⟨rfl, nofun⟩

end Solver

end MathScribe

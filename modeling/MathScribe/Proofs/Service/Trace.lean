/-
What tasks leave behind.

A task calls collaborators that may answer anything, so what it does cannot be foretold; but what it does and
how it ends hang together. `Task.Ensures` states such a connection: whatever the collaborators answer, the
task adds events to the journal, and its result and these events satisfy a condition. This file gives one rule
for each way of putting a task together. A proof about a task follows the text of the task with these rules
and never opens the monad.

A call that is made leaves one event, which tells whether the call has brought a reply
(`ensures_perform`). Log records leave none, and an activity only gives another name to a problem
(`Ensures.during`). Two conditions are used so often that they have rules of their own: that a task makes no call
but those of a kind (`Task.MakesOnly`), and that no problem stops it but those of a kind (`Task.FailsOnly`).
-/
import MathScribe.Service.Task

set_option autoImplicit false

namespace MathScribe

/-- What becomes of a problem that stops an activity. -/
def Problem.within (activity : Activity) : Problem → Problem
  | interrupted => interrupted
  | other => unsuccessful activity other.message

/-- Nobody interrupts the work: a call that brings no reply has failed for a reason. -/
def Uninterrupted {σ : Type} (outside : Outside σ) : Prop :=
  ∀ call state, (outside call state).1 ≠ .error .interrupted

namespace Task

variable {σ α β : Type}

/-! ## How tasks run -/

theorem start_pure_eq_iff {value value' : α} {world final : World σ} :
    (pure value : Task σ α).start world = (.ok value', final) ↔ value = value' ∧ world = final := by
  rw [show (pure value : Task σ α).start world = (.ok value, world) from rfl, Prod.mk.injEq, Except.ok.injEq]

/-- Two tasks one behind the other: the second starts in the world that the first leaves, and only if the
first gives a value. -/
theorem start_bind (task : Task σ α) (next : α → Task σ β) (world : World σ) :
    (task >>= next).start world
      = match task.start world with
        | (.ok value, world') => (next value).start world'
        | (.error problem, world') => (.error problem, world') := by
  rw [start, ExceptT.run_bind, StateT.run_bind, ← start]
  cases task.start world with
  | mk result world' => cases result <;> rfl

theorem start_map (change : α → β) (task : Task σ α) (world : World σ) :
    (change <$> task).start world = ((task.start world).1.map change, (task.start world).2) := by
  rw [map_eq_pure_bind, start_bind]
  cases task.start world with
  | mk result world' => cases result <;> rfl

/-- A problem is dealt with in the world that the failed task leaves; nothing it has done is undone. -/
theorem start_tryCatch (task : Task σ α) (deal : Problem → Task σ α) (world : World σ) :
    (tryCatch task deal).start world
      = match task.start world with
        | (.ok value, world') => (.ok value, world')
        | (.error problem, world') => (deal problem).start world' := by
  have h : (tryCatch task deal).start world
      = StateT.run (ExceptT.run (ExceptT.tryCatch task deal)) world := rfl
  rw [h, ExceptT.tryCatch, ExceptT.run_mk, StateT.run_bind,
    show StateT.run task world = task.start world from rfl]
  cases task.start world with
  | mk result world' => cases result <;> rfl

/-- `rescue` is an `except Exception`: it deals with every problem but an interruption, which passes
through it. -/
theorem start_rescue (task : Task σ α) (deal : Problem → Task σ α) (world : World σ) :
    (rescue task deal).start world
      = match task.start world with
        | (.ok value, world') => (.ok value, world')
        | (.error .interrupted, world') => (.error .interrupted, world')
        | (.error other, world') => (deal other).start world' := by
  rw [rescue, start_tryCatch]
  cases task.start world with
  | mk result world' =>
    cases result with
    | ok value => rfl
    | error problem => cases problem <;> rfl

/-- A problem that is not an interruption is dealt with. -/
theorem start_rescue_of_ne {task : Task σ α} {problem : Problem} {world world' : World σ}
    (deal : Problem → Task σ α) (h : task.start world = (.error problem, world'))
    (hproblem : problem ≠ .interrupted) : (rescue task deal).start world = (deal problem).start world' := by
  rw [start_rescue, h]
  cases problem <;> first | rfl | exact absurd rfl hproblem

/-- A call asks the collaborators, and keeps the call in the journal. -/
theorem start_perform (outside : Outside σ) (call : Call) (world : World σ) :
    (perform outside call).start world
      = ((outside call world.outside).1.mapError .ofFailure,
        ⟨(outside call world.outside).2,
          ⟨world.journal.events ++ [⟨call, (outside call world.outside).1.isOk⟩], world.journal.logs⟩⟩) := by
  have hget : (get : Task σ (World σ)).start world = (.ok world, world) := rfl
  simp only [perform, start_bind, hget]
  cases outside call world.outside with
  | mk answer state => cases answer <;> rfl

/-- A problem of an activity has another name. The log record about it is no event and concerns no
collaborator. -/
theorem start_during (activity : Activity) (task : Task σ α) (world : World σ) :
    ∃ final, (during activity task).start world
        = ((task.start world).1.mapError (Problem.within activity), final)
      ∧ final.outside = (task.start world).2.outside
      ∧ final.journal.events = (task.start world).2.journal.events := by
  rw [during, start_rescue]
  cases task.start world with
  | mk result world' =>
    cases result with
    | ok value => exact ⟨world', rfl, rfl, rfl⟩
    | error problem => cases problem <;> exact ⟨_, rfl, rfl, rfl⟩

/-- A row of tasks has been done: the first one, and then the others. -/
theorem start_bind_eq_ok_iff {task : Task σ α} {next : α → Task σ β} {world final : World σ} {value : β} :
    (task >>= next).start world = (.ok value, final)
      ↔ ∃ first middle, task.start world = (.ok first, middle) ∧ (next first).start middle = (.ok value, final) := by
  rw [start_bind]
  cases task.start world with
  | mk result middle =>
    cases result with
    | ok first => exact ⟨fun h => ⟨first, middle, rfl, h⟩, fun ⟨_, _, hfirst, h⟩ => by cases hfirst; exact h⟩
    | error problem => exact ⟨nofun, fun ⟨_, _, hfirst, _⟩ => nomatch hfirst⟩

/-- A row of tasks has been stopped: the first one, or one of the others. -/
theorem start_bind_eq_error {task : Task σ α} {next : α → Task σ β} {world final : World σ} {problem : Problem}
    (h : (task >>= next).start world = (.error problem, final)) :
    task.start world = (.error problem, final)
      ∨ ∃ first middle, task.start world = (.ok first, middle)
        ∧ (next first).start middle = (.error problem, final) := by
  rw [start_bind] at h
  cases hstart : task.start world with
  | mk result middle =>
    rw [hstart] at h
    cases result with
    | ok first => exact .inr ⟨first, middle, rfl, h⟩
    | error problem' =>
      cases h
      exact .inl rfl

/-! ## Results and events -/

/-- Whatever the collaborators answer, the task adds events to the journal, and its result and these events
satisfy a condition. -/
def Ensures (task : Task σ α) (post : Except Problem α → List Event → Prop) : Prop :=
  ∀ world, ∃ events, (task.start world).2.journal.events = world.journal.events ++ events
    ∧ post (task.start world).1 events

section Rules

variable {task : Task σ α} {post mid : Except Problem α → List Event → Prop}

/-- What a task ensures may be weakened. The lemmas about bigger tasks are stated with what their callers
need, not with what they do. -/
theorem Ensures.mono (h : task.Ensures mid) (himp : ∀ result events, mid result events → post result events) :
    task.Ensures post := by
  intro world
  obtain ⟨events, hevents, hmid⟩ := h world
  exact ⟨events, hevents, himp _ _ hmid⟩

theorem ensures_pure {value : α} (h : post (.ok value) []) : (pure value : Task σ α).Ensures post :=
  fun _ => ⟨[], (List.append_nil _).symm, h⟩

/-- A problem that is raised at once leaves no events. -/
theorem ensures_throw {problem : Problem} (h : post (.error problem) []) :
    (throw problem : Task σ α).Ensures post :=
  fun _ => ⟨[], (List.append_nil _).symm, h⟩

/-- One task after the other. The second one starts with the events of the first behind it; it does not start
when the first one has been stopped. -/
theorem Ensures.bind {next : α → Task σ β} {post : Except Problem β → List Event → Prop}
    (h : task.Ensures mid)
    (hok : ∀ value events, mid (.ok value) events →
      (next value).Ensures fun result more => post result (events ++ more))
    (herror : ∀ problem events, mid (.error problem) events → post (.error problem) events) :
    (task >>= next).Ensures post := by
  intro world
  obtain ⟨events, hevents, hmid⟩ := h world
  rw [start_bind]
  cases hstart : task.start world with
  | mk result world' =>
    rw [hstart] at hevents hmid
    cases result with
    | ok value =>
      obtain ⟨more, hmore, hpost⟩ := hok value events hmid world'
      refine ⟨events ++ more, ?_, hpost⟩
      rw [hmore, hevents, List.append_assoc]
    | error problem => exact ⟨events, hevents, herror problem events hmid⟩

/-- The value of a task, changed by a function. -/
theorem Ensures.map {change : α → β} {post : Except Problem β → List Event → Prop}
    (h : task.Ensures fun result events => post (result.map change) events) :
    (change <$> task).Ensures post := by
  rw [map_eq_pure_bind]
  refine h.bind (fun value events hmid => ensures_pure ?_) fun problem events hmid => hmid
  rw [List.append_nil]
  exact hmid

/-- A log record is no event. -/
theorem ensures_log {level : Level} {message : String} {post : Except Problem Unit → List Event → Prop}
    (h : post (.ok ()) []) : (log level message : Task σ Unit).Ensures post :=
  fun _ => ⟨[], (List.append_nil _).symm, h⟩

/-- A problem is dealt with behind the events that have led to it, unless it is an interruption. -/
theorem Ensures.rescue {deal : Problem → Task σ α} (h : task.Ensures mid)
    (hok : ∀ value events, mid (.ok value) events → post (.ok value) events)
    (hinterrupted : ∀ events, mid (.error .interrupted) events → post (.error .interrupted) events)
    (hdeal : ∀ problem events, problem ≠ .interrupted → mid (.error problem) events →
      (deal problem).Ensures fun result more => post result (events ++ more)) :
    (rescue task deal).Ensures post := by
  intro world
  obtain ⟨events, hevents, hmid⟩ := h world
  cases hstart : task.start world with
  | mk result world' =>
    rw [hstart] at hevents hmid
    cases result with
    | ok value =>
      rw [start_rescue, hstart]
      exact ⟨events, hevents, hok value events hmid⟩
    | error problem =>
      by_cases hproblem : problem = .interrupted
      · subst hproblem
        rw [start_rescue, hstart]
        exact ⟨events, hevents, hinterrupted events hmid⟩
      · obtain ⟨more, hmore, hpost⟩ := hdeal problem events hproblem hmid world'
        rw [start_rescue_of_ne deal hstart hproblem]
        refine ⟨events ++ more, ?_, hpost⟩
        rw [hmore, hevents, List.append_assoc]

/-- An activity gives a problem another name. -/
theorem Ensures.during {activity : Activity} (h : task.Ensures mid)
    (hok : ∀ value events, mid (.ok value) events → post (.ok value) events)
    (herror : ∀ problem events, mid (.error problem) events →
      post (.error (problem.within activity)) events) :
    (during activity task).Ensures post := by
  refine h.rescue hok (fun events hmid => herror .interrupted events hmid) ?_
  intro problem events hproblem hmid
  have hwithin : problem.within activity = .unsuccessful activity problem.message := by
    cases problem <;> first | rfl | exact absurd rfl hproblem
  have hlog : (log .error (Problem.unsuccessful activity problem.message).message : Task σ Unit).Ensures
      fun result more => result = .ok () ∧ more = [] := ensures_log ⟨rfl, rfl⟩
  refine hlog.bind ?_ ?_
  · rintro - more ⟨-, rfl⟩
    refine ensures_throw ?_
    rw [List.append_nil, List.append_nil, ← hwithin]
    exact herror problem events hmid
  · rintro problem more ⟨h, -⟩
    cases h

/-- A check makes no call. -/
theorem ensures_ofChecked {kind : String} {checked : Checked α}
    (hok : ∀ value, checked = .ok value → post (.ok value) [])
    (hfaulty : ∀ errors, checked = .faulty errors → post (.error (.invalid kind errors)) []) :
    (ofChecked kind checked : Task σ α).Ensures post := by
  cases checked with
  | ok value => exact ensures_pure (hok value rfl)
  | faulty errors => exact ensures_throw (hfaulty errors rfl)

end Rules

/-- A collaborator brings a reply to a call, in some state. -/
def Brings (outside : Outside σ) (call : Call) (reply : call.Reply) : Prop :=
  ∃ state, (outside call state).1 = .ok reply

/-- A call leaves one event, and its value is the reply that a collaborator has brought. -/
theorem ensures_perform_brings (outside : Outside σ) (call : Call) :
    (perform outside call).Ensures fun result events => events = [⟨call, result.isOk⟩]
      ∧ ∀ reply, result = .ok reply → Brings outside call reply := by
  intro world
  rw [start_perform]
  refine ⟨_, rfl, ?_, fun reply hreply => ⟨world.outside, ?_⟩⟩
  · cases (outside call world.outside).1 <;> rfl
  · cases hanswer : (outside call world.outside).1 with
    | ok value =>
      rw [hanswer] at hreply
      exact congrArg Except.ok (Except.ok.inj hreply)
    | error failure =>
      rw [hanswer] at hreply
      cases hreply

/-- **A call leaves one event**, which tells whether it has brought a reply. -/
theorem ensures_perform (outside : Outside σ) (call : Call) :
    (perform outside call).Ensures fun result events => events = [⟨call, result.isOk⟩] :=
  (ensures_perform_brings outside call).mono fun _ _ h => h.1

/-- A call that is an activity leaves the event of the call. -/
theorem ensures_during_perform (outside : Outside σ) (activity : Activity) (call : Call) :
    (during activity (perform outside call)).Ensures fun result events => events = [⟨call, result.isOk⟩] :=
  (ensures_perform outside call).during (fun _ _ h => h) fun _ _ h => h

/-- What is made of the reply of a call leaves nothing more behind. -/
theorem ensures_reply (outside : Outside σ) (activity : Activity) (call : Call) (read : call.Reply → α) :
    (during activity (perform outside call) >>= fun reply => pure (read reply)).Ensures
      fun result events => events = [⟨call, result.isOk⟩] := by
  refine (ensures_during_perform outside activity call).bind (fun reply events h => ensures_pure ?_)
    fun _ _ h => h
  rw [List.append_nil, h]
  simp only [Except.isOk, Except.toBool]

/-! ## Tasks that make only some calls -/

/-- Whatever the collaborators answer, the task makes no call but those that are allowed. -/
def MakesOnly (allowed : Call → Prop) (task : Task σ α) : Prop :=
  task.Ensures fun _ events => ∀ event ∈ events, allowed event.call

section MakesOnly

variable {allowed : Call → Prop} {task : Task σ α}

theorem makesOnly_pure {value : α} : MakesOnly allowed (pure value : Task σ α) :=
  ensures_pure nofun

theorem makesOnly_throw {problem : Problem} : MakesOnly allowed (throw problem : Task σ α) :=
  ensures_throw nofun

theorem makesOnly_log {level : Level} {message : String} :
    MakesOnly allowed (log level message : Task σ Unit) :=
  ensures_log nofun

/-- The calls are made by `perform` alone, so this is the one place where a call has to be allowed. -/
theorem makesOnly_perform {call : Call} (outside : Outside σ) (h : allowed call) :
    MakesOnly allowed (perform outside call) :=
  (ensures_perform outside call).mono fun _ _ hevents => by simpa [hevents] using h

/-- A task that makes allowed calls only may be followed by another one, whatever value it passes on. -/
theorem MakesOnly.bind {next : α → Task σ β} (h : MakesOnly allowed task)
    (hnext : ∀ value, MakesOnly allowed (next value)) : MakesOnly allowed (task >>= next) := by
  refine Ensures.bind h (fun value events hevents => ?_) fun _ _ hevents => hevents
  exact (hnext value).mono fun _ more hmore => List.forall_mem_append.mpr ⟨hevents, hmore⟩

theorem MakesOnly.map (change : α → β) (h : MakesOnly allowed task) :
    MakesOnly allowed (change <$> task) :=
  Ensures.map h

/-- Dealing with a problem may make allowed calls too. -/
theorem MakesOnly.rescue {deal : Problem → Task σ α} (h : MakesOnly allowed task)
    (hdeal : ∀ problem, MakesOnly allowed (deal problem)) : MakesOnly allowed (rescue task deal) := by
  refine Ensures.rescue h (fun _ _ hevents => hevents) (fun _ hevents => hevents) ?_
  intro problem events _ hevents
  exact (hdeal problem).mono fun _ more hmore => List.forall_mem_append.mpr ⟨hevents, hmore⟩

/-- To name an activity changes no calls. -/
theorem MakesOnly.during {activity : Activity} (h : MakesOnly allowed task) :
    MakesOnly allowed (during activity task) :=
  Ensures.during h (fun _ _ hevents => hevents) fun _ _ hevents => hevents

theorem makesOnly_ofChecked {kind : String} {checked : Checked α} :
    MakesOnly allowed (ofChecked kind checked : Task σ α) :=
  ensures_ofChecked (fun _ _ => nofun) fun _ _ => nofun

end MakesOnly

/-! ## Tasks that only some problems stop -/

/-- Whatever the collaborators answer, no problem stops the task but those that are allowed. -/
def FailsOnly (allowed : Problem → Prop) (task : Task σ α) : Prop :=
  task.Ensures fun result _ => ∀ problem, result = .error problem → allowed problem

section FailsOnly

variable {allowed wider : Problem → Prop} {task : Task σ α}

/-- The form in which it is used: a problem that comes out of a run is an allowed one. -/
theorem FailsOnly.of_start (h : FailsOnly allowed task) {world final : World σ} {problem : Problem}
    (hstart : task.start world = (.error problem, final)) : allowed problem := by
  obtain ⟨_, -, hproblem⟩ := h world
  exact hproblem problem (by rw [hstart])

/-- The allowed problems may be widened. -/
theorem FailsOnly.mono (h : FailsOnly allowed task) (hwider : ∀ problem, allowed problem → wider problem) :
    FailsOnly wider task :=
  Ensures.mono h fun _ _ hproblem problem hresult => hwider problem (hproblem problem hresult)

theorem failsOnly_pure {value : α} : FailsOnly allowed (pure value : Task σ α) :=
  ensures_pure fun _ hresult => by cases hresult

theorem failsOnly_throw {problem : Problem} (h : allowed problem) :
    FailsOnly allowed (throw problem : Task σ α) :=
  ensures_throw fun _ hresult => Except.error.inj hresult ▸ h

theorem failsOnly_log {level : Level} {message : String} :
    FailsOnly allowed (log level message : Task σ Unit) :=
  ensures_log fun _ hresult => by cases hresult

/-- A task fails with what its first part or any continuation fails with. -/
theorem FailsOnly.bind {next : α → Task σ β} (h : FailsOnly allowed task)
    (hnext : ∀ value, FailsOnly allowed (next value)) : FailsOnly allowed (task >>= next) := by
  refine Ensures.bind h (fun value _ _ => hnext value) fun problem _ hproblem problem' hresult => ?_
  cases hresult
  exact hproblem problem rfl

theorem FailsOnly.map (change : α → β) (h : FailsOnly allowed task) : FailsOnly allowed (change <$> task) := by
  rw [map_eq_pure_bind]
  exact h.bind fun _ => failsOnly_pure

/-- A problem that is dealt with stops nothing. -/
theorem FailsOnly.rescue {deal : Problem → Task σ α} (h : FailsOnly (· ≠ .interrupted) task)
    (hdeal : ∀ problem, FailsOnly allowed (deal problem)) : FailsOnly allowed (rescue task deal) := by
  refine Ensures.rescue h (fun _ _ _ _ hresult => ?_) (fun _ hproblem => ?_) fun problem _ _ _ => hdeal problem
  · cases hresult
  · exact absurd rfl (hproblem _ rfl)

/-- A problem of an activity is one that the solver reports. -/
theorem FailsOnly.during {activity : Activity} (h : FailsOnly (· ≠ .interrupted) task) :
    FailsOnly (fun problem => problem.isReported = true) (during activity task) :=
  h.rescue fun _ => failsOnly_log.bind fun _ => failsOnly_throw rfl

/-- A check that is not wrapped lets its own errors through. -/
theorem failsOnly_ofChecked {kind : String} {checked : Checked α}
    (h : ∀ errors, allowed (.invalid kind errors)) : FailsOnly allowed (ofChecked kind checked : Task σ α) := by
  refine ensures_ofChecked (fun _ _ _ hresult => ?_) fun errors _ _ hresult => ?_
  · cases hresult
  · cases hresult
    exact h errors

/-- A call that is not interrupted may fail for a reason. -/
theorem failsOnly_perform {outside : Outside σ} (hcalls : Uninterrupted outside) (call : Call) :
    FailsOnly (· ≠ .interrupted) (perform outside call) := by
  intro world
  rw [start_perform]
  refine ⟨_, rfl, fun problem hresult hproblem => ?_⟩
  subst hproblem
  have hcall := hcalls call world.outside
  cases hanswer : (outside call world.outside).1 with
  | ok reply =>
    rw [hanswer] at hresult
    cases hresult
  | error failure =>
    rw [hanswer] at hresult hcall
    cases failure with
    | failed reason => cases hresult
    | interrupted => exact hcall rfl

end FailsOnly

end Task

end MathScribe

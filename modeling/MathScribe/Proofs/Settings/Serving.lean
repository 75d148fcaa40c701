/-
The instance that is served.

A provider is asked for settings of several kinds, is given instances to serve, and is cleared, while the
environment changes around it. What it answers depends on its whole past, but in a simple way: for each kind it
serves the instance that was put in place last (`InPlace`), by a caller or by the provider itself when it built one,
and nothing that happens to the environment or to other kinds comes between (`Provider.serves_latest`). Kinds that
extend each other are as far apart here as any others.

The past is a row of happenings, and of each only what a caller can see counts: whether a request was answered, with
which instance, and whether that instance is a new one. One step of the provider is related to one happening
(`Provider.take_steps`), and a run to a row of them (`Provider.find?_run`).
-/
import Mathlib.Data.List.Induction
import MathScribe.Settings.Provider

set_option autoImplicit false

namespace MathScribe

/-! ## Settings have the kind that was asked for -/

/-- A value that is checked and changed has passed the check. -/
theorem Checked.exists_of_map_eq_ok {α β : Type} {f : α → β} {checked : Checked α} {b : β}
    (h : f <$> checked = .ok b) : ∃ a, checked = .ok a ∧ f a = b := by
  cases checked with
  | ok a => exact ⟨a, rfl, Checked.ok.inj h⟩
  | faulty errors => cases h

/-- Settings that pass the checks are of the kind they were asked for. -/
theorem AnySettings.kind_of_ofFields {given : Fields} {kind : SettingsKind} {settings : AnySettings}
    (h : ofFields given kind = .ok settings) : settings.kind = kind := by
  cases kind <;> obtain ⟨parts, -, rfl⟩ := Checked.exists_of_map_eq_ok h <;> rfl

/-- Settings that are built from a source are of the kind they were asked for. -/
theorem SettingsSource.kind_of_settings {source : SettingsSource} {kind : SettingsKind} {settings : AnySettings}
    (h : source.settings kind = .ok settings) : settings.kind = kind := by
  unfold SettingsSource.settings at h
  split at h
  · cases h
  · split at h
    · next heq =>
      cases h
      exact AnySettings.kind_of_ofFields heq
    · cases h

/-! ## Events -/

/-- What can happen to a provider. -/
inductive ProviderEvent
  /-- The environment becomes another one. -/
  | change (environment : List (String × String)) (envFile : Option String)
  /-- All instances are dropped. -/
  | clear
  /-- An instance that a caller has in hand is to be served. -/
  | serve (served : Instance)
  /-- Settings are built out of a source of their own, and are to be served. -/
  | override (kind : SettingsKind) (source : SettingsSource)
  /-- The settings of a kind are asked for. -/
  | get (kind : SettingsKind) (words : List String)

/-- The event neither drops the instance of a kind nor puts another one in its place. -/
def ProviderEvent.Spares (kind : SettingsKind) : ProviderEvent → Prop
  | change .. | get .. => True
  | clear => False
  | serve served => served.settings.kind ≠ kind
  | override other _ => other ≠ kind

/-- The environment behind some events: the one that it became last. -/
def environmentAfter (events : List ProviderEvent) : List (String × String) × Option String :=
  events.foldl
    (fun current event =>
      match event with
      | .change environment envFile => (environment, envFile)
      | _ => current)
    ([], none)

/-- What comes of an event. -/
inductive Happening
  | changed
  | cleared
  /-- An instance is served from now on. -/
  | installed (served : Instance)
  /-- A request was answered with a new instance. -/
  | built (kind : SettingsKind) (served : Instance)
  /-- A request was answered with an instance that has been there. -/
  | found (kind : SettingsKind) (served : Instance)
  /-- There are no settings. -/
  | failed (kind : SettingsKind) (error : SettingsError)

namespace Happening

/-- The instance that a happening is about. -/
def instance? : Happening → Option Instance
  | installed served | built _ served | found _ served => some served
  | _ => none

/-- The instance that a happening puts in place for a kind: one of exactly this kind that a caller has installed, or
one that was built for the kind. -/
def puts? (kind : SettingsKind) : Happening → Option Instance
  | installed served => if served.settings.kind = kind then some served else none
  | built other served => if other = kind then some served else none
  | _ => none

/-- What is in place for a kind behind a happening. -/
def leaves (kind : SettingsKind) (current : Option Instance) : Happening → Option Instance
  | cleared => none
  | happening => (happening.puts? kind).or current

/-- What an event puts in place of an instance is there afterwards, whatever was there before. -/
theorem leaves_of_puts {kind : SettingsKind} {happening : Happening} {served : Instance}
    (h : happening.puts? kind = some served) (current : Option Instance) :
    happening.leaves kind current = some served := by
  cases happening with
  | cleared => cases h
  | _ => simp [leaves, h]

/-- An instance is there after an event when the event has put it there, or was there and the event has
neither cleared nor replaced it. -/
theorem leaves_eq_some_iff {kind : SettingsKind} {happening : Happening} {current : Option Instance}
    {served : Instance} : happening.leaves kind current = some served
      ↔ happening.puts? kind = some served
        ∨ happening ≠ .cleared ∧ happening.puts? kind = none ∧ current = some served := by
  cases happening <;> simp [leaves, puts?, Option.or_eq_some_iff]

end Happening

/-- The instance that the last happening to do so has put in place for a kind. Nothing has been dropped since. -/
def InPlace (kind : SettingsKind) (served : Instance) (past : List Happening) : Prop :=
  ∃ before last since, past = before ++ last :: since ∧ last.puts? kind = some served
    ∧ ∀ happening ∈ since, happening ≠ .cleared ∧ happening.puts? kind = none

/-- What is in place is found by going through the past. The induction is on the past from its end. -/
theorem foldl_leaves_eq_some_iff {kind : SettingsKind} {served : Instance} (past : List Happening) :
    past.foldl (Happening.leaves kind) none = some served ↔ InPlace kind served past := by
  induction past using List.reverseRecOn with
  | nil => simp [InPlace]
  | append_singleton past happening ih =>
    rw [List.foldl_append, List.foldl_cons, List.foldl_nil, Happening.leaves_eq_some_iff, ih]
    constructor
    · rintro (hputs | ⟨hkept, hnone, before, last, since, rfl, hputs, hsince⟩)
      · exact ⟨past, happening, [], rfl, hputs, by simp⟩
      · refine ⟨before, last, since ++ [happening], by simp, hputs, ?_⟩
        exact List.forall_mem_append.mpr ⟨hsince, List.forall_mem_singleton.mpr ⟨hkept, hnone⟩⟩
    · rintro ⟨before, last, since, hpast, hputs, hsince⟩
      -- The last happening of the past is either the one that puts the instance in place, or one of those since.
      rcases List.eq_nil_or_concat since with rfl | ⟨since, final, rfl⟩
      · obtain ⟨-, hlast⟩ := List.append_inj' hpast rfl
        cases hlast
        exact .inl hputs
      · rw [List.concat_eq_append, ← List.cons_append, ← List.append_assoc] at hpast
        obtain ⟨rfl, hfinal⟩ := List.append_inj' hpast rfl
        cases hfinal
        rw [List.concat_eq_append] at hsince
        obtain ⟨hsince, hfinal⟩ := List.forall_mem_append.mp hsince
        obtain ⟨hkept, hnone⟩ := hfinal _ List.mem_cons_self
        exact .inr ⟨hkept, hnone, before, last, since, rfl, hputs, hsince⟩

namespace Provider

/-! ## One step -/

/-- What comes of an event. A request has built an instance when its number has been given to none before. -/
def take (provider : Provider) : ProviderEvent → Happening × Provider
  | .change environment envFile => (.changed, provider.change environment envFile)
  | .clear => (.cleared, provider.clear)
  | .serve served => (.installed served, provider.serve served)
  | .override kind source =>
    match provider.override kind source with
    | (.ok served, next) => (.installed served, next)
    | (.error error, next) => (.failed kind error, next)
  | .get kind words =>
    match provider.get kind words with
    | (.ok served, next) =>
      (if served.number < provider.count then .found kind served else .built kind served, next)
    | (.error error, next) => (.failed kind error, next)

/-- Serving an instance changes what is found for its own kind only. -/
theorem find?_serve (provider : Provider) (served : Instance) (kind : SettingsKind) :
    (provider.serve served).find? kind
      = if served.settings.kind = kind then some served else provider.find? kind := by
  have hothers : ∀ (entries : List (SettingsKind × Instance)), served.settings.kind ≠ kind →
      (entries.filter (·.1 ≠ served.settings.kind)).lookup kind = entries.lookup kind := by
    intro entries hne
    induction entries with
    | nil => rfl
    | cons entry entries ih =>
      obtain ⟨other, found⟩ := entry
      by_cases hother : other = served.settings.kind
      · subst hother
        rw [List.filter_cons_of_neg (by simp), ih, List.lookup_cons, beq_eq_false_iff_ne.mpr hne.symm]
      · rw [List.filter_cons_of_pos (by simpa using hother), List.lookup_cons, List.lookup_cons, ih]
  unfold find? serve
  by_cases hkind : served.settings.kind = kind
  · rw [if_pos hkind, List.lookup_cons, beq_iff_eq.mpr hkind.symm]
  · rw [if_neg hkind, List.lookup_cons, beq_eq_false_iff_ne.mpr fun heq => hkind heq.symm]
    exact hothers provider.served hkind

/-- `get_settings` gives a served instance again and builds nothing. -/
theorem get_of_find? {provider : Provider} {kind : SettingsKind} {served : Instance}
    (h : provider.find? kind = some served) (words : List String) :
    provider.get kind words = (.ok served, provider) := by
  rw [get, h]

/-- With nothing served, `get_settings` builds an instance, gives it a new number and serves it. -/
theorem get_of_settings {provider : Provider} {kind : SettingsKind} {words : List String} {settings : AnySettings}
    (h : provider.find? kind = none) (hsettings : (provider.source words).settings kind = .ok settings) :
    provider.get kind words = (.ok ⟨provider.count, settings⟩, provider.serve ⟨provider.count, settings⟩) := by
  rw [get, h]
  simp only [hsettings]
  rfl

/-- With nothing served and a source that does not make settings, `get_settings` raises and serves
nothing. -/
theorem get_of_error {provider : Provider} {kind : SettingsKind} {words : List String} {error : SettingsError}
    (h : provider.find? kind = none) (hsettings : (provider.source words).settings kind = .error error) :
    provider.get kind words = (.error error, provider) := by
  rw [get, h]
  simp only [hsettings]

/-- A request finds an instance, builds one, or fails and changes nothing. -/
theorem get_cases (provider : Provider) (kind : SettingsKind) (words : List String) :
    (∃ served, provider.find? kind = some served ∧ provider.get kind words = (.ok served, provider))
      ∨ (∃ settings, provider.find? kind = none ∧ settings.kind = kind
        ∧ provider.get kind words
          = (.ok ⟨provider.count, settings⟩, provider.serve ⟨provider.count, settings⟩))
      ∨ ∃ error, provider.get kind words = (.error error, provider) := by
  cases hfind : provider.find? kind with
  | some served => exact .inl ⟨served, rfl, get_of_find? hfind words⟩
  | none =>
    cases hsettings : (provider.source words).settings kind with
    | ok settings =>
      exact .inr (.inl ⟨settings, rfl, SettingsSource.kind_of_settings hsettings,
        get_of_settings hfind hsettings⟩)
    | error error => exact .inr (.inr ⟨error, get_of_error hfind hsettings⟩)

/-- A caller who builds settings has them served, or fails and changes nothing. -/
theorem override_cases (provider : Provider) (kind : SettingsKind) (source : SettingsSource) :
    (∃ settings, settings.kind = kind ∧ provider.override kind source
        = (.ok ⟨provider.count, settings⟩, provider.serve ⟨provider.count, settings⟩))
      ∨ ∃ error, provider.override kind source = (.error error, provider) := by
  unfold override
  cases hsettings : source.settings kind with
  | ok settings => exact .inl ⟨settings, SettingsSource.kind_of_settings hsettings, rfl⟩
  | error error => exact .inr ⟨error, rfl⟩

/-- The number of every instance that is served has been given to it. -/
def Numbered (provider : Provider) : Prop :=
  ∀ kind served, provider.find? kind = some served → served.number < provider.count

/-- Serving an instance counts its number as given, so the numbers stay below the count. -/
theorem Numbered.serve {provider : Provider} (h : provider.Numbered) (served : Instance) :
    (provider.serve served).Numbered := by
  intro kind found hfound
  rw [find?_serve] at hfound
  split at hfound
  · cases hfound
    exact Nat.lt_of_lt_of_le (Nat.lt_succ_self _) (Nat.le_max_right _ _)
  · exact Nat.lt_of_lt_of_le (h kind found hfound) (Nat.le_max_left _ _)

/-- What one step does: what is in place for each kind is what the happening leaves there, and all instances have
numbers that have been given. -/
structure Steps (provider : Provider) (happening : Happening) (next : Provider) : Prop where
  find?_eq : ∀ kind, next.find? kind = happening.leaves kind (provider.find? kind)
  numbered : next.Numbered
  count_le : provider.count ≤ next.count
  number_lt : ∀ served ∈ happening.instance?, served.number < next.count

namespace Steps

variable {provider : Provider}

/-- Nothing becomes of the instances. -/
theorem still (h : provider.Numbered) {happening : Happening} {next : Provider}
    (hserved : next.served = provider.served) (hcount : next.count = provider.count)
    (hleaves : ∀ kind current, happening.leaves kind current = current)
    (hinstance : ∀ served ∈ happening.instance?, served.number < provider.count) :
    provider.Steps happening next := by
  have hfind : ∀ kind, next.find? kind = provider.find? kind := fun kind => by rw [find?, find?, hserved]
  refine ⟨fun kind => by rw [hleaves, hfind], fun kind served hserved => ?_, Nat.le_of_eq hcount.symm, ?_⟩
  · rw [hcount]
    exact h kind served (hfind kind ▸ hserved)
  · rw [hcount]
    exact hinstance

/-- An instance is put in place. -/
theorem serve (h : provider.Numbered) {happening : Happening} (served : Instance)
    (hputs : ∀ kind, happening.puts? kind = if served.settings.kind = kind then some served else none)
    (hinstance : happening.instance? = some served) :
    provider.Steps happening (provider.serve served) := by
  refine ⟨fun kind => ?_, h.serve served, Nat.le_max_left _ _, fun other hother => ?_⟩
  · rw [find?_serve]
    split
    · next hkind => rw [Happening.leaves_of_puts (by rw [hputs, if_pos hkind])]
    · next hkind =>
      cases happening with
      | cleared => cases hinstance
      | _ => simp [Happening.leaves, hputs, hkind]
  · obtain rfl := Option.some.inj (hinstance.symm.trans hother)
    exact Nat.lt_of_lt_of_le (Nat.lt_succ_self _) (Nat.le_max_right _ _)

end Steps

/-- **One step.** -/
theorem take_steps {provider : Provider} (h : provider.Numbered) (event : ProviderEvent) :
    provider.Steps (provider.take event).1 (provider.take event).2 := by
  have hfailed : ∀ (kind : SettingsKind) (error : SettingsError),
      provider.Steps (.failed kind error) provider := fun kind error =>
    .still h rfl rfl (fun _ _ => by simp [Happening.leaves, Happening.puts?]) (by simp [Happening.instance?])
  -- An event either leaves the instances alone, drops them all, or puts one in place.
  cases event with
  | change environment envFile =>
    exact .still h rfl rfl (fun _ _ => by simp [take, Happening.leaves, Happening.puts?])
      (by simp [take, Happening.instance?])
  | clear =>
    have hnothing : ∀ kind, provider.clear.find? kind = none := fun _ => rfl
    refine ⟨fun _ => rfl, fun kind served hserved => ?_, Nat.le_refl _, by simp [take, Happening.instance?]⟩
    cases (hnothing kind).symm.trans hserved
  | serve served => exact .serve h served (fun _ => rfl) rfl
  | override kind source =>
    rw [take]
    obtain ⟨settings, -, heq⟩ | ⟨error, heq⟩ := provider.override_cases kind source
    · rw [heq]
      exact .serve h _ (fun _ => rfl) rfl
    · rw [heq]
      exact hfailed kind error
  | get kind words =>
    rw [take]
    obtain ⟨served, hfind, heq⟩ | ⟨settings, -, rfl, heq⟩ | ⟨error, heq⟩ := provider.get_cases kind words
    · have hnumber := h kind served hfind
      simp only [heq, hnumber, if_true]
      refine .still h rfl rfl (fun _ _ => by simp [Happening.leaves, Happening.puts?]) fun other hother => ?_
      exact Option.some.inj hother ▸ hnumber
    · simp only [heq, Nat.lt_irrefl, if_false]
      exact .serve h _ (fun _ => rfl) rfl
    · rw [heq]
      exact hfailed kind error

/-! ## A run -/

/-- Events one after another, with what comes of them. -/
def run (provider : Provider) : List ProviderEvent → List Happening × Provider
  | [] => ([], provider)
  | event :: events =>
    let (happening, next) := provider.take event
    let (more, last) := next.run events
    (happening :: more, last)

/-- A new provider serves nothing. -/
theorem new_numbered : new.Numbered := by
  intro kind served hserved
  cases (show new.find? kind = none from rfl).symm.trans hserved

/-- What is in place behind a run, for each kind, is what its happenings leave there. The induction is on the
events, from any provider. -/
theorem find?_run {provider : Provider} (h : provider.Numbered) (events : List ProviderEvent) :
    (provider.run events).2.Numbered ∧ provider.count ≤ (provider.run events).2.count
      ∧ (∀ kind, (provider.run events).2.find? kind
        = (provider.run events).1.foldl (Happening.leaves kind) (provider.find? kind))
      ∧ ∀ happening ∈ (provider.run events).1, ∀ served ∈ happening.instance?,
        served.number < (provider.run events).2.count := by
  induction events generalizing provider with
  | nil => exact ⟨h, Nat.le_refl _, fun _ => rfl, by simp [run]⟩
  | cons event events ih =>
    have hstep := take_steps h event
    obtain ⟨hnumbered, hcount, hfind, hnumbers⟩ := ih hstep.numbered
    refine ⟨hnumbered, Nat.le_trans hstep.count_le hcount, fun kind => ?_, ?_⟩
    · rw [run, hfind, hstep.find?_eq]
      rfl
    · refine List.forall_mem_cons.mpr ⟨fun served hserved => ?_, hnumbers⟩
      exact Nat.lt_of_lt_of_le (hstep.number_lt served hserved) hcount

/-- The past of a provider that was new in front of some events. -/
def past (events : List ProviderEvent) : List Happening :=
  (new.run events).1

/-- A provider that was new in front of some events. -/
def after (events : List ProviderEvent) : Provider :=
  (new.run events).2

/-- **What is served is what was put in place last.** -/
theorem find?_after_eq_some_iff {events : List ProviderEvent} {kind : SettingsKind} {served : Instance} :
    (after events).find? kind = some served ↔ InPlace kind served (past events) := by
  rw [after, (find?_run new_numbered events).2.2.1 kind]
  exact foldl_leaves_eq_some_iff _

/-- Only a change of the environment changes the environment. -/
theorem take_environment (provider : Provider) (event : ProviderEvent) :
    ((provider.take event).2.environment, (provider.take event).2.envFile)
      = match event with
        | .change environment envFile => (environment, envFile)
        | _ => (provider.environment, provider.envFile) := by
  cases event with
  | change environment envFile => rfl
  | clear => rfl
  | serve served => rfl
  | override kind source =>
    rw [take]
    obtain ⟨settings, -, heq⟩ | ⟨error, heq⟩ := provider.override_cases kind source
    · simp only [heq]
      rfl
    · simp only [heq]
  | get kind words =>
    rw [take]
    obtain ⟨served, -, heq⟩ | ⟨settings, -, -, heq⟩ | ⟨error, heq⟩ := provider.get_cases kind words
    · simp only [heq]
    · simp only [heq]
      rfl
    · simp only [heq]

/-- Only a change of the environment changes the environment. -/
theorem environment_after (events : List ProviderEvent) :
    ((after events).environment, (after events).envFile) = environmentAfter events := by
  have hrun : ∀ (events : List ProviderEvent) (provider : Provider),
      ((provider.run events).2.environment, (provider.run events).2.envFile)
        = events.foldl
          (fun current event =>
            match event with
            | .change environment envFile => (environment, envFile)
            | _ => current)
          (provider.environment, provider.envFile) := by
    intro events
    induction events with
    | nil => exact fun _ => rfl
    | cons event events ih =>
      intro provider
      rw [run, ih, take_environment]
      rfl
  exact hrun events new

/-- A step that spares a kind leaves its instance in place. -/
theorem find?_take_of_spares {provider : Provider} {kind : SettingsKind} {served : Instance}
    (hfind : provider.find? kind = some served) {event : ProviderEvent} (hspares : event.Spares kind) :
    (provider.take event).2.find? kind = some served := by
  have hserve : ∀ other : Instance, other.settings.kind ≠ kind →
      (provider.serve other).find? kind = some served := by
    intro other hne
    rw [find?_serve, if_neg hne, hfind]
  cases event with
  | change environment envFile => exact hfind
  | clear => exact hspares.elim
  | serve other => exact hserve other hspares
  | override other source =>
    rw [take]
    obtain ⟨settings, rfl, heq⟩ | ⟨error, heq⟩ := provider.override_cases other source
    · rw [heq]
      exact hserve _ hspares
    · rw [heq]
      exact hfind
  | get other words =>
    rw [take]
    obtain ⟨found, -, heq⟩ | ⟨settings, hnone, rfl, heq⟩ | ⟨error, heq⟩ := provider.get_cases other words
    · rw [heq]
      exact hfind
    -- One is built only where nothing is found, so for another kind.
    · have hne : settings.kind ≠ kind := by
        rintro rfl
        cases hnone.symm.trans hfind
      rw [heq]
      exact hserve _ hne
    · rw [heq]
      exact hfind

/-- An instance stays through any number of events that spare its kind. -/
theorem find?_run_of_spares {provider : Provider} {kind : SettingsKind} {served : Instance}
    (hfind : provider.find? kind = some served) (events : List ProviderEvent)
    (hspares : ∀ event ∈ events, event.Spares kind) : (provider.run events).2.find? kind = some served := by
  induction events generalizing provider with
  | nil => exact hfind
  | cons event events ih =>
    obtain ⟨hevent, hevents⟩ := List.forall_mem_cons.mp hspares
    exact ih (find?_take_of_spares hfind hevent) hevents

/-- **The provider serves the latest instance.** Whatever has happened to a provider since it was new,
`get_settings` brings an instance of the kind that is asked for back as it was put in place last, and the
provider stays as it is. If none has been put in place since the last clear, one is built out of the environment
of the moment. It is a new one, and it comes back whenever the kind is asked for until a caller clears the
provider or installs another one of that very kind. And if none can be built, the provider stays as it is, so
that one is built as soon as the environment allows it. -/
theorem serves_latest (events : List ProviderEvent) (kind : SettingsKind) (words : List String) :
    (∀ served, InPlace kind served (past events) →
        (after events).get kind words = (.ok served, after events))
      ∧ ((∀ served, ¬InPlace kind served (past events)) →
        match (SettingsSource.mk (some words) [] (environmentAfter events).1 (environmentAfter events).2).settings
          kind with
        | .ok settings => ∃ built next, (after events).get kind words = (.ok built, next)
            ∧ built.settings = settings ∧ settings.kind = kind
            ∧ (∀ happening ∈ past events, ∀ other ∈ happening.instance?, other.number ≠ built.number)
            ∧ ∀ later : List ProviderEvent, (∀ event ∈ later, event.Spares kind) → ∀ words',
              (next.run later).2.get kind words' = (.ok built, (next.run later).2)
        | .error error => (after events).get kind words = (.error error, after events)
            ∧ ∀ environment envFile words' settings,
              (SettingsSource.mk (some words') [] environment envFile).settings kind = .ok settings →
              ∃ built next, ((after events).change environment envFile).get kind words' = (.ok built, next)
                ∧ built.settings = settings) := by
  -- What is found is what was put in place last; the rest is what `get` does when nothing is found.
  refine ⟨fun served hplace => get_of_find? (find?_after_eq_some_iff.mpr hplace) words, fun hnone => ?_⟩
  have hfind : (after events).find? kind = none :=
    Option.eq_none_iff_forall_ne_some.mpr fun served hserved => hnone served (find?_after_eq_some_iff.mp hserved)
  have hsource : (after events).source words
      = ⟨some words, [], (environmentAfter events).1, (environmentAfter events).2⟩ := by
    rw [source, ← environment_after]
  rw [← hsource]
  split
  · next settings hsettings =>
    refine ⟨_, _, get_of_settings hfind hsettings, rfl, SettingsSource.kind_of_settings hsettings, ?_, ?_⟩
    -- Every number that has been given lies below the count, which is the number of the new instance.
    · intro happening hmem other hother
      exact Nat.ne_of_lt ((find?_run new_numbered events).2.2.2 happening hmem other hother)
    · intro later hspares words'
      have hbuilt : ((after events).serve ⟨(after events).count, settings⟩).find? kind
          = some ⟨(after events).count, settings⟩ := by
        rw [find?_serve, if_pos (SettingsSource.kind_of_settings hsettings)]
      exact get_of_find? (find?_run_of_spares hbuilt later hspares) words'
  · next error hsettings =>
    refine ⟨get_of_error hfind hsettings, fun environment envFile words' settings hrepaired => ?_⟩
    exact ⟨_, _, get_of_settings hfind hrepaired, rfl⟩

/-- Shared settings that a caller has prepared. -/
def preparedInstance : Instance :=
  ⟨0, .shared ⟨none, "", "", 0, .zero, .zero, none, none, none, "", "", 0, "", 0, false⟩⟩

/-- A caller has shared settings served, and then the settings of a command are asked for, with a word on the command
line that has no place there. -/
def refusedEvents : List ProviderEvent :=
  [.serve preparedInstance, .get .convert ["x"]]

/-- The settings of the command cannot be built, and shared settings do not take their place. The provider stays as it
is, serves the shared settings, and builds those of the command when the word is gone. -/
theorem serves_latest_refused :
    InPlace .shared preparedInstance (past refusedEvents)
      ∧ (after refusedEvents).get .shared [] = (.ok preparedInstance, after refusedEvents)
      ∧ (∀ served, ¬InPlace .convert served (past refusedEvents))
      ∧ (after refusedEvents).get .convert ["x"] = (.error (.refused .usage), after refusedEvents)
      ∧ ∃ built next, ((after refusedEvents).change [] none).get .convert [] = (.ok built, next) := by
  have hfails : (SettingsSource.mk (some ["x"]) [] [] none).settings .convert = .error (.refused .usage) := by
    rfl
  have hbuilds : ∃ settings, (SettingsSource.mk (some []) [] [] none).settings .convert = .ok settings :=
    ⟨_, rfl⟩
  have hpast : past refusedEvents = [.installed preparedInstance, .failed .convert (.refused .usage)] := by
    rfl
  have hplace : InPlace .shared preparedInstance (past refusedEvents) :=
    ⟨[], _, _, hpast, rfl, by simp [Happening.puts?]⟩
  have hnone : ∀ served, ¬InPlace .convert served (past refusedEvents) := by
    intro served
    rw [hpast, ← foldl_leaves_eq_some_iff]
    exact nofun
  have hconvert := (serves_latest refusedEvents .convert ["x"]).2 hnone
  rw [show environmentAfter refusedEvents = ([], none) from rfl, hfails] at hconvert
  obtain ⟨settings, hsettings⟩ := hbuilds
  obtain ⟨built, next, hbuilt, -⟩ := hconvert.2 [] none [] settings hsettings
  exact ⟨hplace, (serves_latest refusedEvents .shared _).1 _ hplace, hnone, hconvert.1, built, next, hbuilt⟩

end Provider

end MathScribe

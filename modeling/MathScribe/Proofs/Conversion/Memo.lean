/-
What a cache may hold.

A converter that finds a rendering in its cache does not read the formula again, so an entry that is
not the rendering of its key would change what pages become. This file shows that conversions never
make such an entry. `Cache.Faithful` is the invariant: every entry is the rendering of its key. One
conversion keeps it (`convertFragment_spec`), so do all requests but `put`
(`Pool.carryOut_faithful`), and every pool that is reached without `put` has faithful caches only.

With a faithful cache the result of a conversion does not depend on the cache at all: it is
`formulaText`, which speaks of the formula alone. Two converters with faithful caches therefore agree,
and one of them may be the fresh one.
-/
import Mathlib
import MathScribe.Conversion.Pool

set_option autoImplicit false

namespace MathScribe

/-! ## What a formula becomes -/

/-- What becomes of a formula, whatever has been converted before: the rendering of its normal form,
or that form itself when it has no rendering. -/
def formulaText (formula : Text) : Text :=
  (renderNormal? (Latex.normalize formula)).getD (Latex.normalize formula)

/-- What becomes of a stretch of a page. -/
def Fragment.converted (fragment : Fragment) : Text :=
  if fragment.isMath then formulaText fragment.body else fragment.text

/-- A normal form has a rendering exactly when it can be read as a tree that can be written. -/
theorem renderNormal?_eq_some_iff {normal rendering : Text} :
    renderNormal? normal = some rendering
      ↔ ∃ tree, parse normal = .ok tree ∧ tree.render? = some rendering := by
  unfold renderNormal?
  cases parse normal with
  | ok tree => simp
  | error e => simp

/-! ## The invariant -/

namespace Cache

/-- Every entry is the rendering of its key. -/
def Faithful (cache : Cache) : Prop :=
  ∀ entry ∈ cache.entries, renderNormal? entry.1 = some entry.2

/-- An empty cache holds nothing that could be wrong. -/
theorem faithful_empty : empty.Faithful := by
  intro entry h
  simp [empty] at h

/-- Counting a look-up leaves the entries alone. -/
theorem get_entries (cache : Cache) (key : Text) : (cache.get key).2.entries = cache.entries := by
  unfold get
  cases cache.find? key <;> rfl

/-- A lookup changes the order of the entries at most. -/
theorem Faithful.get {cache : Cache} (h : cache.Faithful) (key : Text) :
    (cache.get key).2.Faithful := by
  unfold Faithful
  rw [get_entries]
  exact h

/-- Storing what is rendered keeps a cache faithful, also if an old entry is dropped for it. -/
theorem Faithful.put {cache : Cache} (h : cache.Faithful) {key value : Text}
    (hv : renderNormal? key = some value) : (cache.put key value).Faithful := by
  intro entry hm
  rcases List.mem_cons.mp hm with rfl | hm
  · exact hv
  · exact h entry (List.mem_filter.mp hm).1

/-- What a faithful cache remembers of a key is its rendering. -/
theorem Faithful.renderNormal?_of_find? {cache : Cache} (h : cache.Faithful) {key value : Text}
    (hf : cache.find? key = some value) : renderNormal? key = some value := by
  obtain ⟨before, after, hentries, -⟩ := List.lookup_eq_some_iff.mp hf
  have hmem : (key, value) ∈ cache.entries := by
    rw [hentries]
    exact List.mem_append_right before List.mem_cons_self
  exact h _ hmem

end Cache

/-! ## One conversion -/

namespace Converter

/-- A look-up that succeeds is all that a conversion does. -/
theorem convertFragment_of_hit {converter : Converter} {formula value : Text}
    (hf : converter.cache.find? (Latex.normalize formula) = some value) :
    converter.convertFragment formula
      = (value, { converter with cache := (converter.cache.get (Latex.normalize formula)).2 }) := by
  simp only [convertFragment, Cache.get, hf]

/-- A conversion that has to read the formula, and cannot. -/
theorem convertFragment_of_failure {converter : Converter} {formula : Text}
    (hf : converter.cache.find? (Latex.normalize formula) = none)
    (hr : renderNormal? (Latex.normalize formula) = none) :
    converter.convertFragment formula
      = (Latex.normalize formula,
        ⟨(converter.cache.get (Latex.normalize formula)).2, converter.parseCount + 1⟩) := by
  simp only [convertFragment, Cache.get, hf, hr]

/-- A conversion that has to read the formula, and remembers its rendering. -/
theorem convertFragment_of_success {converter : Converter} {formula rendering : Text}
    (hf : converter.cache.find? (Latex.normalize formula) = none)
    (hr : renderNormal? (Latex.normalize formula) = some rendering) :
    converter.convertFragment formula
      = (rendering,
        ⟨(converter.cache.get (Latex.normalize formula)).2.put (Latex.normalize formula) rendering,
          converter.parseCount + 1⟩) := by
  simp only [convertFragment, Cache.get, hf, hr]

/-- With a faithful cache a conversion yields the text that the formula alone determines, and the
cache stays faithful. The cases are a hit, a formula that has no rendering, and a new entry. -/
theorem convertFragment_spec {converter : Converter} (h : converter.cache.Faithful)
    (formula : Text) :
    (converter.convertFragment formula).1 = formulaText formula
      ∧ (converter.convertFragment formula).2.cache.Faithful := by
  have hget : (converter.cache.get (Latex.normalize formula)).2.Faithful := h.get _
  cases hf : converter.cache.find? (Latex.normalize formula) with
  | some value =>
    rw [convertFragment_of_hit hf, formulaText, h.renderNormal?_of_find? hf]
    exact ⟨rfl, hget⟩
  | none =>
    cases hr : renderNormal? (Latex.normalize formula) with
    | none =>
      rw [convertFragment_of_failure hf hr, formulaText, hr]
      exact ⟨rfl, hget⟩
    | some rendering =>
      rw [convertFragment_of_success hf hr, formulaText, hr]
      exact ⟨rfl, hget.put hr⟩

/-- A formula that has no rendering leaves the entries of a faithful cache as they are. -/
theorem convertFragment_entries_of_eq_none {converter : Converter} {formula : Text}
    (h : converter.cache.Faithful) (hr : renderNormal? (Latex.normalize formula) = none) :
    (converter.convertFragment formula).2.cache.entries = converter.cache.entries := by
  have hf : converter.cache.find? (Latex.normalize formula) = none := by
    rw [Option.eq_none_iff_forall_ne_some]
    intro value hf
    rw [h.renderNormal?_of_find? hf] at hr
    exact absurd hr (by simp)
  rw [convertFragment_of_failure hf hr]
  exact Cache.get_entries _ _

/-! ## A page -/

/-- The fragments of a page, converted one after another: the text of each is its own, and the cache
stays faithful. The induction is on the fragments, with the converter changing from one to the next. -/
theorem convertFragments_spec (fragments : List Fragment) :
    ∀ converter : Converter, converter.cache.Faithful →
      (converter.convertFragments fragments).1 = fragments.flatMap Fragment.converted
        ∧ (converter.convertFragments fragments).2.cache.Faithful := by
  induction fragments with
  | nil =>
    intro converter h
    exact ⟨rfl, h⟩
  | cons fragment others ih =>
    intro converter h
    cases hmath : fragment.isMath with
    | true =>
      obtain ⟨hfirst, hkept⟩ := convertFragment_spec h fragment.body
      obtain ⟨htext, hcache⟩ := ih _ hkept
      simp only [convertFragments, List.flatMap_cons, Fragment.converted, hmath, if_true]
      exact ⟨by rw [hfirst, htext], hcache⟩
    | false =>
      obtain ⟨htext, hcache⟩ := ih converter h
      simp only [convertFragments, List.flatMap_cons, Fragment.converted, hmath,
        Bool.false_eq_true, if_false]
      exact ⟨by rw [htext], hcache⟩

/-- With a faithful cache `convert_text` is a function of the page. -/
theorem convert_text {converter : Converter} (h : converter.cache.Faithful) (page : Text) :
    (converter.convert page).1 = (Fragment.ofPage page).flatMap Fragment.converted :=
  (convertFragments_spec _ converter h).1

/-- A conversion leaves a faithful cache. -/
theorem convert_faithful {converter : Converter} (h : converter.cache.Faithful) (page : Text) :
    (converter.convert page).2.cache.Faithful :=
  (convertFragments_spec _ converter h).2

end Converter

/-! ## Pools -/

/-- A request that writes an entry of the requester's own choice. -/
def Request.isPut : Request → Bool
  | put _ _ => true
  | _ => false

namespace Pool

/-- Carry out a row of requests, each for the converter of its name. -/
def carryOutAll (pool : Pool) : List (String × Request) → Option Pool
  | [] => some pool
  | (name, request) :: others =>
    match pool.carryOut name request with
    | none => none
    | some (_, next) => next.carryOutAll others

/-- All caches of a pool are faithful. -/
def Faithful (pool : Pool) : Prop :=
  ∀ cache ∈ pool.caches, cache.Faithful

/-- Setting up a converter, on a new cache or on a shared one, keeps all caches faithful. -/
theorem faithful_setUp {pool : Pool} (h : pool.Faithful) (name : String)
    (cacheName : Option String) : (pool.setUp name cacheName).Faithful := by
  unfold setUp
  split
  · exact h
  · intro cache hm
    rcases List.mem_append.mp hm with hm | hm
    · exact h cache hm
    · rw [List.mem_singleton.mp hm]
      exact Cache.faithful_empty

/-- The converter that a request names has a faithful cache. -/
theorem faithful_converter? {pool : Pool} (h : pool.Faithful) {name : String} {index : Nat}
    {converter : Converter} (hc : pool.converter? name = some (index, converter)) :
    converter.cache.Faithful := by
  unfold converter? at hc
  split at hc
  · exact absurd hc (by simp)
  · obtain ⟨cache, hcache, heq⟩ := Option.map_eq_some_iff.mp hc
    cases heq
    exact h cache (List.mem_of_getElem? hcache)

/-- Putting a converter back keeps all caches faithful if its own is. -/
theorem faithful_store {pool : Pool} (h : pool.Faithful) (name : String) (index : Nat)
    {converter : Converter} (hc : converter.cache.Faithful) :
    (pool.store name index converter).Faithful := by
  intro cache hm
  rcases List.mem_or_eq_of_mem_set hm with hm | rfl
  · exact h cache hm
  · exact hc

/-- Every request but a direct store keeps the cache of its converter faithful. -/
theorem work_faithful {converter : Converter} (h : converter.cache.Faithful) {request : Request}
    (hr : request.isPut = false) : (work converter request).2.cache.Faithful := by
  cases request with
  | setUp _ => exact h
  | convert page => exact Converter.convert_faithful h page
  | convertFragment formula => exact (Converter.convertFragment_spec h formula).2
  | put key value => exact absurd hr (by simp [Request.isPut])
  | get key => exact h.get key
  | contains key => exact h
  | clear => exact Cache.faithful_empty

/-- One request other than `put` leaves faithful caches faithful. -/
theorem carryOut_faithful {pool next : Pool} (h : pool.Faithful) {name : String}
    {request : Request} {reply : Reply} (hr : request.isPut = false)
    (hstep : pool.carryOut name request = some (reply, next)) : next.Faithful := by
  unfold carryOut at hstep
  extract_lets ready at hstep
  have hready : ready.Faithful := by
    cases request with
    | setUp cacheName => exact faithful_setUp h name cacheName
    | _ => exact h
  cases hc : ready.converter? name with
  | none => rw [hc] at hstep; exact absurd hstep (by simp)
  | some found =>
    obtain ⟨index, converter⟩ := found
    rw [hc] at hstep
    obtain ⟨-, rfl⟩ := Prod.mk.inj (Option.some.inj hstep)
    exact faithful_store hready name index (work_faithful (faithful_converter? hready hc) hr)

/-- A row of requests without a `put` leaves faithful caches faithful. The induction is on the row,
from any pool that has faithful caches only. -/
theorem carryOutAll_faithful (requests : List (String × Request)) :
    ∀ pool final : Pool, pool.Faithful → (∀ request ∈ requests, request.2.isPut = false) →
      pool.carryOutAll requests = some final → final.Faithful := by
  induction requests with
  | nil =>
    intro pool final h _ hrun
    cases hrun
    exact h
  | cons request others ih =>
    intro pool final h hput hrun
    unfold carryOutAll at hrun
    split at hrun
    · exact absurd hrun (by simp)
    · next reply next hstep =>
      have hnext : next.Faithful :=
        carryOut_faithful h (hput request List.mem_cons_self) hstep
      exact ih next final hnext (fun r hr => hput r (List.mem_cons_of_mem request hr)) hrun

/-- **Remembering is invisible.** Let converters be set up, convert and be cleared in any order,
without a `put`. Then each entry of each cache is the rendering of its key, and each converter makes of
every page and of every formula what a fresh one makes of it. A formula without a rendering leaves the
entries alone, and its neighbours on the page become what they become by themselves. -/
theorem memory_invisible {requests : List (String × Request)} {pool : Pool}
    (hput : ∀ request ∈ requests, request.2.isPut = false)
    (hrun : empty.carryOutAll requests = some pool) :
    (∀ cache ∈ pool.caches, ∀ entry ∈ cache.entries,
        ∃ tree, parse entry.1 = .ok tree ∧ tree.render? = some entry.2)
      ∧ ∀ name index converter, pool.converter? name = some (index, converter) →
        (∀ page, (converter.convert page).1 = (Converter.fresh.convert page).1)
          ∧ (∀ formula, (converter.convertFragment formula).1
              = (Converter.fresh.convertFragment formula).1)
          ∧ (∀ formula, renderNormal? (Latex.normalize formula) = none →
              (converter.convertFragment formula).2.cache.entries = converter.cache.entries)
          ∧ ∀ before failing after, failing.isMath = true →
              renderNormal? (Latex.normalize failing.body) = none →
              (converter.convertFragments (before ++ failing :: after)).1
                = (Converter.fresh.convertFragments before).1
                  ++ Latex.normalize failing.body
                  ++ (Converter.fresh.convertFragments after).1 := by
  have hfresh : Converter.fresh.cache.Faithful := Cache.faithful_empty
  -- Faithfulness is the invariant. All the rest is about one converter with a faithful cache.
  have hpool : pool.Faithful := by
    refine carryOutAll_faithful requests empty pool ?_ hput hrun
    intro cache hm
    simp [Pool.empty] at hm
  refine ⟨fun cache hm entry he => renderNormal?_eq_some_iff.mp (hpool cache hm entry he), ?_⟩
  intro name index converter hc
  have hcache : converter.cache.Faithful := faithful_converter? hpool hc
  refine ⟨?_, ?_, ?_, ?_⟩
  · intro page
    rw [Converter.convert_text hcache, Converter.convert_text hfresh]
  · intro formula
    rw [(Converter.convertFragment_spec hcache formula).1,
      (Converter.convertFragment_spec hfresh formula).1]
  · intro formula hr
    exact Converter.convertFragment_entries_of_eq_none hcache hr
  · intro before failing after hmath hr
    have hbad : failing.converted = Latex.normalize failing.body := by
      rw [Fragment.converted, hmath, if_pos rfl, formulaText, hr, Option.getD_none]
    rw [(Converter.convertFragments_spec _ converter hcache).1,
      (Converter.convertFragments_spec _ _ hfresh).1, (Converter.convertFragments_spec _ _ hfresh).1,
      List.flatMap_append, List.flatMap_cons, hbad, List.append_assoc]

/-- Two converters on one cache: the second meets a page of which the first has remembered one formula
and failed on another, and makes of it what a fresh converter makes of it. -/
theorem memory_invisible_shared :
    ∃ (pool : Pool) (second : Converter),
      empty.carryOutAll
          [("a", .setUp (some "s")), ("b", .setUp (some "s")), ("a", .convert "2x, $+".toList),
            ("a", .convertFragment "1+".toList), ("b", .convert "\\frac{1}{2}".toList)] = some pool
        ∧ pool.converter? "b" = some (0, second)
        ∧ second.cache.entries.length = 2
        ∧ (second.convert "2x \\frac{1}{2} \\(1+\\)".toList).1
          = (Converter.fresh.convert "2x \\frac{1}{2} \\(1+\\)".toList).1 := by
  have hrun : ∃ pool, empty.carryOutAll
      [("a", .setUp (some "s")), ("b", .setUp (some "s")), ("a", .convert "2x, $+".toList),
        ("a", .convertFragment "1+".toList), ("b", .convert "\\frac{1}{2}".toList)] = some pool
      ∧ ∃ second, pool.converter? "b" = some (0, second) ∧ second.cache.entries.length = 2 :=
    ⟨_, rfl, _, rfl, rfl⟩
  obtain ⟨pool, hrun, second, hc, hlength⟩ := hrun
  exact ⟨pool, second, hrun, hc, hlength,
    ((memory_invisible (by decide) hrun).2 "b" 0 second hc).1 _⟩

end Pool

end MathScribe

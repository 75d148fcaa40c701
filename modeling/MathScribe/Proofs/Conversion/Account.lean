/-
The account of reading.

Four numbers are kept in different places while pages are converted: how often each converter has read a
formula, how many look-ups in the cache have succeeded and failed, and how many entries the cache has. This
file shows how they hang together when converters share one cache (`Pool.account_exact`). The account is
kept against the normal forms that have been met, in their order: `Cache.Accounts` says what a cache and a
number of readings owe to them.

A conversion meets one normal form. It finds the form in the cache, or reads it and has nothing to remember,
or reads it and remembers it, and each of the three leaves the account right (`Accounts.hit`,
`Accounts.failure`, `Accounts.success`). A page is a row of conversions, and a run is a row of pages and
conversions by converters that come and go; at each step only one of them reads, so the readings of the
others are a number that does not change.
-/
import MathScribe.Proofs.Conversion.Memo

set_option autoImplicit false

namespace MathScribe

/-! ## What is met -/

/-- A normal form has a rendering. -/
def hasRendering (normal : Text) : Bool :=
  (renderNormal? normal).isSome

/-- The normal forms of the formulas among fragments, in their order. -/
def Fragment.normals (fragments : List Fragment) : List Text :=
  (fragments.filter Fragment.isMath).map fun fragment => Latex.normalize fragment.body

namespace Request

/-- The normal forms of the formulas that a request converts, in their order. -/
def normals : Request → List Text
  | convert page => Fragment.normals (Fragment.ofPage page)
  | convertFragment formula => [Latex.normalize formula]
  | _ => []

/-- A request that converts. -/
def isConversion : Request → Bool
  | convert _ | convertFragment _ => true
  | _ => false

end Request

/-! ## The account of a cache -/

namespace Cache

/-- What a cache and a number of readings owe to the normal forms that have been met. -/
structure Accounts (cache : Cache) (met : List Text) (readings : Nat) : Prop where
  /-- Each look-up that fails is followed by a reading. -/
  misses : cache.misses = readings
  /-- Each normal form that is met is looked up once. -/
  lookUps : cache.hits + cache.misses = met.length
  nodup : (cache.entries.map Prod.fst).Nodup
  /-- The keys are the forms that have been met and have a rendering. -/
  mem_keys : ∀ normal, normal ∈ cache.entries.map Prod.fst ↔ normal ∈ met ∧ hasRendering normal = true
  /-- A form that has a rendering is read for its entry, any other one each time. -/
  readings : readings = cache.size + met.countP fun normal => !hasRendering normal

variable {cache : Cache} {met : List Text} {readings : Nat} {normal rendering : Text}

theorem accounts_empty : empty.Accounts [] 0 :=
  ⟨rfl, rfl, .nil, by simp [empty], rfl⟩

theorem find?_eq_none_iff : cache.find? normal = none ↔ normal ∉ cache.entries.map Prod.fst := by
  rw [find?, List.lookup_eq_none_iff]
  simp only [bne_iff_ne, ne_eq, List.mem_map, not_exists, not_and]
  exact ⟨fun h entry hmem heq => h entry hmem heq.symm, fun h entry hmem heq => h entry hmem heq.symm⟩

theorem get_of_find?_some (h : cache.find? normal = some rendering) :
    (cache.get normal).2 = { cache with hits := cache.hits + 1 } := by
  unfold get
  rw [h]

theorem get_of_find?_none (h : cache.find? normal = none) :
    (cache.get normal).2 = { cache with misses := cache.misses + 1 } := by
  unfold get
  rw [h]

/-- A new key joins the others. -/
theorem keys_put (h : normal ∉ cache.entries.map Prod.fst) :
    (cache.put normal rendering).entries.map Prod.fst = normal :: cache.entries.map Prod.fst := by
  have hothers : cache.entries.filter (·.1 != normal) = cache.entries := by
    refine List.filter_eq_self.mpr fun entry hmem => ?_
    rw [bne_iff_ne]
    rintro rfl
    exact h (List.mem_map_of_mem hmem)
  rw [put, List.map_cons, hothers]

namespace Accounts

/-- The entries are as many as the different forms that have been met and have a rendering. -/
theorem size_eq (h : cache.Accounts met readings) : cache.size = (met.filter hasRendering).dedup.length := by
  have hperm : (cache.entries.map Prod.fst).Perm (met.filter hasRendering).dedup := by
    refine (List.perm_ext_iff_of_nodup h.nodup (List.nodup_dedup _)).mpr fun normal => ?_
    rw [h.mem_keys, List.mem_dedup, List.mem_filter]
  rw [size, ← hperm.length_eq, List.length_map]

/-- A form that is in the cache is met once more. -/
theorem hit (h : cache.Accounts met readings) (hf : cache.find? normal = some rendering) :
    (cache.get normal).2.Accounts (met ++ [normal]) readings := by
  have hkey : normal ∈ cache.entries.map Prod.fst := by
    by_contra hnot
    rw [find?_eq_none_iff.mpr hnot] at hf
    cases hf
  obtain ⟨hmet, hrendering⟩ := (h.mem_keys normal).mp hkey
  rw [get_of_find?_some hf]
  refine ⟨h.misses, ?_, h.nodup, fun other => ?_, ?_⟩
  · have hlookUps := h.lookUps
    simp only [List.length_append, List.length_singleton]
    omega
  · -- The form has been met before.
    rw [h.mem_keys, List.mem_append, List.mem_singleton]
    constructor
    · exact fun hother => ⟨.inl hother.1, hother.2⟩
    · rintro ⟨hother | rfl, hrendered⟩
      · exact ⟨hother, hrendered⟩
      · exact ⟨hmet, hrendered⟩
  · rw [List.countP_append, List.countP_singleton, hrendering]
    exact h.readings

/-- A form without a rendering is looked up in vain and read in vain. -/
theorem failure (h : cache.Accounts met readings) (hf : cache.find? normal = none)
    (hr : renderNormal? normal = none) :
    (cache.get normal).2.Accounts (met ++ [normal]) (readings + 1) := by
  have hrendering : hasRendering normal = false := by rw [hasRendering, hr]; rfl
  rw [get_of_find?_none hf]
  refine ⟨congrArg (· + 1) h.misses, ?_, h.nodup, fun other => ?_, ?_⟩
  · have hlookUps := h.lookUps
    simp only [List.length_append, List.length_singleton]
    omega
  · rw [h.mem_keys, List.mem_append, List.mem_singleton]
    constructor
    · exact fun hother => ⟨.inl hother.1, hother.2⟩
    · rintro ⟨hother | rfl, hrendered⟩
      · exact ⟨hother, hrendered⟩
      · rw [hrendering] at hrendered
        cases hrendered
  · have hreadings := h.readings
    rw [List.countP_append, List.countP_singleton, hrendering]
    simp only [size, Bool.not_false, if_true] at hreadings ⊢
    omega

/-- A new form is looked up in vain, read and remembered. -/
theorem success (h : cache.Accounts met readings) (hf : cache.find? normal = none)
    (hr : renderNormal? normal = some rendering) :
    ((cache.get normal).2.put normal rendering).Accounts (met ++ [normal]) (readings + 1) := by
  have hrendering : hasRendering normal = true := by rw [hasRendering, hr]; rfl
  rw [get_of_find?_none hf]
  have hkeys := @keys_put { cache with misses := cache.misses + 1 } normal rendering
    (find?_eq_none_iff.mp hf)
  refine ⟨congrArg (· + 1) h.misses, ?_, ?_, fun other => ?_, ?_⟩
  · have hlookUps := h.lookUps
    simp only [put, List.length_append, List.length_singleton]
    omega
  · rw [hkeys]
    exact List.nodup_cons.mpr ⟨find?_eq_none_iff.mp hf, h.nodup⟩
  · rw [hkeys, List.mem_cons, h.mem_keys, List.mem_append, List.mem_singleton]
    constructor
    · rintro (rfl | hother)
      · exact ⟨.inr rfl, hrendering⟩
      · exact ⟨.inl hother.1, hother.2⟩
    · rintro ⟨hother | rfl, hrendered⟩
      · exact .inr ⟨hother, hrendered⟩
      · exact .inl rfl
  · have hreadings := h.readings
    have hsize := congrArg List.length hkeys
    simp only [List.length_map, List.length_cons] at hsize
    rw [List.countP_append, List.countP_singleton, hrendering]
    simp only [size, hsize, Bool.not_true, Bool.false_eq_true, if_false] at hreadings ⊢
    omega

end Accounts

end Cache

/-! ## The account of a converter -/

namespace Converter

/-- **One conversion leaves the account right**, whatever others have read. It reads the formula unless its
normal form has been met and has a rendering. -/
theorem convertFragment_accounts {converter : Converter} {met : List Text} {others : Nat}
    (h : converter.cache.Accounts met (others + converter.parseCount)) (formula : Text) :
    (converter.convertFragment formula).2.cache.Accounts (met ++ [Latex.normalize formula])
        (others + (converter.convertFragment formula).2.parseCount)
      ∧ (converter.convertFragment formula).2.parseCount = converter.parseCount
        + if Latex.normalize formula ∈ met ∧ hasRendering (Latex.normalize formula) = true then 0 else 1 := by
  cases hf : converter.cache.find? (Latex.normalize formula) with
  | some value =>
    have hkey : Latex.normalize formula ∈ converter.cache.entries.map Prod.fst := by
      by_contra hnot
      rw [Cache.find?_eq_none_iff.mpr hnot] at hf
      cases hf
    rw [convertFragment_of_hit hf, if_pos ((h.mem_keys _).mp hkey)]
    exact ⟨h.hit hf, rfl⟩
  | none =>
    have hnew := mt (h.mem_keys _).mpr (Cache.find?_eq_none_iff.mp hf)
    cases hr : renderNormal? (Latex.normalize formula) with
    | none =>
      rw [convertFragment_of_failure hf hr, if_neg hnew]
      exact ⟨h.failure hf hr, rfl⟩
    | some rendering =>
      rw [convertFragment_of_success hf hr, if_neg hnew]
      exact ⟨h.success hf hr, rfl⟩

/-- The fragments of a page, converted one after another. The induction is on the fragments, and what has been
met grows from one to the next. -/
theorem convertFragments_accounts {others : Nat} (fragments : List Fragment) :
    ∀ (converter : Converter) (met : List Text),
      converter.cache.Accounts met (others + converter.parseCount) →
      (converter.convertFragments fragments).2.cache.Accounts (met ++ Fragment.normals fragments)
        (others + (converter.convertFragments fragments).2.parseCount) := by
  induction fragments with
  | nil =>
    intro converter met h
    rw [Fragment.normals, List.filter_nil, List.map_nil, List.append_nil]
    exact h
  | cons fragment fragments ih =>
    intro converter met h
    unfold convertFragments
    cases hmath : fragment.isMath with
    | true =>
      have hnormals : Fragment.normals (fragment :: fragments)
          = Latex.normalize fragment.body :: Fragment.normals fragments := by
        simp only [Fragment.normals, List.filter_cons, hmath, if_true, List.map_cons]
      rw [hnormals, List.append_cons]
      exact ih _ _ (convertFragment_accounts h fragment.body).1
    | false =>
      have hnormals : Fragment.normals (fragment :: fragments) = Fragment.normals fragments := by
        simp only [Fragment.normals, List.filter_cons, hmath, Bool.false_eq_true, if_false]
      rw [hnormals]
      exact ih _ _ h

end Converter

namespace Pool

/-- A request to convert leaves the account right. -/
theorem work_accounts {converter : Converter} {met : List Text} {others : Nat} {request : Request}
    (hrequest : request.isConversion = true)
    (h : converter.cache.Accounts met (others + converter.parseCount)) :
    (work converter request).2.cache.Accounts (met ++ request.normals)
      (others + (work converter request).2.parseCount) := by
  cases request with
  | convert page => exact Converter.convertFragments_accounts (Fragment.ofPage page) converter met h
  | convertFragment formula => exact (Converter.convertFragment_accounts h formula).1
  | setUp | put | get | contains | clear => cases hrequest

/-! ## Converters that share a cache -/

/-- How often the converter of a name has read a formula. -/
def parseCountOf (pool : Pool) (name : String) : Nat :=
  ((pool.converter? name).map (·.2.parseCount)).getD 0

/-- How often the converters of the names have read a formula, all together. -/
def readings (pool : Pool) (names : List String) : Nat :=
  (names.map pool.parseCountOf).sum

/-- The names of the converters that are set up, in their order. -/
def setUpNames (requests : List (String × Request)) : List String :=
  requests.filterMap fun (name, request) =>
    match request with
    | .setUp _ => some name
    | _ => none

/-- The normal forms of the formulas that are converted, in their order. -/
def normalsOf (requests : List (String × Request)) : List Text :=
  requests.flatMap fun (_, request) => request.normals

/-- Converters are set up on one shared cache, each once, and convert; nothing else is done with the
cache. -/
structure SharedUse (cacheName : String) (requests : List (String × Request)) : Prop where
  only : ∀ request ∈ requests,
    request.2 = .setUp (some cacheName) ∨ request.2.isConversion = true
  once : (setUpNames requests).Nodup

/-- The converters of a pool are among those of the names, and all of them use the one cache, which has a
name. -/
structure Shares (cacheName : String) (names : List String) (cache : Cache) (pool : Pool) : Prop where
  caches : pool.caches = [cache]
  shared : pool.shared.lookup cacheName = some 0
  members : ∀ name member, pool.members.lookup name = some member →
    member.cacheIndex = 0 ∧ name ∈ names

/-- A request to convert is work for the converter of its name. -/
theorem carryOut_of_isConversion {request : Request} (hrequest : request.isConversion = true)
    (pool : Pool) (name : String) :
    pool.carryOut name request
      = (pool.converter? name).map fun found =>
          (⟨(work found.2 request).1, (work found.2 request).2.parseCount,
              (work found.2 request).2.cache.stats⟩,
            pool.store name found.1 (work found.2 request).2) := by
  cases request with
  | convert | convertFragment => cases hfound : pool.converter? name <;> simp [carryOut, hfound]
  | setUp | put | get | contains | clear => cases hrequest

section Shares

variable {cacheName name : String} {names : List String} {cache : Cache} {pool : Pool}

/-- A converter of the pool works with the cache. -/
theorem Shares.converter?_eq (h : Shares cacheName names cache pool) (name : String) :
    pool.converter? name
      = (pool.members.lookup name).map fun member => (0, ⟨cache, member.parseCount⟩) := by
  unfold converter?
  cases hlookup : pool.members.lookup name with
  | none => rfl
  | some member => simp [h.caches, (h.members name member hlookup).1]

theorem Shares.parseCountOf_eq (h : Shares cacheName names cache pool) (name : String) :
    pool.parseCountOf name = ((pool.members.lookup name).map Member.parseCount).getD 0 := by
  rw [parseCountOf, h.converter?_eq, Option.map_map]
  rfl

/-- A converter is put back with what it has read, and with the cache that it leaves. -/
theorem Shares.store (h : Shares cacheName names cache pool) (hname : name ∈ names)
    (converter : Converter) :
    Shares cacheName names converter.cache (pool.store name 0 converter) := by
  refine ⟨by simp [Pool.store, h.caches], h.shared, fun other member hlookup => ?_⟩
  rw [Pool.store, List.lookup_cons] at hlookup
  split at hlookup
  · next heq =>
    cases hlookup
    exact ⟨rfl, eq_of_beq heq ▸ hname⟩
  · exact h.members other member hlookup

/-- Only the converter that is put back has read anything since. -/
theorem Shares.readings_store (h : Shares cacheName names cache pool) (hnames : names.Nodup)
    (hname : name ∈ names) (converter : Converter) :
    ∃ others, pool.readings names = others + pool.parseCountOf name
      ∧ (pool.store name 0 converter).readings names = others + converter.parseCount := by
  have hstored := h.store hname converter
  have hself : (pool.store name 0 converter).parseCountOf name = converter.parseCount := by
    rw [hstored.parseCountOf_eq, Pool.store, List.lookup_cons_self]
    rfl
  have hother : ∀ other ∈ names.erase name,
      (pool.store name 0 converter).parseCountOf other = pool.parseCountOf other := by
    intro other hmem
    have hne : (other == name) = false := beq_eq_false_iff_ne.mpr ((hnames.mem_erase_iff.mp hmem).1)
    rw [hstored.parseCountOf_eq, h.parseCountOf_eq, Pool.store, List.lookup_cons, hne]
  refine ⟨pool.readings (names.erase name), ?_, ?_⟩
  · rw [readings, readings, ← List.sum_map_erase _ hname, Nat.add_comm]
  · rw [readings, readings, ← List.sum_map_erase _ hname, hself, Nat.add_comm,
      List.map_congr_left hother]

/-- A new converter has read nothing. -/
theorem Shares.setUp (h : Shares cacheName names cache pool) (hname : name ∉ names) :
    ∃ next, pool.carryOut name (.setUp (some cacheName)) = some (⟨.nothing, 0, cache.stats⟩, next)
      ∧ Shares cacheName (names ++ [name]) cache next
      ∧ next.readings (names ++ [name]) = pool.readings names := by
  have hready : Shares cacheName (names ++ [name]) cache (pool.setUp name (some cacheName)) := by
    refine ⟨?_, ?_, fun other member hlookup => ?_⟩
    · simp [Pool.setUp, h.shared, h.caches]
    · simp [Pool.setUp, h.shared]
    · simp only [Pool.setUp, Option.bind_some, h.shared, List.lookup_cons] at hlookup
      split at hlookup
      · next heq =>
        cases hlookup
        exact ⟨rfl, by simp [eq_of_beq heq]⟩
      · obtain ⟨hindex, hmem⟩ := h.members other member hlookup
        exact ⟨hindex, List.mem_append_left _ hmem⟩
  have hlookup : (pool.setUp name (some cacheName)).members.lookup name = some ⟨0, 0⟩ := by
    simp [Pool.setUp, h.shared]
  have hfound : (pool.setUp name (some cacheName)).converter? name = some (0, ⟨cache, 0⟩) := by
    rw [hready.converter?_eq, hlookup]
    rfl
  have hmem : name ∈ names ++ [name] := by simp
  have hstored := hready.store hmem ⟨cache, 0⟩
  refine ⟨_, by simp only [carryOut, hfound, work], hstored, ?_⟩
  -- The new name stands in front of the others, so its count is found first and theirs are found behind it.
  have hself : ((pool.setUp name (some cacheName)).store name 0 ⟨cache, 0⟩).parseCountOf name = 0 := by
    rw [hstored.parseCountOf_eq, Pool.store, List.lookup_cons_self]
    rfl
  have hother : ∀ other ∈ names,
      ((pool.setUp name (some cacheName)).store name 0 ⟨cache, 0⟩).parseCountOf other
        = pool.parseCountOf other := by
    intro other hother
    have hne : (other == name) = false := beq_eq_false_iff_ne.mpr fun heq => hname (heq ▸ hother)
    rw [hstored.parseCountOf_eq, h.parseCountOf_eq, Pool.store, List.lookup_cons, hne]
    simp only [Pool.setUp, Option.bind_some, h.shared]
    rw [List.lookup_cons, hne]
  rw [readings, readings, List.map_append, List.sum_append, List.map_congr_left hother]
  simp [hself]

/-- A request to convert is carried out by a converter of the pool, which is then put back. -/
theorem Shares.carryOut_conversion {request : Request} {reply : Reply} {next : Pool}
    (h : Shares cacheName names cache pool) (hrequest : request.isConversion = true)
    (hstep : pool.carryOut name request = some (reply, next)) :
    name ∈ names ∧ next = pool.store name 0 (work ⟨cache, pool.parseCountOf name⟩ request).2 := by
  rw [carryOut_of_isConversion hrequest, h.converter?_eq] at hstep
  rw [h.parseCountOf_eq]
  cases hlookup : pool.members.lookup name with
  | none => simp [hlookup] at hstep
  | some member =>
    simp only [hlookup, Option.map_some, Option.some.injEq, Prod.mk.injEq] at hstep
    exact ⟨(h.members name member hlookup).2, hstep.2.symm⟩

/-- The account of the cache goes on behind a conversion: the readings of all converters grow by those of the
one that converts. -/
theorem Shares.conversion {request : Request} {reply : Reply} {next : Pool} {met : List Text}
    (h : Shares cacheName names cache pool) (hnames : names.Nodup)
    (haccounts : cache.Accounts met (pool.readings names)) (hrequest : request.isConversion = true)
    (hstep : pool.carryOut name request = some (reply, next)) :
    ∃ left, Shares cacheName names left next
      ∧ left.Accounts (met ++ request.normals) (next.readings names) := by
  obtain ⟨hname, rfl⟩ := h.carryOut_conversion hrequest hstep
  obtain ⟨others, hbefore, hafter⟩ :=
    h.readings_store hnames hname (work ⟨cache, pool.parseCountOf name⟩ request).2
  rw [hbefore] at haccounts
  refine ⟨_, h.store hname _, ?_⟩
  rw [hafter]
  exact work_accounts hrequest haccounts

/-- A formula is read unless its normal form has been met and has a rendering. -/
theorem Shares.readings_convertFragment {formula : Text} {reply : Reply} {next : Pool} {met : List Text}
    (h : Shares cacheName names cache pool) (hnames : names.Nodup)
    (haccounts : cache.Accounts met (pool.readings names))
    (hstep : pool.carryOut name (.convertFragment formula) = some (reply, next)) :
    next.readings names = pool.readings names
      + if Latex.normalize formula ∈ met ∧ hasRendering (Latex.normalize formula) = true then 0 else 1 := by
  obtain ⟨hname, rfl⟩ := h.carryOut_conversion rfl hstep
  obtain ⟨others, hbefore, hafter⟩ :=
    h.readings_store hnames hname (work ⟨cache, pool.parseCountOf name⟩ (.convertFragment formula)).2
  rw [hbefore] at haccounts
  rw [hafter, hbefore, Nat.add_assoc]
  exact congrArg (others + ·) (Converter.convertFragment_accounts haccounts formula).2

end Shares

/-! ## The account of a run -/

/-- The pool that requests have led to shares one cache, and the account of the cache is right. -/
def Accounted (cacheName : String) (done : List (String × Request)) (pool : Pool) : Prop :=
  ∃ cache, Shares cacheName (setUpNames done) cache pool
    ∧ cache.Accounts (normalsOf done) (pool.readings (setUpNames done))

section Run

variable {cacheName name : String} {done rest : List (String × Request)} {request : Request}
  {reply : Reply} {pool next : Pool}

/-- What is set up is not met, and what converts is not set up. -/
theorem setUpNames_of_isConversion (h : request.isConversion = true) :
    setUpNames [(name, request)] = [] := by
  cases request with
  | convert | convertFragment => rfl
  | setUp | put | get | contains | clear => cases h

/-- The first request sets a converter up, and with it the cache. -/
theorem accounted_first
    (hrequest : request = .setUp (some cacheName) ∨ request.isConversion = true)
    (hstep : empty.carryOut name request = some (reply, next)) :
    Accounted cacheName [(name, request)] next := by
  rcases hrequest with rfl | hconversion
  · obtain rfl : (empty.setUp name (some cacheName)).store name 0 ⟨Cache.empty, 0⟩ = next := by
      simpa [carryOut, converter?, setUp, empty, work] using congrArg (·.map Prod.snd) hstep
    refine ⟨Cache.empty, ⟨rfl, by simp [empty, setUp, store], fun other member hlookup => ?_⟩, ?_⟩
    · simp only [store, setUp, empty, Option.bind_some, List.lookup_nil, List.lookup_cons] at hlookup
      split at hlookup
      · next heq =>
        cases hlookup
        exact ⟨rfl, by simp [setUpNames, eq_of_beq heq]⟩
      · cases hlookup
    · have hnone : ((empty.setUp name (some cacheName)).store name 0 ⟨Cache.empty, 0⟩).readings [name]
          = 0 := by
        simp [readings, parseCountOf, converter?, store, setUp, empty]
      exact hnone.symm ▸ Cache.accounts_empty
  · rw [carryOut_of_isConversion hconversion] at hstep
    cases hstep

/-- **One request leaves the account right.** -/
theorem Accounted.step (h : Accounted cacheName done pool)
    (hrequest : request = .setUp (some cacheName) ∨ request.isConversion = true)
    (honce : (setUpNames (done ++ [(name, request)])).Nodup)
    (hstep : pool.carryOut name request = some (reply, next)) :
    Accounted cacheName (done ++ [(name, request)]) next := by
  obtain ⟨cache, hshares, haccounts⟩ := h
  have hnormals : normalsOf (done ++ [(name, request)]) = normalsOf done ++ request.normals := by
    simp [normalsOf]
  have hnames : setUpNames (done ++ [(name, request)])
      = setUpNames done ++ setUpNames [(name, request)] := List.filterMap_append
  rw [hnames] at honce
  rw [Accounted, hnames, hnormals]
  rcases hrequest with rfl | hconversion
  · have hname : name ∉ setUpNames done := fun hmem =>
      (List.nodup_append.mp honce).2.2 name hmem name (by simp [setUpNames]) rfl
    obtain ⟨ready, hready, hshared, hreadings⟩ := hshares.setUp hname
    rw [hready] at hstep
    cases hstep
    refine ⟨cache, hshared, ?_⟩
    rw [show (Request.setUp (some cacheName)).normals = [] from rfl, List.append_nil]
    exact hreadings.symm ▸ haccounts
  · rw [setUpNames_of_isConversion hconversion, List.append_nil] at honce ⊢
    exact hshares.conversion honce haccounts hconversion hstep

/-- A row of requests leaves the account right. The induction is on the row, behind any requests that have
been carried out before. -/
theorem Accounted.run (rest : List (String × Request)) :
    ∀ (done : List (String × Request)) (pool final : Pool), Accounted cacheName done pool →
      SharedUse cacheName (done ++ rest) → pool.carryOutAll rest = some final →
      Accounted cacheName (done ++ rest) final := by
  induction rest with
  | nil =>
    intro done pool final h _ hrun
    cases hrun
    rwa [List.append_nil]
  | cons first rest ih =>
    intro done pool final h hshared hrun
    obtain ⟨name, request⟩ := first
    unfold carryOutAll at hrun
    split at hrun
    · cases hrun
    · next reply next hstep =>
      have honce : (setUpNames (done ++ [(name, request)])).Nodup := by
        have hall := hshared.once
        rw [List.append_cons, setUpNames, List.filterMap_append] at hall
        exact (List.nodup_append.mp hall).1
      have hrequest := hshared.only (name, request) (by simp)
      rw [List.append_cons] at hshared ⊢
      exact ih _ next final (h.step hrequest honce hstep) hshared hrun

/-- Requests that share a cache leave the account right. -/
theorem accounted_of_run {requests : List (String × Request)} (hshared : SharedUse cacheName requests)
    (hne : requests ≠ []) (hrun : empty.carryOutAll requests = some pool) :
    Accounted cacheName requests pool := by
  obtain ⟨⟨name, request⟩, rest, rfl⟩ := List.exists_cons_of_ne_nil hne
  unfold carryOutAll at hrun
  split at hrun
  · cases hrun
  · next reply next hstep =>
    have hfirst := accounted_first (hshared.only (name, request) List.mem_cons_self) hstep
    exact Accounted.run rest [(name, request)] next pool hfirst hshared hrun

/-- **The account of reading is exact.** Let converters be set up on one shared cache, each once, and convert
pages and formulas in any order. Then the look-ups that fail are the readings of all converters; every
formula that is converted is looked up once; the entries are as many as the different normal forms that have
been met and have a rendering; and the readings are the entries and the formulas without a rendering, each
time one is met. So a formula that is converted next is read if and only if its normal form has not been met
or has no rendering, whichever converter has met it. -/
theorem account_exact {requests : List (String × Request)} (hshared : SharedUse cacheName requests)
    (hne : requests ≠ []) (hrun : empty.carryOutAll requests = some pool) :
    ∃ cache, pool.caches = [cache]
      ∧ cache.misses = pool.readings (setUpNames requests)
      ∧ cache.hits + cache.misses = (normalsOf requests).length
      ∧ cache.size = ((normalsOf requests).filter hasRendering).dedup.length
      ∧ pool.readings (setUpNames requests)
        = cache.size + (normalsOf requests).countP (fun normal => !hasRendering normal)
      ∧ ∀ name formula reply next,
          pool.carryOut name (.convertFragment formula) = some (reply, next) →
          next.readings (setUpNames requests) = pool.readings (setUpNames requests)
            + if Latex.normalize formula ∈ normalsOf requests
                ∧ hasRendering (Latex.normalize formula) = true then 0 else 1 := by
  obtain ⟨cache, hshares, haccounts⟩ := accounted_of_run hshared hne hrun
  refine ⟨cache, hshares.caches, haccounts.misses, haccounts.lookUps, haccounts.size_eq,
    haccounts.readings, fun name formula reply next hstep => ?_⟩
  exact hshares.readings_convertFragment hshared.once haccounts hstep

/-- Two converters on one cache. The first reads two of the three formulas of its page, since two are one
formula in different spellings; the second finds the one that has been read, and reads the one that has failed
once more. -/
theorem account_exact_shared :
    ∃ pool cache, empty.carryOutAll
        [("a", .setUp (some "s")), ("a", .convert "\\((x)\\), \\(+\\), \\(\\left(x\\right)\\)".toList),
          ("b", .setUp (some "s")), ("b", .convertFragment "(x)".toList),
          ("b", .convertFragment "+".toList)] = some pool
      ∧ pool.caches = [cache] ∧ cache.misses = pool.readings ["a", "b"] ∧ cache.size = 1
      ∧ pool.parseCountOf "a" = 2 ∧ pool.parseCountOf "b" = 1 := by
  have hshared : SharedUse "s"
      [("a", .setUp (some "s")), ("a", .convert "\\((x)\\), \\(+\\), \\(\\left(x\\right)\\)".toList),
        ("b", .setUp (some "s")), ("b", .convertFragment "(x)".toList),
        ("b", .convertFragment "+".toList)] :=
    ⟨by decide, by decide⟩
  obtain ⟨pool, hrun, ha, hb⟩ : ∃ pool, empty.carryOutAll
      [("a", .setUp (some "s")), ("a", .convert "\\((x)\\), \\(+\\), \\(\\left(x\\right)\\)".toList),
        ("b", .setUp (some "s")), ("b", .convertFragment "(x)".toList),
        ("b", .convertFragment "+".toList)] = some pool
      ∧ pool.parseCountOf "a" = 2 ∧ pool.parseCountOf "b" = 1 := ⟨_, rfl, rfl, rfl⟩
  obtain ⟨cache, hcaches, hmisses, -, hsize, -⟩ := account_exact hshared (by decide) hrun
  refine ⟨pool, cache, hrun, hcaches, hmisses, ?_, ha, hb⟩
  rw [hsize]
  rfl

end Run

end Pool

end MathScribe

/-
Remembering renderings.

A cache maps the normal form of a formula to its rendering and counts how often a look-up succeeds.
Entries are never dropped one by one: the cache grows until it is cleared. It is a row of pairs in
which a key occurs at most once; `put` keeps it so.
-/
import MathScribe.Text.Blank

set_option autoImplicit false

namespace MathScribe

/-- The renderings met so far, with the account of look-ups (`ConversionCache`). -/
structure Cache where
  /-- Each normal form with its rendering. -/
  entries : List (Text × Text)
  /-- How many look-ups have succeeded. -/
  hits : Nat
  /-- How many look-ups have failed. -/
  misses : Nat
  deriving DecidableEq, Repr

/-- The account of a cache. -/
structure CacheStats where
  entries : Nat
  hits : Nat
  misses : Nat
  deriving DecidableEq, Repr

namespace Cache

/-- The cache that nothing has been put into. -/
def empty : Cache :=
  ⟨[], 0, 0⟩

/-- The rendering of a key, without counting the look-up. -/
def find? (cache : Cache) (key : Text) : Option Text :=
  cache.entries.lookup key

/-- Look a key up, and count the look-up (`get`). -/
def get (cache : Cache) (key : Text) : Option Text × Cache :=
  match cache.find? key with
  | some value => (some value, { cache with hits := cache.hits + 1 })
  | none => (none, { cache with misses := cache.misses + 1 })

/-- Remember a rendering in the place of an earlier one for the same key (`put`). -/
def put (cache : Cache) (key value : Text) : Cache :=
  { cache with entries := (key, value) :: cache.entries.filter (·.1 != key) }

/-- Whether a key has a rendering, without counting a look-up. -/
def contains (cache : Cache) (key : Text) : Bool :=
  (cache.find? key).isSome

/-- The number of entries. -/
def size (cache : Cache) : Nat :=
  cache.entries.length

/-- The account of the cache (`stats`). -/
def stats (cache : Cache) : CacheStats :=
  ⟨cache.size, cache.hits, cache.misses⟩

end Cache

end MathScribe

/-
Converters that work side by side.

A pool holds named converters. Each of them has a cache: one of its own, or one that it shares with
others under a name. Requests are carried out one after another, and each is answered with what it
yields and with the account of the converter that it is for.
-/
import MathScribe.Conversion.Converter

set_option autoImplicit false

namespace MathScribe

/-- A converter of a pool: where its cache is, and how often it has read a formula. -/
structure Member where
  /-- The number of its cache. -/
  cacheIndex : Nat
  /-- How often it has read a formula. -/
  parseCount : Nat
  deriving DecidableEq, Repr

/-- Named converters and their caches. -/
structure Pool where
  /-- All caches, by number. -/
  caches : List Cache
  /-- The numbers of the caches that have a name. -/
  shared : List (String × Nat)
  /-- The converters by name, the latest state of each first. -/
  members : List (String × Member)
  deriving DecidableEq, Repr

/-- What can be asked of a pool for the converter that it is addressed to. -/
inductive Request
  /-- Set the converter up, with a cache of its own or with the shared cache of the given name. -/
  | setUp (cacheName : Option String)
  /-- Convert a page. -/
  | convert (page : Text)
  /-- Convert a formula. -/
  | convertFragment (formula : Text)
  /-- Put an entry into the cache. -/
  | put (key value : Text)
  /-- Look a key up in the cache, and count the look-up. -/
  | get (key : Text)
  /-- Ask whether the cache has a key. -/
  | contains (key : Text)
  /-- Clear the cache. -/
  | clear
  deriving DecidableEq, Repr

/-- What a request yields. -/
inductive Yield
  | nothing
  | text (text : Text)
  | flag (holds : Bool)
  deriving DecidableEq, Repr

/-- The answer to a request: what it yields, and the account of the converter behind it. -/
structure Reply where
  value : Yield
  parseCount : Nat
  stats : CacheStats
  deriving DecidableEq, Repr

namespace Pool

/-- The pool without converters. -/
def empty : Pool :=
  ⟨[], [], []⟩

/-- Set a converter up in the place of an earlier one of the same name. A shared cache that does not
exist yet starts empty. -/
def setUp (pool : Pool) (name : String) (cacheName : Option String) : Pool :=
  match cacheName.bind (pool.shared.lookup ·) with
  | some index => { pool with members := (name, ⟨index, 0⟩) :: pool.members }
  | none =>
    let index := pool.caches.length
    { caches := pool.caches ++ [Cache.empty],
      shared := (cacheName.map (·, index)).toList ++ pool.shared,
      members := (name, ⟨index, 0⟩) :: pool.members }

/-- The converter of a name, with the number of its cache. -/
def converter? (pool : Pool) (name : String) : Option (Nat × Converter) :=
  match pool.members.lookup name with
  | none => none
  | some member =>
    (pool.caches[member.cacheIndex]?).map fun cache =>
      (member.cacheIndex, ⟨cache, member.parseCount⟩)

/-- Put a converter back to its place. -/
def store (pool : Pool) (name : String) (index : Nat) (converter : Converter) : Pool :=
  { pool with
    caches := pool.caches.set index converter.cache,
    members := (name, ⟨index, converter.parseCount⟩) :: pool.members }

/-- What a request does with the converter that it is addressed to, once that has been set up. -/
def work (converter : Converter) : Request → Yield × Converter
  | .setUp _ => (.nothing, converter)
  | .convert page =>
    let (text, next) := converter.convert page
    (.text text, next)
  | .convertFragment formula =>
    let (text, next) := converter.convertFragment formula
    (.text text, next)
  | .put key value => (.nothing, { converter with cache := converter.cache.put key value })
  | .get key =>
    let (found, cache) := converter.cache.get key
    ((found.map Yield.text).getD .nothing, { converter with cache := cache })
  | .contains key => (.flag (converter.cache.contains key), converter)
  | .clear => (.nothing, { converter with cache := Cache.empty })

/-- Carry out a request for the named converter. There is no reply when no such converter has been
set up. -/
def carryOut (pool : Pool) (name : String) (request : Request) : Option (Reply × Pool) :=
  let ready :=
    match request with
    | .setUp cacheName => pool.setUp name cacheName
    | _ => pool
  match ready.converter? name with
  | none => none
  | some (index, converter) =>
    let (value, next) := work converter request
    some (⟨value, next.parseCount, next.cache.stats⟩, ready.store name index next)

end Pool

end MathScribe

import MissionTime.Denotation.Engine
import MissionTime.Dictionary

/-!
# Sessions

Runs that share a cache of covers and keep a log.

**Definitions.**
* `Cache`, a dictionary of covers by formula for each number of variables and configuration, with a
  count of the look-ups that were answered;
* `Session`, a cache and a log, and `SessionM`, computations on it that may fail;
* `Engine.cachedHost` and `Engine.loggedHost`, the hosts of runs in a session;
* `Request`, what a session is asked for, and `Request.perform`.

**Results.**
* `Cache.find?_insert` and `Cache.find?_eq_some_iff`: the two levels of a cache are one dictionary.

A computation that fails leaves the session as it was at the failure.
-/

namespace MissionTime

/-- What an entry of a cache is found by. -/
structure CacheKey where
  vars : Nat
  config : Config
  formula : NormalFormula
deriving DecidableEq

/-- What all entries of one dictionary of a cache share. -/
def CacheKey.shelf (key : CacheKey) : Nat × Config :=
  (key.vars, key.config)

theorem CacheKey.eq_iff
    {key other : CacheKey} :
    key = other ↔ key.shelf = other.shelf ∧ key.formula = other.formula := by
  cases key
  cases other
  simp [shelf, and_assoc]

/-- Covers by formula on their shelves, and the number of look-ups answered since the last clearing. -/
structure Cache where
  shelves : Dictionary (Nat × Config) (Dictionary NormalFormula Cover) := {}
  hits : Nat := 0

namespace Cache

/-- The cover stored under a key. -/
def find? (cache : Cache) (key : CacheKey) : Option Cover :=
  (cache.shelves.find? key.shelf).bind fun covers => covers.find? key.formula

/-- Looks a key up; an answer is counted. -/
def lookup (cache : Cache) (key : CacheKey) : Option Cover × Cache :=
  match cache.find? key with
  | some c => (some c, { cache with hits := cache.hits + 1 })
  | none => (none, cache)

/-- Stores a cover in place of an earlier one, on a new shelf if there is none. -/
def insert (cache : Cache) (key : CacheKey) (c : Cover) : Cache :=
  let covers := (cache.shelves.find? key.shelf).getD {}
  { cache with shelves := cache.shelves.insert key.shelf (covers.insert key.formula c) }

/-- Number of covers on all shelves. -/
def size (cache : Cache) : Nat :=
  cache.shelves.entries.foldr (fun shelf count => shelf.2.size + count) 0

/-- Whether there is no entry. -/
def isEmpty (cache : Cache) : Bool :=
  cache.size == 0

/-- The covers of all shelves with their keys. -/
def entries (cache : Cache) : List (CacheKey × Cover) :=
  cache.shelves.entries.flatMap fun shelf =>
    shelf.2.entries.map fun entry => (⟨shelf.1.1, shelf.1.2, entry.1⟩, entry.2)

/-- A cover is found under its own key; under other keys, also of its shelf, nothing changes. -/
theorem find?_insert
    (cache : Cache) (key other : CacheKey) (c : Cover) :
    (cache.insert key c).find? other = if key = other then some c else cache.find? other := by
  rw [find?, insert, Dictionary.find?_insert]
  by_cases hshelf : key.shelf = other.shelf
  · rw [if_pos hshelf, Option.bind_some, Dictionary.find?_insert]
    by_cases hformula : key.formula = other.formula
    · rw [if_pos hformula, if_pos (CacheKey.eq_iff.mpr ⟨hshelf, hformula⟩)]
    · rw [if_neg hformula, if_neg fun h => hformula (CacheKey.eq_iff.mp h).2, find?, hshelf]
      cases cache.shelves.find? other.shelf <;> rfl
  · rw [if_neg hshelf, if_neg fun h => hshelf (CacheKey.eq_iff.mp h).1]
    rfl

/-- What is found are the entries. -/
theorem find?_eq_some_iff
    (cache : Cache) {key : CacheKey} {c : Cover} :
    cache.find? key = some c ↔ (key, c) ∈ cache.entries := by
  rw [find?, entries, Option.bind_eq_some_iff, List.mem_flatMap]
  constructor
  · rintro ⟨covers, hshelf, hcover⟩
    refine ⟨(key.shelf, covers), (Dictionary.find?_eq_some_iff _).mp hshelf, ?_⟩
    exact List.mem_map.mpr ⟨(key.formula, c), (Dictionary.find?_eq_some_iff _).mp hcover, rfl⟩
  · rintro ⟨⟨shelf, covers⟩, hshelf, hentry⟩
    obtain ⟨⟨x, d⟩, hcover, hkey⟩ := List.mem_map.mp hentry
    cases hkey
    exact ⟨covers, (Dictionary.find?_eq_some_iff _).mpr hshelf,
      (Dictionary.find?_eq_some_iff _).mpr hcover⟩

end Cache

/-- The text of an event, behind its level. -/
def Event.text : Event → String
  | .began x => "TRACE: denoting\n" ++ x.outline.text
  | .recalled x => s!"TRACE: cache hit: {x.text}"
  | .denoted x size => s!"TRACE: {x.text}: {size} strings"
  | .simplified before after => s!"TRACE: simplified cover of {before} strings to {after}"
  | .finished x vars size => s!"DEBUG: {x.text} over {vars} variables: {size} strings"
  | .cleared entries hits =>
    s!"DEBUG: clearing subformula cache ({entries} entries, {hits} hits)"

/-- A cache, and the events so far, the latest last. -/
structure Session where
  cache : Cache := {}
  log : Array Event := #[]

/-- Computations on a session that may fail. -/
abbrev SessionM := ExceptT Error (StateM Session)

namespace Session

/-- Adds an event to the log. -/
def emit (event : Event) : SessionM Unit :=
  modify fun session => { session with log := session.log.push event }

/-- Looks a key up in the cache. -/
def retrieve (key : CacheKey) : SessionM (Option Cover) :=
  modifyGet fun session =>
    let (found, cache) := session.cache.lookup key
    (found, { session with cache })

/-- Stores a cover in the cache. -/
def store (key : CacheKey) (c : Cover) : SessionM Unit :=
  modify fun session => { session with cache := session.cache.insert key c }

/-- Forgets all covers and the count of answers. -/
def clear : SessionM Unit := do
  let session ← get
  emit (.cleared session.cache.size session.cache.hits)
  modify fun session => { session with cache := {} }

/-- The log, which is emptied. -/
def takeLog : StateM Session (List Event) :=
  modifyGet fun session => (session.log.toList, { session with log := #[] })

end Session

namespace Engine

/-- The key of a formula under this engine. -/
def key (e : Engine) (x : NormalFormula) : CacheKey :=
  ⟨e.vars, e.config, x⟩

/-- The host that logs and keeps no covers. -/
def loggedHost (a : Arithmetic) : Host SessionM where
  arithmetic := a
  emit := Session.emit
  retrieve _ := pure none
  store _ _ := pure ()

/-- The host that logs and keeps covers in the cache of the session. -/
def cachedHost (a : Arithmetic) (e : Engine) : Host SessionM where
  arithmetic := a
  emit := Session.emit
  retrieve x := Session.retrieve (e.key x)
  store x c := Session.store (e.key x) c

/-- A run in a session, with or without its cache. -/
def denoteWithin (a : Arithmetic) (e : Engine) (cached : Bool) (x : NormalFormula) :
    SessionM Cover :=
  e.denoteOn (if cached then e.cachedHost a else loggedHost a) x

end Engine

/-- Something that a session is asked for. -/
inductive Request
  | denote (e : Engine) (cached : Bool) (x : NormalFormula)
  | retrieve (key : CacheKey)
  | store (key : CacheKey) (c : Cover)
  | clear

/-- Performs a request; it answers with a cover, if it asks for one and there is one. -/
def Request.perform (a : Arithmetic) : Request → SessionM (Option Cover)
  | .denote e cached x => do
    let c ← e.denoteWithin a cached x
    return some c
  | .retrieve key => Session.retrieve key
  | .store key c => do
    Session.store key c
    return none
  | .clear => do
    Session.clear
    return none

end MissionTime

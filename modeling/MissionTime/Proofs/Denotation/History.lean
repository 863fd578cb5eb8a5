import MissionTime.Proofs.Denotation.Transparency

/-!
# Histories of caches

A cache is a map from keys to covers whose contents and counts follow from what has happened since it
was last cleared. Requests are followed on the bare list of what happens, from which look-ups are
answered too, and the cache is shown to keep up with this list.

**Definitions.**
* `Deed` and `History`: what happens to a cache, the latest first;
* `History.latest?`, `History.storedKeys` and `History.answers`: what a history tells;
* `History.serve` and `History.after`: requests that are answered from a history;
* `Cache.Records`: a cache holds what its history tells; `tracking` is the coupling that says so of a
  session and a history side by side.

**Results.**
* `Cache.size_eq_card`: the two levels of a cache hold each key once;
* `records_serve` and `records_after`: a session keeps up with its history.
-/

namespace MissionTime

/-- What happens to a cache. -/
inductive Deed
  | stored (key : CacheKey) (c : Cover)
  | answered (key : CacheKey)
  | cleared

/-- What happened to a cache, the latest first. -/
abbrev History := List Deed

/-- Computations that may fail, on a history. -/
abbrev HistoryM := ExceptT Error (StateM History)

namespace History

section Contents

/-- The cover stored last under a key since the last clearing. -/
def latest? (key : CacheKey) : History → Option Cover
  | [] => none
  | .stored other c :: earlier => if other = key then some c else latest? key earlier
  | .answered _ :: earlier => latest? key earlier
  | .cleared :: _ => none

/-- The keys under which something was stored since the last clearing. -/
def storedKeys : History → Finset CacheKey
  | [] => ∅
  | .stored key _ :: earlier => insert key (storedKeys earlier)
  | .answered _ :: earlier => storedKeys earlier
  | .cleared :: _ => ∅

/-- The number of look-ups answered since the last clearing. -/
def answers : History → Nat
  | [] => 0
  | .stored _ _ :: earlier => answers earlier
  | .answered _ :: earlier => answers earlier + 1
  | .cleared :: _ => 0

theorem mem_storedKeys
    {key : CacheKey} {history : History} :
    key ∈ storedKeys history ↔ (latest? key history).isSome := by
  induction history with
  | nil => simp [storedKeys, latest?]
  | cons deed earlier ih =>
      cases deed with
      | stored other c =>
          by_cases h : other = key
          · simp [storedKeys, latest?, h]
          · simp [storedKeys, latest?, h, ih, Ne.symm h]
      | answered other => exact ih
      | cleared => simp [storedKeys, latest?]

end Contents

section Requests

/-- Looks a key up; an answer is written down. -/
def retrieve (key : CacheKey) : HistoryM (Option Cover) :=
  modifyGet fun history =>
    match latest? key history with
    | some c => (some c, .answered key :: history)
    | none => (none, history)

/-- Writes down that a cover is stored. -/
def store (key : CacheKey) (c : Cover) : HistoryM Unit :=
  modify (.stored key c :: ·)

/-- The host of a run that is answered from a history and continues it. -/
def host (mode : Arithmetic) (e : Engine) : Host HistoryM where
  arithmetic := mode
  emit _ := pure ()
  retrieve x := retrieve (e.key x)
  store x c := store (e.key x) c

/-- The host of a run that leaves the history alone. -/
def idleHost (mode : Arithmetic) : Host HistoryM where
  arithmetic := mode
  emit _ := pure ()
  retrieve _ := pure none
  store _ _ := pure ()

/-- Performs a request on a history. -/
def perform (mode : Arithmetic) : Request → HistoryM (Option Cover)
  | .denote e cached x => do
    let c ← e.denoteOn (if cached then host mode e else idleHost mode) x
    return some c
  | .retrieve key => retrieve key
  | .store key c => do
    store key c
    return none
  | .clear => do
    modify (.cleared :: ·)
    return none

/-- What a request is answered, and the history behind it. -/
def serve (mode : Arithmetic) (history : History) (request : Request) :
    Except Error (Option Cover) × History :=
  (perform mode request).run.run history

/-- The history behind some requests. -/
def after (mode : Arithmetic) (history : History) (requests : List Request) : History :=
  requests.foldl (fun history request => (serve mode history request).2) history

end Requests

end History

namespace Cache

section Keys

/-- No key stands twice on the shelves. -/
theorem nodup_keys
    (cache : Cache) :
    (cache.entries.map Prod.fst).Nodup := by
  rw [entries, List.map_flatMap, List.nodup_flatMap]
  constructor
  · rintro ⟨shelf, covers⟩ -
    rw [List.map_map]
    change (covers.entries.map (CacheKey.mk shelf.1 shelf.2 ∘ Prod.fst)).Nodup
    rw [← List.map_map]
    refine covers.nodup.map fun x y hxy => ?_
    injection hxy
  · have shelves := List.pairwise_map.mp cache.shelves.nodup
    refine shelves.imp fun {left right} hne => ?_
    intro key hleft hright
    obtain ⟨entry, hentry, rfl⟩ := List.mem_map.mp hleft
    obtain ⟨other, hother, hkey⟩ := List.mem_map.mp hright
    obtain ⟨_, _, rfl⟩ := List.mem_map.mp hentry
    obtain ⟨_, _, rfl⟩ := List.mem_map.mp hother
    exact hne (congrArg CacheKey.shelf hkey).symm

theorem length_entries
    (cache : Cache) :
    cache.entries.length = cache.size := by
  rw [entries, size]
  induction cache.shelves.entries with
  | nil => rfl
  | cons shelf rest ih =>
      rw [List.flatMap_cons, List.length_append, ih, List.length_map, List.foldr_cons,
        Dictionary.size]

/-- The size of a cache is the number of keys under which something is found. -/
theorem size_eq_card
    {cache : Cache} {keys : Finset CacheKey}
    (h : ∀ key, key ∈ keys ↔ (cache.find? key).isSome) :
    cache.size = keys.card := by
  have same : keys = (cache.entries.map Prod.fst).toFinset := by
    ext key
    rw [h, List.mem_toFinset, List.mem_map, Option.isSome_iff_exists]
    constructor
    · rintro ⟨c, hc⟩
      exact ⟨(key, c), cache.find?_eq_some_iff.mp hc, rfl⟩
    · rintro ⟨⟨other, c⟩, hc, rfl⟩
      exact ⟨c, cache.find?_eq_some_iff.mpr hc⟩
  rw [same, List.toFinset_card_of_nodup cache.nodup_keys, List.length_map, length_entries]

end Keys

end Cache

section Tracking

variable {α : Type} (mode : Arithmetic)

/-- The cache holds what the history tells. -/
structure Cache.Records (cache : Cache) (history : History) : Prop where
  find : ∀ key, cache.find? key = History.latest? key history
  hits : cache.hits = History.answers history

theorem Cache.Records.size
    {cache : Cache} {history : History} (h : cache.Records history) :
    cache.size = (History.storedKeys history).card := by
  refine Cache.size_eq_card fun key => ?_
  rw [h.find, History.mem_storedKeys]

theorem records_empty :
    Cache.Records {} [] :=
  ⟨fun _ => rfl, rfl⟩

theorem Cache.Records.insert
    {cache : Cache} {history : History} (h : cache.Records history) (key : CacheKey) (c : Cover) :
    (cache.insert key c).Records (.stored key c :: history) := by
  refine ⟨fun other => ?_, h.hits⟩
  rw [Cache.find?_insert, h.find]
  rfl

/-- Side by side the computations have the same result, and the cache keeps up with the history. -/
def Tracks (run : SessionM α) (run' : HistoryM α) : Prop :=
  ∀ (session : Session) (history : History), session.cache.Records history →
    (run.run.run session).1 = (run'.run.run history).1 ∧
      (run.run.run session).2.cache.Records (run'.run.run history).2

/-- Keeping up is kept when computations follow one another. -/
def tracking : Coupling SessionM HistoryM where
  Holds := Tracks
  pure _ _ _ h := ⟨rfl, h⟩
  lift _ _ _ h := ⟨rfl, h⟩
  bind {_ _ run run' _ _} hrun hnext session history h := by
    obtain ⟨hresult, hlater⟩ := hrun session history h
    rw [run_bind, run_bind]
    revert hresult hlater
    rcases run.run.run session with ⟨result, later⟩
    rcases run'.run.run history with ⟨result', later'⟩
    rintro rfl hlater
    cases result with
    | error cause => exact ⟨rfl, hlater⟩
    | ok a => exact hnext a later later' hlater

theorem History.run_retrieve
    (key : CacheKey) (history : History) :
    (History.retrieve key).run.run history = (.ok (History.latest? key history),
      match History.latest? key history with
      | some _ => .answered key :: history
      | none => history) := by
  change (Except.ok (Prod.fst (match History.latest? key history with
      | some c => (some c, _)
      | none => (none, history))), _) = _
  cases History.latest? key history <;> rfl

theorem tracks_retrieve
    (key : CacheKey) :
    Tracks (Session.retrieve key) (History.retrieve key) := by
  intro session history h
  rw [run_retrieve, History.run_retrieve, Cache.lookup, h.find]
  refine ⟨rfl, ?_⟩
  cases History.latest? key history with
  | none => exact h
  | some c => exact ⟨h.find, congrArg Nat.succ h.hits⟩

theorem tracks_store
    (key : CacheKey) (c : Cover) :
    Tracks (Session.store key c) (History.store key c) :=
  fun _ _ h => ⟨rfl, h.insert key c⟩

theorem tracks_emit
    (event : Event) :
    Tracks (Session.emit event) (pure ()) :=
  fun _ _ h => ⟨rfl, h⟩

theorem hosts_history
    (e : Engine) :
    tracking.Hosts e (e.cachedHost mode) (History.host mode e) where
  emit := tracks_emit
  shift c steps := tracking.lift (c.shift mode steps)
  remember x _ _ h _ :=
    tracking.remember x tracks_emit (tracks_retrieve (e.key x)) (tracks_store (e.key x)) h

theorem hosts_idleHost
    (e : Engine) :
    tracking.Hosts e (Engine.loggedHost mode) (History.idleHost mode) where
  emit := tracks_emit
  shift c steps := tracking.lift (c.shift mode steps)
  remember x _ _ h _ :=
    tracking.remember x tracks_emit (tracking.pure none) (fun _ => tracking.pure ()) h

/-- A request to a session is answered from its history, and the cache keeps up with it. -/
theorem tracks_perform
    (request : Request) :
    Tracks (request.perform mode) (History.perform mode request) := by
  cases request with
  | denote e cached x =>
      refine tracking.bind ?_ fun c => tracking.pure (some c)
      cases cached with
      | false => exact Coupling.denoteOn (hosts_idleHost mode e) x
      | true => exact Coupling.denoteOn (hosts_history mode e) x
  | retrieve key => exact tracks_retrieve key
  | store key c => exact tracking.bind (tracks_store key c) fun _ => tracking.pure none
  | clear => exact fun _ _ _ => ⟨rfl, fun _ => rfl, rfl⟩

theorem records_serve
    {session : Session} {history : History} (h : session.cache.Records history)
    (request : Request) :
    (session.serve mode request).1 = (History.serve mode history request).1 ∧
      (session.serve mode request).2.cache.Records (History.serve mode history request).2 :=
  tracks_perform mode request session history h

theorem records_after
    {session : Session} {history : History} (h : session.cache.Records history)
    (requests : List Request) :
    (session.after mode requests).cache.Records (History.after mode history requests) := by
  induction requests generalizing session history with
  | nil => exact h
  | cons request requests ih => exact ih (records_serve mode h request).2

end Tracking

end MissionTime

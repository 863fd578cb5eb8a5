import Mathlib
import MissionTime.Denotation.Session
import MissionTime.Proofs.Denotation.Models

/-!
# Transparency of the cache

A session whose cache holds only what runs without a cache would make answers as such runs do, and
keeps only such covers, also when a run fails midway.

**Definitions.**
* `CacheKey.cover`: what a run without a cache makes of a key, and `Cache.Truthful`;
* `Simulates`: from a truthful cache, a computation on a session gives the result of one without, and
  leaves a truthful cache; `simulation` is this relation as a coupling;
* `Session.serve` and `Session.after`: one request, and what many requests leave behind.

**Results.**
* `hosts_cachedHost`: a look-up that is answered and a cover that is made give the same result;
* `Engine.simulates_denoteWithin`: a run in a session simulates the run without one;
* `Session.serve_denote_eq`: every request for a cover, behind any requests.
-/

namespace MissionTime

/-- What a run without a cache makes of a key; the cover is stored before it is made disjoint. -/
def CacheKey.cover (mode : Arithmetic) (key : CacheKey) : Except Error Cover :=
  Engine.denote mode ⟨key.vars, { simplify := key.config.simplify, disjoint := false }⟩ key.formula

/-- Every entry is what a run without a cache makes of its key. -/
def Cache.Truthful (mode : Arithmetic) (cache : Cache) : Prop :=
  ∀ entry ∈ cache.entries, entry.1.cover mode = .ok entry.2

variable {mode : Arithmetic}

section Entries

variable {cache : Cache}

theorem truthful_empty :
    Cache.Truthful mode {} := by
  intro entry hentry
  exact absurd hentry List.not_mem_nil

theorem cover_of_find?
    (h : cache.Truthful mode) {key : CacheKey} {c : Cover} (hfind : cache.find? key = some c) :
    key.cover mode = .ok c :=
  h (key, c) (cache.find?_eq_some_iff.mp hfind)

theorem truthful_insert
    (h : cache.Truthful mode) {key : CacheKey} {c : Cover} (hc : key.cover mode = .ok c) :
    (cache.insert key c).Truthful mode := by
  rintro ⟨other, d⟩ hentry
  have hfind := (Cache.find?_eq_some_iff _).mpr hentry
  rw [Cache.find?_insert] at hfind
  split at hfind
  · rename_i same
    cases hfind
    rw [← same]
    exact hc
  · exact cover_of_find? h hfind

end Entries

section Simulation

variable {α β : Type}

/-- From a session with a truthful cache, the computation gives the result and leaves the cache
truthful. -/
def Simulates (mode : Arithmetic) (run : SessionM α) (result : Except Error α) : Prop :=
  ∀ session : Session, session.cache.Truthful mode →
    (run.run.run session).1 = result ∧ (run.run.run session).2.cache.Truthful mode

/-- A computation that may fail on some state hands its result and the state on. -/
theorem run_bind
    {σ : Type} (run : ExceptT Error (StateM σ) α) (next : α → ExceptT Error (StateM σ) β)
    (state : σ) :
    (run >>= next).run.run state =
      match run.run.run state with
      | (.ok a, later) => (next a).run.run later
      | (.error cause, later) => (.error cause, later) := by
  rw [ExceptT.run_bind, StateT.run_bind]
  rcases run.run.run state with ⟨_ | a, later⟩ <;> rfl

namespace Simulates

theorem pure
    (a : α) :
    Simulates mode (pure a) (.ok a) :=
  fun _ h => ⟨rfl, h⟩

theorem lift
    (result : Except Error α) :
    Simulates mode (liftM result) result :=
  fun _ h => ⟨rfl, h⟩

theorem bind
    {run : SessionM α} {result : Except Error α} {next : α → SessionM β}
    {after : α → Except Error β} (h : Simulates mode run result)
    (hnext : ∀ a, result = .ok a → Simulates mode (next a) (after a)) :
    Simulates mode (run >>= next) (result >>= after) := by
  intro session hsession
  obtain ⟨hresult, hlater⟩ := h session hsession
  rw [run_bind]
  rcases hrun : run.run.run session with ⟨_ | a, later⟩
  · rw [hrun] at hresult hlater
    subst hresult
    exact ⟨rfl, hlater⟩
  · rw [hrun] at hresult hlater
    subst hresult
    exact hnext a rfl later hlater

end Simulates

end Simulation

section Hosts

/-- Simulation is kept when computations follow one another. -/
def simulation (mode : Arithmetic) : Coupling SessionM (Except Error) where
  Holds := Simulates mode
  pure := Simulates.pure
  lift := Simulates.lift
  bind h hnext := h.bind fun a _ => hnext a

theorem simulates_emit
    (event : Event) :
    Simulates mode (Session.emit event) (.ok ()) :=
  fun _ h => ⟨rfl, h⟩

theorem simulates_store
    {key : CacheKey} {c : Cover} (hc : key.cover mode = .ok c) :
    Simulates mode (Session.store key c) (.ok ()) :=
  fun _ h => ⟨rfl, truthful_insert h hc⟩

theorem run_retrieve
    (key : CacheKey) (session : Session) :
    (Session.retrieve key).run.run session =
      (.ok (session.cache.find? key), { session with cache := (session.cache.lookup key).2 }) := by
  change (Except.ok (session.cache.lookup key).1, _) = _
  rw [Cache.lookup]
  cases session.cache.find? key <;> rfl

theorem truthful_lookup
    {cache : Cache} (h : cache.Truthful mode) (key : CacheKey) :
    (cache.lookup key).2.Truthful mode := by
  rw [Cache.lookup]
  cases cache.find? key <;> exact h

theorem hosts_loggedHost
    (e : Engine) :
    (simulation mode).Hosts e (Engine.loggedHost mode) (Host.plain mode) where
  emit := simulates_emit
  shift c steps := Simulates.lift (c.shift mode steps)
  remember x _ _ hmake _ :=
    (simulation mode).remember x simulates_emit (Simulates.pure none) (fun _ => Simulates.pure ()) hmake

/-- Under the key of a formula belongs what the recursion makes of it. -/
theorem Engine.cover_key
    (e : Engine) (x : NormalFormula) :
    (e.key x).cover mode = e.denoteIn (Host.plain mode) x := by
  have same := denoteIn_congr mode ⟨e.vars, ⟨e.config.simplify, false⟩⟩ e rfl rfl x
  rw [CacheKey.cover, denote_eq]
  change (denoteIn ⟨e.vars, ⟨e.config.simplify, false⟩⟩ (Host.plain mode) x >>= Except.ok) = _
  rw [same]
  cases e.denoteIn (Host.plain mode) x <;> rfl

/-- A cover that is recalled is the one that would be made, and a cover that is made may be stored. -/
theorem hosts_cachedHost
    (e : Engine) :
    (simulation mode).Hosts e (e.cachedHost mode) (Host.plain mode) where
  emit := simulates_emit
  shift c steps := Simulates.lift (c.shift mode steps)
  remember x make result hmake hresult := by
    have hcover : (e.key x).cover mode = result := by
      rw [e.cover_key, hresult, Engine.remember_plain]
    have made := hmake.bind fun c hc =>
      (simulates_emit (.denoted x c.size)).bind fun _ _ =>
        (simulates_store (hcover.trans hc)).bind fun _ _ => Simulates.pure c
    have same : (result >>= fun c => Except.ok () >>= fun _ => Except.ok () >>= fun _ =>
        Except.ok c) = result := by
      cases result <;> rfl
    rw [same] at made
    rw [Engine.remember_plain]
    intro session hsession
    have looked := truthful_lookup hsession (e.key x)
    have retrieve : (e.cachedHost mode).retrieve x = Session.retrieve (e.key x) := rfl
    rw [Engine.remember, run_bind, retrieve, run_retrieve]
    cases hfind : session.cache.find? (e.key x) with
    | some c =>
        refine ⟨?_, looked⟩
        rw [← hcover, cover_of_find? hsession hfind]
        rfl
    | none => exact made _ looked

end Hosts

/-- A whole run in a session gives what a run without log and memory gives. -/
theorem Engine.simulates_denoteWithin
    (mode : Arithmetic) (e : Engine) (cached : Bool) (x : NormalFormula) :
    Simulates mode (e.denoteWithin mode cached x) (e.denote mode x) := by
  cases cached with
  | false => exact Coupling.denoteOn (hosts_loggedHost e) x
  | true => exact Coupling.denoteOn (hosts_cachedHost e) x

/-- A request for a cover is answered as by a run without a cache. -/
theorem Engine.simulates_perform
    (mode : Arithmetic) (e : Engine) (cached : Bool) (x : NormalFormula) :
    Simulates mode ((Request.denote e cached x).perform mode) ((e.denote mode x).map some) := by
  have run := (e.simulates_denoteWithin mode cached x).bind fun c _ => Simulates.pure (some c)
  have same : (e.denote mode x >>= fun c => Except.ok (some c)) = (e.denote mode x).map some := by
    cases e.denote mode x <;> rfl
  rwa [same] at run

namespace Session

/-- What a request is answered, and the session behind it. -/
def serve (mode : Arithmetic) (session : Session) (request : Request) :
    Except Error (Option Cover) × Session :=
  (request.perform mode).run.run session

/-- The session behind some requests, whatever they were answered. -/
def after (mode : Arithmetic) (session : Session) (requests : List Request) : Session :=
  requests.foldl (fun session request => (session.serve mode request).2) session

/-- No request but to store a cover can make a cache untruthful. -/
theorem truthful_serve
    {session : Session} (h : session.cache.Truthful mode) {request : Request}
    (hkept : ∀ key c, request ≠ .store key c) :
    (session.serve mode request).2.cache.Truthful mode := by
  cases request with
  | denote e cached x => exact (e.simulates_perform mode cached x session h).2
  | retrieve key =>
      rw [serve, Request.perform, run_retrieve]
      exact truthful_lookup h key
  | store key c => exact absurd rfl (hkept key c)
  | clear => exact truthful_empty

theorem truthful_after
    {session : Session} (h : session.cache.Truthful mode) {requests : List Request}
    (hkept : ∀ key c, Request.store key c ∉ requests) :
    (session.after mode requests).cache.Truthful mode := by
  induction requests generalizing session with
  | nil => exact h
  | cons request requests ih =>
      have first : ∀ key c, request ≠ .store key c := by
        rintro key c rfl
        exact hkept key c List.mem_cons_self
      refine ih (truthful_serve h first) fun key c hmem => ?_
      exact hkept key c (List.mem_cons_of_mem request hmem)

/-- What cannot be made disjoint has not been made, so what cannot be made is not found under its key. -/
theorem key_ne_of_denote_error
    {cache : Cache} (h : cache.Truthful mode) {e : Engine} {x : NormalFormula} {cause : Error}
    (hkeeps : mode.Keeps x.toFormula.delay e.vars) (herror : e.denote mode x = .error cause)
    {entry : CacheKey × Cover} (hentry : entry ∈ cache.entries) :
    entry.1 ≠ e.key x := by
  intro hkey
  have made := h entry hentry
  rw [hkey] at made
  have cover := Engine.standsFor_of_denote ⟨e.vars, ⟨e.config.simplify, false⟩⟩ x hkeeps made
  rw [e.cover_key] at made
  obtain ⟨d, hd, -⟩ := Cover.returns_disjoint cover.fits
  rw [Engine.denote_eq, made] at herror
  change (if e.config.disjoint then entry.2.disjoint else .ok entry.2) = _ at herror
  rw [hd] at herror
  split at herror <;> cases herror

/-- `p0 <-> !p1`, whose run over one variable fails behind the cover of `p0`. -/
def apartFormula : NormalFormula :=
  .binary (.literal (.var ⟨0, false⟩)) .equiv (.literal (.var ⟨1, true⟩))

/-- Runs that succeed, start anew, fail midway and succeed again. -/
def mixedRequests : List Request :=
  [.denote ⟨2, ⟨true, true⟩⟩ true apartFormula, .clear, .denote ⟨1, ⟨true, false⟩⟩ true apartFormula,
    .denote ⟨2, ⟨false, false⟩⟩ true apartFormula]

/-- `F[b,b]p0` for a delay `b` of which digits are dropped with three variables. -/
def cutEventually : NormalFormula :=
  .unary .eventually (.singleton Cover.cutHorizon) (.var 0)

end Session

end MissionTime

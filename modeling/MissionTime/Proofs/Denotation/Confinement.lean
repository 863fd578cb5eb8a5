import MissionTime.Proofs.Denotation.History

/-!
# Runs and their shelves

A run with a cache reads and writes one shelf, that of its number of variables and its configuration.
What it answers and what it does to the cache follows from what this shelf holds, and once it has
succeeded the cover of its formula stands there.

**Definitions.**
* `History.Agree`: two histories tell the same of a shelf, and `Deed.On`: a deed concerns only this shelf;
* `Confined`: computations do the same on a shelf and nothing elsewhere; `locality` is this as a coupling;
* `Cache.SameChange`: two caches are changed in the same way, on one shelf.

**Results.**
* `exists_deeds_of_agree`: a run is confined to its shelf;
* `History.serve_denote_again`: a run that has succeeded is repeated by one look-up;
* `Session.serve_eq_history`: caches behind any requests.
-/

namespace MissionTime

section Locality

variable {shelf : Nat × Config}

/-- The deed concerns one shelf only. -/
def Deed.On (shelf : Nat × Config) : Deed → Prop
  | .stored key _ => key.shelf = shelf
  | .answered key => key.shelf = shelf
  | .cleared => False

/-- The histories tell the same of one shelf. -/
def History.Agree (shelf : Nat × Config) (history other : History) : Prop :=
  ∀ key : CacheKey, key.shelf = shelf → History.latest? key history = History.latest? key other

namespace History

/-- Behind deeds on one shelf, the earlier history tells of what they did not store. -/
theorem latest?_append
    {deeds : List Deed} (h : ∀ deed ∈ deeds, deed.On shelf) (key : CacheKey) (history : History) :
    latest? key (deeds ++ history) = (latest? key deeds).or (latest? key history) := by
  induction deeds with
  | nil => rfl
  | cons deed deeds ih =>
      have rest := ih fun later hlater => h later (List.mem_cons_of_mem deed hlater)
      have on := h deed List.mem_cons_self
      cases deed with
      | stored other c =>
          rw [List.cons_append, latest?, latest?, rest]
          split <;> rfl
      | answered other => exact rest
      | cleared => exact on.elim

theorem storedKeys_append
    {deeds : List Deed} (h : ∀ deed ∈ deeds, deed.On shelf) (history : History) :
    storedKeys (deeds ++ history) = storedKeys deeds ∪ storedKeys history := by
  ext key
  rw [Finset.mem_union, mem_storedKeys, mem_storedKeys, mem_storedKeys, latest?_append h,
    Option.isSome_or, Bool.or_eq_true]

theorem answers_append
    {deeds : List Deed} (h : ∀ deed ∈ deeds, deed.On shelf) (history : History) :
    answers (deeds ++ history) = answers deeds + answers history := by
  induction deeds with
  | nil => exact (Nat.zero_add _).symm
  | cons deed deeds ih =>
      have rest := ih fun later hlater => h later (List.mem_cons_of_mem deed hlater)
      have on := h deed List.mem_cons_self
      cases deed with
      | stored other c => exact rest
      | answered other =>
          rw [List.cons_append, answers, answers, rest]
          omega
      | cleared => exact on.elim

theorem shelf_of_mem_storedKeys
    {deeds : List Deed} (h : ∀ deed ∈ deeds, deed.On shelf) {key : CacheKey}
    (hkey : key ∈ storedKeys deeds) :
    key.shelf = shelf := by
  induction deeds with
  | nil => exact absurd hkey (Finset.notMem_empty key)
  | cons deed deeds ih =>
      have rest := ih fun later hlater => h later (List.mem_cons_of_mem deed hlater)
      have on := h deed List.mem_cons_self
      cases deed with
      | stored other c =>
          rcases Finset.mem_insert.mp hkey with rfl | hkey
          · exact on
          · exact rest hkey
      | answered other => exact rest hkey
      | cleared => exact on.elim

theorem Agree.append
    {history other : History} (h : Agree shelf history other) {deeds : List Deed}
    (hdeeds : ∀ deed ∈ deeds, deed.On shelf) :
    Agree shelf (deeds ++ history) (deeds ++ other) := by
  intro key hkey
  rw [latest?_append hdeeds, latest?_append hdeeds, h key hkey]

/-- New keys on a shelf are counted alike by histories that tell the same of it. -/
theorem Agree.sdiff_storedKeys
    {history other : History} (h : Agree shelf history other) {deeds : List Deed}
    (hdeeds : ∀ deed ∈ deeds, deed.On shelf) :
    storedKeys deeds \ storedKeys history = storedKeys deeds \ storedKeys other := by
  ext key
  rw [Finset.mem_sdiff, Finset.mem_sdiff]
  refine and_congr_right fun hkey => ?_
  rw [mem_storedKeys, mem_storedKeys, h key (shelf_of_mem_storedKeys hdeeds hkey)]

end History

/-- From histories that tell the same of a shelf, the computations have the same result and do the same,
and only on this shelf. -/
def Confined (shelf : Nat × Config) {α : Type} (run run' : HistoryM α) : Prop :=
  ∀ history other, History.Agree shelf history other →
    ∃ result deeds, (∀ deed ∈ deeds, Deed.On shelf deed) ∧
      run.run.run history = (result, deeds ++ history) ∧
      run'.run.run other = (result, deeds ++ other)

/-- Being confined is kept when computations follow one another. -/
def locality (shelf : Nat × Config) : Coupling HistoryM HistoryM where
  Holds := Confined shelf
  pure a _ _ _ := ⟨.ok a, [], by simp, rfl, rfl⟩
  lift result _ _ _ := ⟨result, [], by simp, rfl, rfl⟩
  bind hrun hnext history other h := by
    obtain ⟨result, deeds, hdeeds, hfirst, hfirst'⟩ := hrun history other h
    rw [run_bind, run_bind, hfirst, hfirst']
    cases result with
    | error cause => exact ⟨.error cause, deeds, hdeeds, rfl, rfl⟩
    | ok a =>
        obtain ⟨last, more, hmore, hlast, hlast'⟩ := hnext a _ _ (h.append hdeeds)
        refine ⟨last, more ++ deeds, ?_, ?_, ?_⟩
        · intro deed hdeed
          exact (List.mem_append.mp hdeed).elim (hmore deed) (hdeeds deed)
        · rw [List.append_assoc]
          exact hlast
        · rw [List.append_assoc]
          exact hlast'

theorem confined_retrieve
    (key : CacheKey) :
    Confined key.shelf (History.retrieve key) (History.retrieve key) := by
  intro history other h
  rw [History.run_retrieve, History.run_retrieve, ← h key rfl]
  cases History.latest? key history with
  | none => exact ⟨_, [], by simp, rfl, rfl⟩
  | some c => exact ⟨_, [.answered key], by simp [Deed.On], rfl, rfl⟩

theorem confined_store
    (key : CacheKey) (c : Cover) :
    Confined key.shelf (History.store key c) (History.store key c) :=
  fun _ _ _ => ⟨_, [.stored key c], by simp [Deed.On], rfl, rfl⟩

theorem hosts_locality
    (mode : Arithmetic) (e : Engine) :
    (locality (e.vars, e.config)).Hosts e (History.host mode e) (History.host mode e) where
  emit _ := (locality _).pure ()
  shift c steps := (locality _).lift (c.shift mode steps)
  remember x _ _ h _ := (locality _).remember x (fun _ => (locality _).pure ())
    (confined_retrieve (e.key x)) (confined_store (e.key x)) h

/-- A run with a cache is confined to the shelf of its engine. -/
theorem exists_deeds_of_agree
    (mode : Arithmetic) (e : Engine) (x : NormalFormula) {history other : History}
    (h : History.Agree (e.vars, e.config) history other) :
    ∃ result deeds, (∀ deed ∈ deeds, Deed.On (e.vars, e.config) deed) ∧
      History.serve mode history (.denote e true x) = (result, deeds ++ history) ∧
      History.serve mode other (.denote e true x) = (result, deeds ++ other) :=
  (locality _).bind (Coupling.denoteOn (hosts_locality mode e) x)
    (fun c => (locality _).pure (some c)) history other h

end Locality

section Repetition

/-- Every formula is looked up before anything else is done. -/
theorem Engine.exists_remember
    (e : Engine) (host : Host HistoryM) (x : NormalFormula) :
    ∃ make, e.denoteIn host x = remember host x make := by
  cases x with
  | literal l => exact ⟨_, denoteIn.eq_def ..⟩
  | unary op int sub => exact ⟨_, denoteIn.eq_def ..⟩
  | temporal lhs op int rhs => exact ⟨_, denoteIn.eq_def ..⟩
  | binary lhs op rhs => cases op <;> exact ⟨_, denoteIn.eq_def ..⟩
  | list op subs => exact ⟨_, denoteIn.eq_def ..⟩

namespace History

variable {mode : Arithmetic} {e : Engine} {x : NormalFormula} {history : History}

theorem run_remember
    (make : HistoryM Cover) :
    (Engine.remember (host mode e) x make).run.run history =
      match latest? (e.key x) history with
      | some c => (.ok c, .answered (e.key x) :: history)
      | none =>
        match make.run.run history with
        | (.ok c, later) => (.ok c, .stored (e.key x) c :: later)
        | (.error cause, later) => (.error cause, later) := by
  have retrieve : (host mode e).retrieve x = History.retrieve (e.key x) := rfl
  rw [Engine.remember, run_bind, retrieve, run_retrieve]
  cases latest? (e.key x) history with
  | some c => rfl
  | none =>
      dsimp only
      rw [run_bind]
      rcases make.run.run history with ⟨_ | c, later⟩ <;> rfl

/-- A formula whose cover is known is not run. -/
theorem run_denoteIn_of_latest
    {c : Cover} (h : latest? (e.key x) history = some c) :
    (e.denoteIn (host mode e) x).run.run history = (.ok c, .answered (e.key x) :: history) := by
  obtain ⟨make, hmake⟩ := e.exists_remember (host mode e) x
  rw [hmake, run_remember, h]

/-- Behind a run that made a cover, the cover is known. -/
theorem latest_of_run
    {c : Cover} {later : History}
    (h : (e.denoteIn (host mode e) x).run.run history = (.ok c, later)) :
    latest? (e.key x) later = some c := by
  obtain ⟨make, hmake⟩ := e.exists_remember (host mode e) x
  rw [hmake, run_remember] at h
  cases hknown : latest? (e.key x) history with
  | some d =>
      rw [hknown] at h
      cases h
      exact hknown
  | none =>
      rw [hknown] at h
      rcases hrun : make.run.run history with ⟨_ | d, after⟩
      · rw [hrun] at h
        cases h
      · rw [hrun] at h
        cases h
        exact if_pos rfl

/-- The members are made disjoint behind the recursion, of which the history does not tell. -/
theorem run_denoteOn
    (mode : Arithmetic) (e : Engine) (x : NormalFormula) (history : History) :
    (e.denoteOn (host mode e) x).run.run history =
      match (e.denoteIn (host mode e) x).run.run history with
      | (.ok c, later) => (if e.config.disjoint then c.disjoint else .ok c, later)
      | (.error cause, later) => (.error cause, later) := by
  have began : ((host mode e).emit (.began x)).run.run history = (.ok (), history) := rfl
  rw [Engine.denoteOn, run_bind, began]
  dsimp only
  rw [run_bind]
  rcases (e.denoteIn (host mode e) x).run.run history with ⟨_ | c, later⟩
  · rfl
  · cases e.config.disjoint with
    | false => rfl
    | true =>
        have disjoint : (liftM c.disjoint : HistoryM Cover).run.run later = (c.disjoint, later) :=
          rfl
        dsimp only
        rw [if_pos rfl, if_pos rfl, run_bind, disjoint]
        cases c.disjoint <;> rfl

theorem serve_denote
    (mode : Arithmetic) (e : Engine) (x : NormalFormula) (history : History) :
    serve mode history (.denote e true x) =
      match (e.denoteIn (host mode e) x).run.run history with
      | (.ok c, later) => ((if e.config.disjoint then c.disjoint else .ok c).map some, later)
      | (.error cause, later) => (.error cause, later) := by
  rw [serve, perform, if_pos rfl, run_bind, run_denoteOn]
  rcases (e.denoteIn (host mode e) x).run.run history with ⟨_ | c, later⟩
  · rfl
  · dsimp only
    cases (if e.config.disjoint then c.disjoint else .ok c) <;> rfl

/-- A run that has succeeded is repeated by one look-up. -/
theorem serve_denote_again
    {c : Cover} (h : (serve mode history (.denote e true x)).1 = .ok (some c)) :
    serve mode (serve mode history (.denote e true x)).2 (.denote e true x) =
      (.ok (some c), .answered (e.key x) :: (serve mode history (.denote e true x)).2) := by
  rcases hrun : (e.denoteIn (host mode e) x).run.run history with ⟨_ | d, later⟩
  · rw [serve_denote, hrun] at h
    cases h
  · have first : serve mode history (.denote e true x) =
        ((if e.config.disjoint then d.disjoint else .ok d).map some, later) := by
      rw [serve_denote, hrun]
    rw [first] at h ⊢
    rw [serve_denote, run_denoteIn_of_latest (latest_of_run hrun)]
    exact congrArg (·, _) h

end History

end Repetition

section Changes

/-- Two caches are changed in the same way and on one shelf only: the shelf holds the same afterwards, and
the counts have grown by the same numbers. -/
structure Cache.SameChange (shelf : Nat × Config) (before before' after after' : Cache) : Prop where
  here : ∀ key : CacheKey, key.shelf = shelf → after.find? key = after'.find? key
  elsewhere : ∀ key : CacheKey, key.shelf ≠ shelf →
    after.find? key = before.find? key ∧ after'.find? key = before'.find? key
  counts : ∃ covers answers, after.size = before.size + covers ∧
    after'.size = before'.size + covers ∧ after.hits = before.hits + answers ∧
    after'.hits = before'.hits + answers

/-- What is done on one shelf changes caches that hold the same there in the same way. -/
theorem sameChange_of_records
    {shelf : Nat × Config} {before before' after after' : Cache} {history other : History}
    {deeds : List Deed} (hagree : History.Agree shelf history other)
    (hdeeds : ∀ deed ∈ deeds, Deed.On shelf deed) (h : before.Records history)
    (h' : before'.Records other) (hafter : after.Records (deeds ++ history))
    (hafter' : after'.Records (deeds ++ other)) :
    Cache.SameChange shelf before before' after after' := by
  have elsewhere : ∀ key : CacheKey, key.shelf ≠ shelf → History.latest? key deeds = none := by
    intro key hkey
    rw [← Option.not_isSome_iff_eq_none, ← History.mem_storedKeys]
    exact fun hmem => hkey (History.shelf_of_mem_storedKeys hdeeds hmem)
  refine ⟨fun key hkey => ?_, fun key hkey => ⟨?_, ?_⟩,
    (History.storedKeys deeds \ History.storedKeys history).card, History.answers deeds,
    ?_, ?_, ?_, ?_⟩
  · rw [hafter.find, hafter'.find]
    exact hagree.append hdeeds key hkey
  · rw [hafter.find, h.find, History.latest?_append hdeeds, elsewhere key hkey, Option.none_or]
  · rw [hafter'.find, h'.find, History.latest?_append hdeeds, elsewhere key hkey, Option.none_or]
  · rw [hafter.size, h.size, History.storedKeys_append hdeeds, Nat.add_comm]
    exact (Finset.card_sdiff_add_card _ _).symm
  · rw [hafter'.size, h'.size, History.storedKeys_append hdeeds, Nat.add_comm,
      hagree.sdiff_storedKeys hdeeds]
    exact (Finset.card_sdiff_add_card _ _).symm
  · rw [hafter.hits, h.hits, History.answers_append hdeeds, Nat.add_comm]
  · rw [hafter'.hits, h'.hits, History.answers_append hdeeds, Nat.add_comm]

end Changes

namespace Session

theorem after_concat
    (mode : Arithmetic) (session : Session) (requests : List Request) (request : Request) :
    session.after mode (requests ++ [request]) =
      ((session.after mode requests).serve mode request).2 := by
  rw [after, List.foldl_append]
  rfl

/-- Behind any requests, a session answers as its history does. In particular a look-up finds the cover
stored last under just this key, the entries are as many as the keys stored, and the count is that of the
look-ups answered, all since the last clearing. What a run with a cache answers and changes depends only
on the shelf of its engine, and repeating a run that has succeeded is one look-up. -/
theorem serve_eq_history
    (mode : Arithmetic) (requests : List Request) :
    (∀ request, ((after mode {} requests).serve mode request).1 =
        (History.serve mode (History.after mode [] requests) request).1) ∧
      (∀ key, ((after mode {} requests).serve mode (.retrieve key)).1 =
        .ok (History.latest? key (History.after mode [] requests))) ∧
      (after mode {} requests).cache.size = (History.storedKeys (History.after mode [] requests)).card ∧
      (after mode {} requests).cache.hits = History.answers (History.after mode [] requests) ∧
      (∀ (others : List Request) (e : Engine) (x : NormalFormula),
        (∀ y, (after mode {} requests).cache.find? (e.key y) =
          (after mode {} others).cache.find? (e.key y)) →
        ((after mode {} requests).serve mode (.denote e true x)).1 =
          ((after mode {} others).serve mode (.denote e true x)).1 ∧
        Cache.SameChange (e.vars, e.config) (after mode {} requests).cache (after mode {} others).cache
          (after mode {} (requests ++ [Request.denote e true x])).cache
          (after mode {} (others ++ [Request.denote e true x])).cache) ∧
      ∀ (e : Engine) (x : NormalFormula) (c : Cover),
        ((after mode {} requests).serve mode (.denote e true x)).1 = .ok (some c) →
        ((after mode {} (requests ++ [Request.denote e true x])).serve mode (.denote e true x)).1 = .ok (some c) ∧
        (after mode {} (requests ++ [Request.denote e true x] ++ [Request.denote e true x])).cache.size =
          (after mode {} (requests ++ [Request.denote e true x])).cache.size ∧
        (after mode {} (requests ++ [Request.denote e true x] ++ [Request.denote e true x])).cache.hits =
          (after mode {} (requests ++ [Request.denote e true x])).cache.hits + 1 := by
  have start : ({} : Session).cache.Records [] := records_empty
  have records := records_after mode start requests
  have answered : ∀ request, ((after mode {} requests).serve mode request).1 =
      (History.serve mode (History.after mode [] requests) request).1 := fun request =>
    (records_serve mode records request).1
  refine ⟨answered, fun key => ?_, records.size, records.hits, fun others e x hsame => ?_,
    fun e x c hc => ?_⟩
  · exact (answered _).trans (congrArg Prod.fst (History.run_retrieve key _))
  · have recordsOthers := records_after mode start others
    have agree : History.Agree (e.vars, e.config) (History.after mode [] requests)
        (History.after mode [] others) := by
      rintro ⟨vars, config, y⟩ hkey
      cases hkey
      rw [← records.find, ← recordsOthers.find]
      exact hsame y
    obtain ⟨result, deeds, hdeeds, hrun, hrun'⟩ := exists_deeds_of_agree mode e x agree
    obtain ⟨hresult, hafter⟩ := records_serve mode records (.denote e true x)
    obtain ⟨hresult', hafter'⟩ := records_serve mode recordsOthers (.denote e true x)
    rw [hrun] at hresult hafter
    rw [hrun'] at hresult' hafter'
    refine ⟨hresult.trans hresult'.symm, ?_⟩
    rw [after_concat, after_concat]
    exact sameChange_of_records agree hdeeds records recordsOthers hafter hafter'
  · rw [answered] at hc
    have again := History.serve_denote_again hc
    obtain ⟨-, hfirst⟩ := records_serve mode records (.denote e true x)
    obtain ⟨hresult, hsecond⟩ := records_serve mode hfirst (.denote e true x)
    rw [again] at hresult hsecond
    rw [after_concat _ _ (requests ++ _), after_concat]
    refine ⟨hresult, ?_, hsecond.hits.trans (congrArg Nat.succ hfirst.hits.symm)⟩
    exact hsecond.size.trans hfirst.size.symm

/-- `F[0,1]p0`. -/
def soonFormula : NormalFormula :=
  .unary .eventually ⟨0, 1⟩ (.var 0)

/-- A cover of `~p0` is stored as that of `p0`. -/
def wrongRequests : List Request :=
  [.store (Engine.key ⟨1, {}⟩ (.var 0)) ⟨1, [[.zero]]⟩]

/-- The same is stored behind a clearing and a cover on another shelf. -/
def shelvedRequests : List Request :=
  [.clear, .store (Engine.key ⟨2, {}⟩ soonFormula) ⟨2, []⟩,
    .store (Engine.key ⟨1, {}⟩ (.var 0)) ⟨1, [[.zero]]⟩]

theorem serve_eq_history_wrongRequests :
    (∀ y, (after .wrapping {} wrongRequests).cache.find? (Engine.key ⟨1, {}⟩ y) =
        (after .wrapping {} shelvedRequests).cache.find? (Engine.key ⟨1, {}⟩ y)) ∧
      ((after .wrapping {} wrongRequests).serve .wrapping (.denote ⟨1, {}⟩ true soonFormula)).1 =
        .ok (some ⟨1, [[.zero], [.wild, .zero]]⟩) ∧
      ((after .wrapping {} shelvedRequests).serve .wrapping (.denote ⟨1, {}⟩ true soonFormula)).1 =
        .ok (some ⟨1, [[.zero], [.wild, .zero]]⟩) ∧
      (after .wrapping {} (wrongRequests ++ [Request.denote ⟨1, {}⟩ true soonFormula] ++
          [Request.denote ⟨1, {}⟩ true soonFormula])).cache.hits =
        (after .wrapping {} (wrongRequests ++ [Request.denote ⟨1, {}⟩ true soonFormula])).cache.hits + 1 := by
  have other : ∀ y, Engine.key ⟨2, {}⟩ soonFormula ≠ Engine.key ⟨1, {}⟩ y := by
    intro y
    simp [Engine.key]
  have same : ∀ y, (after .wrapping {} wrongRequests).cache.find? (Engine.key ⟨1, {}⟩ y) =
      (after .wrapping {} shelvedRequests).cache.find? (Engine.key ⟨1, {}⟩ y) := by
    intro y
    have wrong : (after .wrapping {} wrongRequests).cache =
        Cache.insert {} (Engine.key ⟨1, {}⟩ (.var 0)) ⟨1, [[.zero]]⟩ := rfl
    have shelved : (after .wrapping {} shelvedRequests).cache =
        (Cache.insert {} (Engine.key ⟨2, {}⟩ soonFormula) ⟨2, []⟩).insert
          (Engine.key ⟨1, {}⟩ (.var 0)) ⟨1, [[.zero]]⟩ := rfl
    rw [wrong, shelved, Cache.find?_insert, Cache.find?_insert, Cache.find?_insert,
      if_neg (other y)]
  have run : ((after .wrapping {} wrongRequests).serve .wrapping (.denote ⟨1, {}⟩ true soonFormula)).1 =
      .ok (some ⟨1, [[.zero], [.wild, .zero]]⟩) := by cbv
  obtain ⟨-, -, -, -, confined, again⟩ := serve_eq_history .wrapping wrongRequests
  obtain ⟨answer, -⟩ := confined shelvedRequests ⟨1, {}⟩ soonFormula same
  obtain ⟨-, -, hits⟩ := again ⟨1, {}⟩ soonFormula _ run
  exact ⟨same, run, answer.symm.trans run, hits⟩

end Session

end MissionTime

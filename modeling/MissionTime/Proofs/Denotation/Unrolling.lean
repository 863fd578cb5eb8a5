import MissionTime.Proofs.Cover.Alignment
import MissionTime.Proofs.Denotation.Models

/-!
# Unrolling two-place operators

`U` and `R` are computed in one loop, which carries the window of the held operand from step to step,
already delayed and simplified. The same cover is obtained plainly, by computing each window anew with
`G`: as a disjunction, bracketed to the left, of conjunctions of windows. Both compute the same delays,
which have to be admitted.

**Definitions.**
* `Engine.heldFor`: the body of `G`, before it is delayed;
* `Engine.unrollPlain`: the loop with windows that are computed anew;
* `NormalFormula.untilUnrolled` and `NormalFormula.releaseUnrolled`: the disjunctions.

**Results.**
* `Engine.returns_tracks`: what the loop carries tracks the window of `G`;
* `Engine.unroll_eq_plain`: both loops give the same cover;
* `Engine.denote_unrolled`: both operators and their disjunctions denote the same cover.
-/

namespace MissionTime

namespace NormalFormula

/-- The first formula, or at some step before the last `hold` from the lower bound up to this step and
`goal` `delay` steps later. The disjunction is bracketed to the left. -/
def unrolled (hold goal : NormalFormula) (delay : Nat) (int : Interval) (first : NormalFormula) :
    NormalFormula :=
  fold .or (first :: (List.range' int.lower int.width).map fun i =>
    .binary (.unary .always ⟨int.lower, i⟩ hold) .and
      (.unary .always (.singleton (i + delay)) goal))

/-- `G[a,a]ψ`, or for some `i` from `a` to `b - 1` both `G[a,i]φ` and `G[i+1,i+1]ψ`. -/
def untilUnrolled (lhs : NormalFormula) (int : Interval) (rhs : NormalFormula) : NormalFormula :=
  unrolled lhs rhs 1 int (.unary .always (.singleton int.lower) rhs)

/-- `G[a,b]ψ`, or for some `i` from `a` to `b - 1` both `G[a,i]ψ` and `G[i,i]φ`. -/
def releaseUnrolled (lhs : NormalFormula) (int : Interval) (rhs : NormalFormula) : NormalFormula :=
  unrolled rhs lhs 0 int (.unary .always int rhs)

end NormalFormula

namespace Engine

open Cover

section Windows

variable {simplify : Bool} {vars blocks : Nat} {c d : Cover}

/-- The copies of a cover for so many further steps, intersected before they are delayed. -/
def heldFor (simplify : Bool) (c : Cover) (count : Nat) : Except Error Cover :=
  (List.range' 1 count).foldlM
    (fun body i => intersectWith (reduction simplify) body (c.shifted i)) c

theorem always_eq_heldFor
    (c : Cover) (int : Interval) :
    always .unbounded (reduction simplify) c int = (do
      let body ← heldFor simplify c int.width
      return body.shifted int.lower) :=
  always_unbounded _ c int

theorem heldFor_succ
    (c : Cover) (count : Nat) :
    heldFor simplify c (count + 1) = (do
      let body ← heldFor simplify c count
      intersectWith (reduction simplify) body (c.shifted (count + 1))) := by
  rw [heldFor, List.range'_1_concat, List.foldlM_append, Nat.add_comm 1 count]
  simp only [List.foldlM_cons, List.foldlM_nil, bind_pure]
  rfl

theorem returns_heldFor
    (simplify : Bool) (h : c.Fits vars blocks) (count : Nat) :
    Returns (heldFor simplify c count) (·.Fits vars (count + blocks)) := by
  induction count with
  | zero => exact Returns.pure (h.mono (Nat.le_add_left _ _))
  | succ count ih =>
      rw [heldFor_succ]
      refine ih.bind fun body hbody => ?_
      have longer := hbody.mono (show count + blocks ≤ count + 1 + blocks by omega)
      exact (returns_intersect simplify longer (h.shifted (count + 1))).mono fun e he => he.1

/-- The carried cover is alike the window of `G` from the first step to another one. -/
def Tracks (simplify : Bool) (vars blocks : Nat) (c : Cover) (lower i : Nat) (window : Cover) :
    Prop :=
  ∃ held, always .unbounded (reduction simplify) c ⟨lower, i⟩ = .ok held ∧
    Alike simplify vars (i + blocks) held window

theorem tracks_lower
    (h : c.Fits vars blocks) (lower : Nat) :
    Tracks simplify vars blocks c lower lower (c.shifted lower) := by
  refine ⟨c.shifted lower, ?_, Alike.refl simplify (h.shifted lower)⟩
  rw [always_eq_heldFor, Interval.width, Nat.sub_self]
  rfl

/-- Intersecting the carried cover with the next copy tracks the window that is one step longer. -/
theorem returns_tracks
    (h : c.Fits vars blocks) {lower i : Nat} (hi : lower ≤ i) {window : Cover}
    (htracks : Tracks simplify vars blocks c lower i window) :
    Returns (intersectWith (reduction simplify) window (c.shifted (i + 1)))
      (Tracks simplify vars blocks c lower (i + 1)) := by
  obtain ⟨count, rfl⟩ := Nat.exists_eq_add_of_le hi
  obtain ⟨held, hheld, halike⟩ := htracks
  obtain ⟨body, hbody, hfits⟩ := returns_heldFor simplify h count
  have longer := hfits.mono (show count + blocks ≤ count + 1 + blocks by omega)
  have copy := h.shifted (count + 1)
  obtain ⟨next, hnext, -⟩ := returns_intersect simplify longer copy
  rw [always_eq_heldFor, Interval.width, Nat.add_sub_cancel_left, hbody] at hheld
  obtain rfl : body.shifted lower = held := Except.ok.inj hheld
  have same := (halike.mono (show lower + count + blocks ≤ lower + count + 1 + blocks by omega)
    ).intersect (h.shifted (lower + count + 1))
  have delayed := alike_intersect_shifted longer copy hnext lower
  rw [shifted_shifted, ← Nat.add_assoc, same] at delayed
  refine delayed.mono fun window' hwindow' => ⟨next.shifted lower, ?_, ?_⟩
  · rw [always_eq_heldFor, Interval.width, Nat.add_assoc, Nat.add_sub_cancel_left, heldFor_succ,
      hbody]
    change (intersectWith (reduction simplify) body (c.shifted (count + 1)) >>= _) = _
    rw [hnext]
    rfl
  · rwa [← Nat.add_assoc, ← Nat.add_assoc] at hwindow'

/-- One step with a window that is computed anew. -/
def plainStep (simplify : Bool) (hold goal : Cover) (delay lower : Nat) (cover : Cover) (i : Nat) :
    Except Error Cover := do
  let window ← always .unbounded (reduction simplify) hold ⟨lower, i⟩
  let step ← intersectWith (reduction simplify) window (goal.shifted (i + delay))
  joinWith (reduction simplify) cover step

/-- For each step but the last, joins the window of `hold` up to this step, computed anew, intersected
with `goal` `delay` steps later. -/
def unrollPlain (simplify : Bool) (hold goal : Cover) (delay : Nat) (int : Interval)
    (first : Cover) : Except Error Cover :=
  (List.range' int.lower int.width).foldlM (plainStep simplify hold goal delay int.lower) first

/-- A step of the loop fails as the plain step does, or gives the same cover and a window that still
tracks the window of `G` unless this was the last step. -/
theorem unrollStep_cases
    (hc : c.Fits vars blocks) (hd : d.Fits vars blocks) (delay : Nat) {lower upper i : Nat}
    (hlower : lower ≤ i) {window : Cover} (htracks : Tracks simplify vars blocks c lower i window)
    (cover : Cover) :
    (∃ cause,
      unrollStep .unbounded (reduction simplify) c d delay upper (cover, window) i = .error cause ∧
      plainStep simplify c d delay lower cover i = .error cause) ∨
    (∃ next window',
      unrollStep .unbounded (reduction simplify) c d delay upper (cover, window) i =
        .ok (next, window') ∧
      plainStep simplify c d delay lower cover i = .ok next ∧
      (i + 1 < upper → Tracks simplify vars blocks c lower (i + 1) window')) := by
  obtain ⟨window', hwindow', htracks'⟩ := returns_tracks hc hlower htracks
  obtain ⟨held, hheld, halike⟩ := htracks
  have copy := hd.shifted (i + delay)
  have wider := halike.mono (show i + blocks ≤ i + delay + blocks by omega)
  obtain ⟨step, hstep, -⟩ := returns_intersect simplify wider.left copy
  have hstep' := hstep
  rw [wider.intersect copy] at hstep'
  have plain : plainStep simplify c d delay lower cover i =
      joinWith (reduction simplify) cover step := by
    rw [plainStep, hheld]
    change (intersectWith (reduction simplify) held (d.shifted (i + delay)) >>= _) = _
    rw [hstep]
    rfl
  rw [plain, unrollStep_unbounded, hstep']
  change (∃ cause, (joinWith (reduction simplify) cover step >>= _) = _ ∧ _) ∨
    ∃ next later, (joinWith (reduction simplify) cover step >>= _) = _ ∧ _
  cases joinWith (reduction simplify) cover step with
  | error cause => exact Or.inl ⟨cause, rfl, rfl⟩
  | ok next =>
      by_cases hlast : i + 1 < upper
      · refine Or.inr ⟨next, window', ?_, rfl, fun _ => htracks'⟩
        change (if i + 1 < upper then _ else _) = _
        rw [if_pos hlast, hwindow']
        rfl
      · refine Or.inr ⟨next, window, ?_, rfl, fun hmore => absurd hmore hlast⟩
        change (if i + 1 < upper then _ else _) = _
        rw [if_neg hlast]
        rfl

/-- Carrying the window along gives the same cover as computing it anew in every step. -/
theorem unroll_eq_plain
    (hc : c.Fits vars blocks) (hd : d.Fits vars blocks) (delay : Nat) {int : Interval}
    (hint : int.lower ≤ int.upper) (first : Cover) :
    unroll .unbounded (reduction simplify) c d delay int first =
      unrollPlain simplify c d delay int first := by
  -- Behind the last step nothing is tracked, so the window is tracked while steps are left.
  have general : ∀ (count i : Nat) (cover window : Cover), int.lower ≤ i → i + count = int.upper →
      (0 < count → Tracks simplify vars blocks c int.lower i window) →
      ((List.range' i count).foldlM
          (unrollStep .unbounded (reduction simplify) c d delay int.upper) (cover, window) >>=
        fun state => Except.ok state.1) =
        (List.range' i count).foldlM (plainStep simplify c d delay int.lower) cover := by
    intro count
    induction count with
    | zero => intro i cover window _ _ _; rfl
    | succ count ih =>
        intro i cover window hlower hupper htracks
        rw [List.range'_succ, List.foldlM_cons, List.foldlM_cons]
        rcases unrollStep_cases hc hd delay hlower (htracks (Nat.succ_pos count)) cover with
          ⟨cause, hcarry, hplain⟩ | ⟨next, window', hcarry, hplain, htracks'⟩
        · rw [hcarry, hplain]
          rfl
        · rw [hcarry, hplain]
          exact ih (i + 1) next window' (by omega) (by omega) fun hmore => htracks' (by omega)
  rw [unroll_unbounded]
  exact general int.width int.lower first (c.shifted int.lower) (Nat.le_refl _)
    (Nat.add_sub_cancel' hint) fun _ => tracks_lower hc int.lower

end Windows

section Formulas

variable (e : Engine) {lhs rhs hold goal : NormalFormula} {c d : Cover} {int : Interval}

theorem always_singleton
    (simplify : Bool) (c : Cover) (step : Nat) :
    always .unbounded (reduction simplify) c (.singleton step) = .ok (c.shifted step) := by
  rw [always_eq_heldFor, Interval.width, Interval.singleton, Nat.sub_self]
  rfl

/-- A disjunct makes one step of the plain loop. -/
theorem denoteIn_disjunct
    (hc : e.denoteIn (Host.plain .unbounded) hold = .ok c)
    (hd : e.denoteIn (Host.plain .unbounded) goal = .ok d)
    (delay : Nat) {lower i : Nat} (hi : lower ≤ i) (acc : NormalFormula) :
    e.denoteIn (Host.plain .unbounded) (.binary acc .or (.binary (.unary .always ⟨lower, i⟩ hold) .and
      (.unary .always (.singleton (i + delay)) goal))) = (do
        let cover ← e.denoteIn (Host.plain .unbounded) acc
        plainStep e.config.simplify c d delay lower cover i) := by
  have proper : ¬ (⟨lower, i⟩ : Interval).Vacuous := Interval.not_vacuous_iff.mpr hi
  have point : ¬ (Interval.singleton (i + delay)).Vacuous :=
    Interval.not_vacuous_iff.mpr (Nat.le_refl _)
  have window := e.denoteIn_unary (a := .unbounded) .always proper hold
  have goals := e.denoteIn_unary (a := .unbounded) .always point goal
  rw [hc] at window
  rw [hd] at goals
  have step := always_singleton e.config.simplify d (i + delay)
  rw [denoteIn_or, denoteIn_and, window, goals]
  cases e.denoteIn (Host.plain .unbounded) acc with
  | error cause => rfl
  | ok cover =>
      change ((always .unbounded (reduction e.config.simplify) c ⟨lower, i⟩ >>= fun window =>
        always .unbounded (reduction e.config.simplify) d (.singleton (i + delay)) >>= fun copy =>
          intersectWith (reduction e.config.simplify) window copy) >>= _) = _
      rw [step, bind_assoc]
      rfl

/-- The cover of an unrolled operator is made by the plain loop. -/
theorem denoteIn_unrolled
    (hc : e.denoteIn (Host.plain .unbounded) hold = .ok c)
    (hd : e.denoteIn (Host.plain .unbounded) goal = .ok d)
    (delay : Nat) (int : Interval) (first : NormalFormula) :
    e.denoteIn (Host.plain .unbounded) (NormalFormula.unrolled hold goal delay int first) = (do
      let cover ← e.denoteIn (Host.plain .unbounded) first
      unrollPlain e.config.simplify c d delay int cover) := by
  have general : ∀ (count i : Nat) (acc : NormalFormula), int.lower ≤ i →
      e.denoteIn (Host.plain .unbounded) (((List.range' i count).map fun i =>
        NormalFormula.binary (.unary .always ⟨int.lower, i⟩ hold) .and
          (.unary .always (.singleton (i + delay)) goal)).foldl
            (fun acc sub => .binary acc ListOp.or.toBinary sub) acc) = (do
        let cover ← e.denoteIn (Host.plain .unbounded) acc
        (List.range' i count).foldlM (plainStep e.config.simplify c d delay int.lower) cover) := by
    intro count
    induction count with
    | zero =>
        intro i acc _
        exact (bind_pure _).symm
    | succ count ih =>
        intro i acc hi
        rw [List.range'_succ, List.map_cons, List.foldl_cons, ih (i + 1) _ (by omega),
          ListOp.toBinary, e.denoteIn_disjunct hc hd delay hi, bind_assoc]
        simp only [List.foldlM_cons]
  exact general int.width int.lower first (Nat.le_refl _)

theorem denoteIn_until
    {blocks : Nat} (hl : e.denoteIn (Host.plain .unbounded) lhs = .ok c)
    (hr : e.denoteIn (Host.plain .unbounded) rhs = .ok d)
    (hc : c.Fits e.vars blocks) (hd : d.Fits e.vars blocks) (hint : int.lower ≤ int.upper) :
    e.denoteIn (Host.plain .unbounded) (.temporal lhs .until int rhs) =
      e.denoteIn (Host.plain .unbounded) (NormalFormula.untilUnrolled lhs int rhs) := by
  have point : ¬ (Interval.singleton int.lower).Vacuous :=
    Interval.not_vacuous_iff.mpr (Nat.le_refl _)
  have first := e.denoteIn_unary (a := .unbounded) .always point rhs
  rw [hr] at first
  rw [e.denoteIn_temporal lhs .until (Interval.not_vacuous_iff.mpr hint) rhs,
    NormalFormula.untilUnrolled, e.denoteIn_unrolled hl hr, first, hl, hr]
  change untilWithin .unbounded (reduction e.config.simplify) c d int =
    (always .unbounded (reduction e.config.simplify) d (.singleton int.lower) >>= _)
  rw [always_singleton, untilWithin_unbounded, unroll_eq_plain hc hd 1 hint]
  rfl

theorem denoteIn_release
    {blocks : Nat} (hl : e.denoteIn (Host.plain .unbounded) lhs = .ok c)
    (hr : e.denoteIn (Host.plain .unbounded) rhs = .ok d)
    (hc : c.Fits e.vars blocks) (hd : d.Fits e.vars blocks) (hint : int.lower ≤ int.upper) :
    e.denoteIn (Host.plain .unbounded) (.temporal lhs .release int rhs) =
      e.denoteIn (Host.plain .unbounded) (NormalFormula.releaseUnrolled lhs int rhs) := by
  have proper := Interval.not_vacuous_iff.mpr hint
  have first := e.denoteIn_unary (a := .unbounded) .always proper rhs
  rw [hr] at first
  rw [e.denoteIn_temporal lhs .release proper rhs,
    NormalFormula.releaseUnrolled, e.denoteIn_unrolled hr hl, first, hl, hr]
  change (always .unbounded (reduction e.config.simplify) d int >>= fun held =>
    unroll .unbounded (reduction e.config.simplify) d c 0 int held) = _
  refine congrArg (always .unbounded (reduction e.config.simplify) d int >>= ·) ?_
  funext held
  exact unroll_eq_plain hd hc 0 hint held

theorem delay_temporal
    (lhs rhs : NormalFormula) (op : TemporalOp) (hint : int.lower ≤ int.upper) :
    (NormalFormula.temporal lhs op int rhs).toFormula.delay =
      max int.upper (max lhs.toFormula.delay rhs.toFormula.delay) := by
  rw [NormalFormula.toFormula, Formula.delay, if_neg (Interval.not_vacuous_iff.mpr hint)]

/-- Nothing is delayed further in the unrolled form than in the operator. -/
theorem delay_unrolled_le
    (hint : int.lower ≤ int.upper) {steps most : Nat} (hsteps : steps ≤ 1) (hupper : int.upper ≤ most)
    (hhold : hold.toFormula.delay ≤ most) (hgoal : goal.toFormula.delay ≤ most)
    {first : NormalFormula} (hfirst : first.toFormula.delay ≤ most) :
    (NormalFormula.unrolled hold goal steps int first).toFormula.delay ≤ most := by
  have total : int.lower + int.width = int.upper := Nat.add_sub_cancel' hint
  have folded : ∀ (subs : List NormalFormula) (acc : NormalFormula),
      (∀ sub ∈ subs, sub.toFormula.delay ≤ most) → acc.toFormula.delay ≤ most →
      (subs.foldl (fun acc sub => .binary acc ListOp.or.toBinary sub) acc).toFormula.delay ≤ most := by
    intro subs
    induction subs with
    | nil => exact fun acc _ hacc => hacc
    | cons sub subs ih =>
        intro acc hsubs hacc
        refine ih _ (fun other hother => hsubs other (List.mem_cons_of_mem sub hother)) ?_
        exact Nat.max_le.mpr ⟨hacc, hsubs sub List.mem_cons_self⟩
  refine folded _ first (fun sub hsub => ?_) hfirst
  obtain ⟨i, hi, rfl⟩ := List.mem_map.mp hsub
  obtain ⟨hlower, hbelow⟩ := List.mem_range'_1.mp hi
  have proper : ¬ (⟨int.lower, i⟩ : Interval).Vacuous := Interval.not_vacuous_iff.mpr hlower
  have point : ¬ (Interval.singleton (i + steps)).Vacuous :=
    Interval.not_vacuous_iff.mpr (Nat.le_refl _)
  simp only [NormalFormula.toFormula, Formula.delay, if_neg proper, if_neg point]
  change max (max i hold.toFormula.delay) (max (i + steps) goal.toFormula.delay) ≤ most
  omega

theorem delay_untilUnrolled_le
    (hint : int.lower ≤ int.upper) (lhs rhs : NormalFormula) :
    (NormalFormula.untilUnrolled lhs int rhs).toFormula.delay ≤
      max int.upper (max lhs.toFormula.delay rhs.toFormula.delay) := by
  have point : ¬ (Interval.singleton int.lower).Vacuous :=
    Interval.not_vacuous_iff.mpr (Nat.le_refl _)
  refine delay_unrolled_le hint (Nat.le_refl 1) (Nat.le_max_left _ _) (by omega) (by omega) ?_
  simp only [NormalFormula.toFormula, Formula.delay, if_neg point]
  change max int.lower rhs.toFormula.delay ≤ _
  omega

theorem delay_releaseUnrolled_le
    (hint : int.lower ≤ int.upper) (lhs rhs : NormalFormula) :
    (NormalFormula.releaseUnrolled lhs int rhs).toFormula.delay ≤
      max int.upper (max lhs.toFormula.delay rhs.toFormula.delay) := by
  refine delay_unrolled_le hint (Nat.zero_le 1) (Nat.le_max_left _ _) (by omega) (by omega) ?_
  simp only [NormalFormula.toFormula, Formula.delay, if_neg (Interval.not_vacuous_iff.mpr hint)]
  omega

/-- `p0 | !p0`, whose simplified cover is one free block. -/
def freeOperand : NormalFormula :=
  .binary (.literal (.var ⟨0, false⟩)) .or (.literal (.var ⟨0, true⟩))

end Formulas

end Engine

end MissionTime

import MissionTime.Proofs.Cover.Realization
import MissionTime.Proofs.Denotation.Plain

/-!
# Windows of covers

The covers of temporal operators over an interval that is not vacuous, from the covers of the
operands. Each operator goes once through its interval; what it has gathered before a step is the
property of the steps so far, and a growing window is the property of all steps up to the last one.

**Results.**
* `Engine.returns_eventually`, `Engine.returns_always`: some and all steps of the interval;
* `Engine.returns_unroll`: a step of one operand behind a window of the other;
* `Engine.returns_untilWithin`, `Engine.returns_releaseWithin`: the two-place operators.
-/

namespace MissionTime

namespace Interval

variable {int : Interval} {p q : Nat → Prop}

/-- All steps from the lower bound up to a step. -/
def AllUpTo (int : Interval) (p : Nat → Prop) (i : Nat) : Prop :=
  ∀ k, int.lower ≤ k → k ≤ i → p k

/-- At some step below a bound, `q` comes `delay` steps after a window of `p`. -/
def Chained (int : Interval) (p q : Nat → Prop) (delay bound : Nat) : Prop :=
  ∃ j < bound, int.lower ≤ j ∧ int.AllUpTo p j ∧ q (j + delay)

theorem allUpTo_lower :
    int.AllUpTo p int.lower ↔ p int.lower := by
  constructor
  · intro h
    exact h int.lower (Nat.le_refl _) (Nat.le_refl _)
  · intro h k hk hki
    exact (Nat.le_antisymm hk hki) ▸ h

theorem allUpTo_succ
    {i : Nat} (h : int.lower ≤ i) :
    int.AllUpTo p (i + 1) ↔ int.AllUpTo p i ∧ p (i + 1) := by
  constructor
  · intro hall
    exact ⟨fun k hk hki => hall k hk (by omega), hall (i + 1) (by omega) (Nat.le_refl _)⟩
  · rintro ⟨hall, hlast⟩ k hk hki
    rcases Nat.lt_or_eq_of_le hki with hlt | rfl
    · exact hall k hk (Nat.le_of_lt_succ hlt)
    · exact hlast

theorem not_chained_lower
    (delay : Nat) :
    ¬ int.Chained p q delay int.lower := by
  rintro ⟨j, hj, hlower, -⟩
  exact Nat.lt_irrefl j (Nat.lt_of_lt_of_le hj hlower)

theorem chained_succ
    {i : Nat} (h : int.lower ≤ i) (delay : Nat) :
    int.Chained p q delay (i + 1) ↔
      int.Chained p q delay i ∨ (int.AllUpTo p i ∧ q (i + delay)) := by
  constructor
  · rintro ⟨j, hj, hlower, hp, hq⟩
    rcases Nat.lt_or_eq_of_le (Nat.le_of_lt_succ hj) with hlt | rfl
    · exact Or.inl ⟨j, hlt, hlower, hp, hq⟩
    · exact Or.inr ⟨hp, hq⟩
  · rintro (⟨j, hj, hlower, hp, hq⟩ | ⟨hp, hq⟩)
    · exact ⟨j, Nat.lt_succ_of_lt hj, hlower, hp, hq⟩
    · exact ⟨i, Nat.lt_succ_self i, h, hp, hq⟩

theorem exists_mem_iff
    (h : int.lower ≤ int.upper) :
    (∃ i ∈ int, p i) ↔ ∃ i < int.width + 1, p (int.lower + i) := by
  have total : int.lower + int.width = int.upper := Nat.add_sub_cancel' h
  constructor
  · rintro ⟨i, hi, hp⟩
    obtain ⟨hlower, hupper⟩ := mem_iff.mp hi
    refine ⟨i - int.lower, by omega, ?_⟩
    rwa [Nat.add_sub_cancel' hlower]
  · rintro ⟨i, hi, hp⟩
    exact ⟨int.lower + i, mem_iff.mpr (by omega), hp⟩

theorem forall_mem_iff
    (h : int.lower ≤ int.upper) :
    (∀ i ∈ int, p i) ↔ ∀ i < int.width + 1, p (int.lower + i) := by
  rw [← not_iff_not]
  push Not
  exact exists_mem_iff h

/-- A step of `q` behind steps of `p` is the first step, or comes one step after a window. -/
theorem until_iff
    (h : int.lower ≤ int.upper) :
    (∃ j ∈ int, q j ∧ ∀ k, int.lower ≤ k → k < j → p k) ↔
      q int.lower ∨ int.Chained p q 1 int.upper := by
  constructor
  · rintro ⟨j, hj, hq, hp⟩
    obtain ⟨hlower, hupper⟩ := mem_iff.mp hj
    by_cases hfirst : j = int.lower
    · exact Or.inl (hfirst ▸ hq)
    · refine Or.inr ⟨j - 1, by omega, by omega, fun k hk hkj => hp k hk (by omega), ?_⟩
      rwa [Nat.sub_add_cancel (by omega)]
  · rintro (hq | ⟨i, hi, hlower, hp, hq⟩)
    · refine ⟨int.lower, mem_iff.mpr ⟨Nat.le_refl _, h⟩, hq, fun k hk hkj => ?_⟩
      exact absurd hkj (Nat.not_lt.mpr hk)
    · refine ⟨i + 1, mem_iff.mpr (by omega), hq, fun k hk hki => ?_⟩
      exact hp k hk (Nat.le_of_lt_succ hki)

/-- Every step is one of `p` or released by an earlier one of `q` exactly if all steps are of `p`, or
`q` comes at the end of a window of `p` before the last step. -/
theorem release_iff :
    (∀ j ∈ int, p j ∨ ∃ k, int.lower ≤ k ∧ k < j ∧ q k) ↔
      (∀ j ∈ int, p j) ∨ int.Chained p q 0 int.upper := by
  classical
  constructor
  · intro h
    by_cases hall : ∀ j ∈ int, p j
    · exact Or.inl hall
    · push Not at hall
      -- The first step that is not one of `p` has been released, and all steps before it are.
      obtain ⟨hfirst, hnp⟩ := Nat.find_spec hall
      have hupper := (mem_iff.mp hfirst).2
      have before : ∀ k, int.lower ≤ k → k < Nat.find hall → p k := by
        intro k hk hlt
        by_contra hpk
        exact Nat.find_min hall hlt ⟨mem_iff.mpr ⟨hk, by omega⟩, hpk⟩
      rcases h _ hfirst with hp | ⟨i, hlower, hlt, hq⟩
      · exact absurd hp hnp
      · exact Or.inr ⟨i, by omega, hlower, fun k hk hki => before k hk (by omega), hq⟩
  · rintro (hall | ⟨i, hi, hlower, hp, hq⟩)
    · exact fun j hj => Or.inl (hall j hj)
    · intro j hj
      by_cases hji : j ≤ i
      · exact Or.inl (hp j (mem_iff.mp hj).1 hji)
      · exact Or.inr ⟨i, hlower, Nat.lt_of_not_le hji, hq⟩

end Interval

namespace Engine

open Cover

variable {vars : Nat} (simplify : Bool) {int : Interval}

section OnePlace

variable {blocks : Nat} {c : Cover} {P : Tape → Prop}

/-- Joining the copies of a cover asks for the property at some step of the interval. -/
theorem returns_eventually
    (h : c.Realizes vars blocks P) (hint : int.lower ≤ int.upper) :
    Returns (eventually .unbounded (reduction simplify) vars c int) fun e =>
      e.Realizes vars (int.upper + blocks) fun σ => ∃ i ∈ int, P (σ.skip vars i) := by
  have total : int.lower + int.width = int.upper := Nat.add_sub_cancel' hint
  have nothing : (empty vars).Realizes vars (int.width + blocks)
      fun σ => ∃ i < 0, P (σ.skip vars i) :=
    (realizes_empty vars _).congr fun σ => by simp
  rw [eventually_unbounded, List.range_eq_range']
  refine Returns.bind (Returns.foldlM_range' (fun i (body : Cover) =>
    body.Realizes vars (int.width + blocks) fun σ => ∃ j < i, P (σ.skip vars j)) nothing ?_) ?_
  · intro i body _ hi hbody
    have copy := (h.shifted i).mono (Nat.add_le_add_right (show i ≤ int.width by omega) blocks)
    refine (hbody.join simplify copy).mono fun e he => he.congr fun σ => ?_
    exact Nat.exists_lt_succ_right.symm
  · intro body hbody
    refine Returns.pure ?_
    rw [← total, Nat.add_assoc]
    refine (hbody.shifted int.lower).congr fun σ => ?_
    simp only [Interval.exists_mem_iff hint, Tape.skip_skip, Nat.zero_add]

/-- Intersecting the copies of a cover asks for the property at all steps of the interval. -/
theorem returns_always
    (h : c.Realizes vars blocks P) (hint : int.lower ≤ int.upper) :
    Returns (always .unbounded (reduction simplify) c int) fun e =>
      e.Realizes vars (int.upper + blocks) fun σ => ∀ i ∈ int, P (σ.skip vars i) := by
  have total : int.lower + int.width = int.upper := Nat.add_sub_cancel' hint
  have first : c.Realizes vars (int.width + blocks) fun σ => ∀ i < 1, P (σ.skip vars i) := by
    refine (h.mono (Nat.le_add_left _ _)).congr fun σ => ?_
    simp
  rw [always_unbounded]
  refine Returns.bind (Returns.foldlM_range' (fun i (body : Cover) =>
    body.Realizes vars (int.width + blocks) fun σ => ∀ j < i, P (σ.skip vars j)) first ?_) ?_
  · intro i body _ hi hbody
    have copy := (h.shifted i).mono (Nat.add_le_add_right (show i ≤ int.width by omega) blocks)
    refine (hbody.intersect simplify copy).mono fun e he => he.congr fun σ => ?_
    exact Nat.forall_lt_succ_right.symm
  · intro body hbody
    refine Returns.pure ?_
    rw [← total, Nat.add_assoc]
    refine (hbody.shifted int.lower).congr fun σ => ?_
    simp only [Interval.forall_mem_iff hint, Tape.skip_skip, Nat.add_comm 1]

end OnePlace

section TwoPlace

variable {c d first : Cover} {most some blocks : Nat} {P Q F : Tape → Prop}

/-- Unrolling adds to a property that `Q` comes `delay` steps after a window of `P`. The window is
only needed, and only extended, before the last step of the interval. -/
theorem returns_unroll
    (hc : c.Realizes vars most P) (hd : d.Realizes vars some Q) (delay : Nat)
    (hfirst : first.Realizes vars blocks F) (hint : int.lower ≤ int.upper)
    (hroom : ∀ i < int.upper, int.lower ≤ i → i + most ≤ blocks ∧ i + delay + some ≤ blocks) :
    Returns (unroll .unbounded (reduction simplify) c d delay int first) fun e =>
      e.Realizes vars blocks fun σ => F σ ∨
        int.Chained (fun k => P (σ.skip vars k)) (fun k => Q (σ.skip vars k)) delay int.upper := by
  have total : int.lower + int.width = int.upper := Nat.add_sub_cancel' hint
  have start : first.Realizes vars blocks (fun σ => F σ ∨
        int.Chained (fun k => P (σ.skip vars k)) (fun k => Q (σ.skip vars k)) delay int.lower) ∧
      (int.lower < int.upper → (c.shifted int.lower).Realizes vars blocks fun σ =>
        int.AllUpTo (fun k => P (σ.skip vars k)) int.lower) := by
    refine ⟨hfirst.congr fun σ => ?_, fun hlt => ?_⟩
    · exact (or_iff_left (Interval.not_chained_lower delay)).symm
    · refine ((hc.shifted int.lower).mono (hroom int.lower hlt (Nat.le_refl _)).1).congr fun σ => ?_
      exact (Interval.allUpTo_lower (p := fun k => P (σ.skip vars k))).symm
  rw [unroll_unbounded]
  refine Returns.bind (Returns.foldlM_range' (fun i (state : Cover × Cover) =>
    (state.1.Realizes vars blocks fun σ => F σ ∨
      int.Chained (fun k => P (σ.skip vars k)) (fun k => Q (σ.skip vars k)) delay i) ∧
    (i < int.upper → state.2.Realizes vars blocks fun σ =>
      int.AllUpTo (fun k => P (σ.skip vars k)) i)) start ?_) ?_
  · rintro i ⟨cover, window⟩ hlower hi ⟨hcover, hwindow⟩
    rw [unrollStep_unbounded]
    have hupper : i < int.upper := by omega
    have goal := (hd.shifted (i + delay)).mono (hroom i hupper hlower).2
    refine Returns.bind ((hwindow hupper).intersect simplify goal) fun step hstep => ?_
    refine Returns.bind (hcover.join simplify hstep) fun next hnext => ?_
    have found := hnext.congr fun σ => or_assoc.trans
      (or_congr_right (Interval.chained_succ hlower delay).symm)
    split
    · rename_i hsucc
      have copy := (hc.shifted (i + 1)).mono (hroom (i + 1) hsucc (by omega)).1
      refine Returns.bind ((hwindow hupper).intersect simplify copy) fun extended hextended => ?_
      refine Returns.pure ⟨found, fun _ => hextended.congr fun σ => ?_⟩
      exact (Interval.allUpTo_succ hlower).symm
    · rename_i hlast
      exact Returns.pure ⟨found, fun hsucc => absurd hsucc hlast⟩
  · rintro ⟨cover, window⟩ ⟨hcover, -⟩
    rw [total] at hcover
    exact Returns.pure hcover

/-- The cover of `U`: a step of the right operand behind steps of the left one. -/
theorem returns_untilWithin
    (hc : c.Realizes vars most P) (hd : d.Realizes vars some Q) (hint : int.lower ≤ int.upper)
    (hblocks : int.upper + some ≤ blocks)
    (hroom : int.lower < int.upper → int.upper - 1 + most ≤ blocks) :
    Returns (untilWithin .unbounded (reduction simplify) c d int) fun e =>
      e.Realizes vars blocks fun σ => ∃ j ∈ int, Q (σ.skip vars j) ∧
        ∀ k, int.lower ≤ k → k < j → P (σ.skip vars k) := by
  have first := (hd.shifted int.lower).mono (show int.lower + some ≤ blocks by omega)
  rw [untilWithin_unbounded]
  refine (returns_unroll simplify hc hd 1 first hint fun i hi hlower => ?_).mono fun e he => ?_
  · have most_le := hroom (Nat.lt_of_le_of_lt hlower hi)
    omega
  · exact he.congr fun σ => (Interval.until_iff (p := fun k => P (σ.skip vars k))
      (q := fun k => Q (σ.skip vars k)) hint).symm

/-- The cover of `R`: all steps of the right operand, or up to one of the left operand. -/
theorem returns_releaseWithin
    (hc : c.Realizes vars most P) (hd : d.Realizes vars some Q) (hint : int.lower ≤ int.upper)
    (hblocks : int.upper + some ≤ blocks)
    (hroom : int.lower < int.upper → int.upper - 1 + most ≤ blocks) :
    Returns (releaseWithin .unbounded (reduction simplify) c d int) fun e =>
      e.Realizes vars blocks fun σ => ∀ j ∈ int, Q (σ.skip vars j) ∨
        ∃ k, int.lower ≤ k ∧ k < j ∧ P (σ.skip vars k) := by
  rw [releaseWithin]
  refine Returns.bind (returns_always simplify hd hint) fun held hheld => ?_
  have first := hheld.mono hblocks
  refine (returns_unroll simplify hd hc 0 first hint fun i hi hlower => ?_).mono fun e he => ?_
  · have most_le := hroom (Nat.lt_of_le_of_lt hlower hi)
    omega
  · exact he.congr fun σ => Interval.release_iff.symm

end TwoPlace

end Engine

end MissionTime

import MissionTime.Proofs.Congruence

/-!
# Windows behind windows

An operator over a window, right inside the same operator over another window, is one operator over the
sum of the windows: its bounds are the sums of the bounds. For the operators on two formulas this holds
where the inner window begins at step zero and both have the same left operand.

**Results.**
* `Interval.mem_sum_iff`: the steps of a sum of windows;
* `Trace.holdsAt_unary_unary` and `Trace.holdsAt_temporal_temporal`: the operators on traces. The second
  operator of each kind is the first on complements;
* `Formula.congruent_unary_unary` and `Formula.congruent_temporal_temporal`: the two forms agree.
-/

namespace MissionTime

namespace Interval

/-- A step of a sum of windows is a step of the one behind a step of the other. -/
theorem mem_sum_iff
    {a b c d k : Nat} (hab : a ≤ b) (hcd : c ≤ d) :
    k ∈ Interval.mk (a + c) (b + d) ↔
      ∃ i ∈ Interval.mk a b, ∃ j ∈ Interval.mk c d, i + j = k := by
  simp only [mem_iff]
  constructor
  · rintro ⟨hlower, hupper⟩
    exact ⟨max a (k - d), by omega, k - max a (k - d), by omega, by omega⟩
  · rintro ⟨i, hi, j, hj, rfl⟩
    omega

end Interval

namespace Trace

variable (s : Trace) {a b c d : Nat} (t : Nat)

theorem holdsAt_eventually_eventually
    (hab : a ≤ b) (hcd : c ≤ d) (f : Formula) :
    s.holdsAt (.unary .eventually ⟨a, b⟩ (.unary .eventually ⟨c, d⟩ f)) t =
      s.holdsAt (.unary .eventually ⟨a + c, b + d⟩ f) t := by
  rw [Bool.eq_iff_iff, holdsAt_eventually_iff, holdsAt_eventually_iff]
  constructor
  · rintro ⟨i, hi, h⟩
    obtain ⟨j, hj, hf⟩ := (s.holdsAt_eventually_iff _ _ _).mp h
    refine ⟨i + j, (Interval.mem_sum_iff hab hcd).mpr ⟨i, hi, j, hj, rfl⟩, ?_⟩
    rwa [← Nat.add_assoc]
  · rintro ⟨k, hk, hf⟩
    obtain ⟨i, hi, j, hj, rfl⟩ := (Interval.mem_sum_iff hab hcd).mp hk
    refine ⟨i, hi, (s.holdsAt_eventually_iff _ _ _).mpr ⟨j, hj, ?_⟩⟩
    rwa [Nat.add_assoc]

/-- A step of the longer window is reached inside the first window, or behind its last step. -/
theorem holdsAt_until_until
    (hab : a ≤ b) (f g : Formula) :
    s.holdsAt (.temporal f .until ⟨a, b⟩ (.temporal f .until ⟨0, d⟩ g)) t =
      s.holdsAt (.temporal f .until ⟨a, b + d⟩ g) t := by
  rw [Bool.eq_iff_iff, holdsAt_until_iff, holdsAt_until_iff]
  simp only [holdsAt_until_iff, Interval.mem_iff]
  constructor
  · rintro ⟨i, ⟨ha, hb⟩, ⟨j, ⟨-, hd⟩, hg, inner⟩, outer⟩
    refine ⟨i + j, by omega, by rwa [← Nat.add_assoc], fun k hk hkj => ?_⟩
    by_cases hki : k < i
    · exact outer k hk hki
    · have later := inner (k - i) (Nat.zero_le _) (by omega)
      rwa [Nat.add_assoc, Nat.add_sub_cancel' (Nat.le_of_not_lt hki)] at later
  · rintro ⟨k, ⟨ha, hb⟩, hg, before⟩
    refine ⟨min k b, by omega, ⟨k - min k b, by omega, ?_, fun j _ hj => ?_⟩, fun j hj hjk => ?_⟩
    · rwa [Nat.add_assoc, Nat.add_sub_cancel' (Nat.min_le_left k b)]
    · rw [Nat.add_assoc]
      exact before _ (by omega) (by omega)
    · exact before j hj (by omega)

theorem holdsAt_eq_not_neg
    (f : Formula) (t : Nat) :
    s.holdsAt f t = !s.holdsAt (.neg f) t := by
  rw [holdsAt, Bool.not_not]

/-- Both operators on one formula: the second is the first on complements. -/
theorem holdsAt_unary_unary
    (op : UnaryOp) (hab : a ≤ b) (hcd : c ≤ d) (f : Formula) :
    s.holdsAt (.unary op ⟨a, b⟩ (.unary op ⟨c, d⟩ f)) t =
      s.holdsAt (.unary op ⟨a + c, b + d⟩ f) t := by
  cases op with
  | eventually => exact s.holdsAt_eventually_eventually t hab hcd f
  | always =>
      have complement := s.holdsAt_eq_not_neg f
      have inner := s.holdsAt_dual_unary complement .eventually ⟨c, d⟩
      have outer := s.holdsAt_dual_unary inner .eventually ⟨a, b⟩ t
      rw [s.holdsAt_eventually_eventually t hab hcd] at outer
      exact outer.trans (s.holdsAt_dual_unary complement .eventually ⟨a + c, b + d⟩ t).symm

/-- Both operators on two formulas. -/
theorem holdsAt_temporal_temporal
    (op : TemporalOp) (hab : a ≤ b) (f g : Formula) :
    s.holdsAt (.temporal f op ⟨a, b⟩ (.temporal f op ⟨0, d⟩ g)) t =
      s.holdsAt (.temporal f op ⟨a, b + d⟩ g) t := by
  cases op with
  | «until» => exact s.holdsAt_until_until t hab f g
  | release =>
      have left := s.holdsAt_eq_not_neg f
      have right := s.holdsAt_eq_not_neg g
      have inner := s.holdsAt_dual_temporal left right .until ⟨0, d⟩
      have outer := s.holdsAt_dual_temporal left inner .until ⟨a, b⟩ t
      rw [s.holdsAt_until_until t hab] at outer
      exact outer.trans (s.holdsAt_dual_temporal left right .until ⟨a, b + d⟩ t).symm

end Trace

namespace Formula

section Windows

variable {a b c d : Nat}

theorem congruent_unary_unary
    (op : UnaryOp) (hab : a ≤ b) (hcd : c ≤ d) (f : Formula) :
    Congruent (.unary op ⟨a, b⟩ (.unary op ⟨c, d⟩ f)) (.unary op ⟨a + c, b + d⟩ f) := by
  have first : ¬ (Interval.mk a b).Vacuous := Interval.not_vacuous_iff.mpr hab
  have second : ¬ (Interval.mk c d).Vacuous := Interval.not_vacuous_iff.mpr hcd
  have sum : ¬ (Interval.mk (a + c) (b + d)).Vacuous :=
    Interval.not_vacuous_iff.mpr (Nat.add_le_add hab hcd)
  refine ⟨?_, ?_, fun vars => ?_, fun s t => s.holdsAt_unary_unary t op hab hcd f⟩
  · simp only [horizon, if_neg first, if_neg second, if_neg sum, addCapped]
    omega
  · simp only [exactHorizon, if_neg first, if_neg second, if_neg sum]
    omega
  · simp only [firstBeyond_unary, if_neg first, if_neg second, if_neg sum]

/-- The left operand is read in the window of each operator, its live variables are the same twice. -/
theorem congruent_temporal_temporal
    (op : TemporalOp) (hab : a ≤ b) (f g : Formula) :
    Congruent (.temporal f op ⟨a, b⟩ (.temporal f op ⟨0, d⟩ g)) (.temporal f op ⟨a, b + d⟩ g) := by
  have first : ¬ (Interval.mk a b).Vacuous := Interval.not_vacuous_iff.mpr hab
  have second : ¬ (Interval.mk 0 d).Vacuous := Interval.not_vacuous_iff.mpr (Nat.zero_le d)
  have sum : ¬ (Interval.mk a (b + d)).Vacuous :=
    Interval.not_vacuous_iff.mpr (Nat.le_trans hab (Nat.le_add_right b d))
  refine ⟨?_, ?_, fun vars => ?_, fun s t => s.holdsAt_temporal_temporal t op hab f g⟩
  · have cut := horizon_le_largest f
    simp only [horizon, if_neg first, if_neg second, if_neg sum, addCapped]
    omega
  · simp only [exactHorizon, if_neg first, if_neg second, if_neg sum]
    omega
  · simp only [firstBeyond_temporal, if_neg first, if_neg second, if_neg sum,
      Option.or_eq_none_iff]
    tauto

end Windows

end Formula

end MissionTime

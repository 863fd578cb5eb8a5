import MissionTime.Proofs.Extent
import MissionTime.Proofs.Meaning

/-!
# What formulas read

Whether a formula holds at a step depends on the values from that step on, as many steps as the formula
reads, and on nothing else: not on the trace they belong to, on its width or length, or on where they
stand in it. A horizon that is not saturated covers these steps, so behind its first steps a trace can
be continued or replaced at will.

**Definitions.**
* `Trace.AgreeFor`: two traces, each from a step of its own, have the same values for so many steps.

**Results.**
* `Formula.add_reach_le_unary`, `Formula.add_reach_le_right`, `Formula.add_reach_le_left`: what operands
  read at the steps of a window, the operator reads;
* `Trace.holdsAt_of_agreeFor`: agreement for what a formula reads decides the formula;
* `Trace.holdsAt_eq_of_horizon`: agreement up to the horizon does.
-/

namespace MissionTime

namespace Formula

section Windows

variable {int : Interval} {i k : Nat}

theorem add_reach_le_unary
    (op : UnaryOp) (sub : Formula) (hi : i ∈ int) :
    i + sub.reach ≤ (Formula.unary op int sub).reach := by
  obtain ⟨hlower, hupper⟩ := Interval.mem_iff.mp hi
  rw [reach, if_neg (Interval.not_vacuous_iff.mpr (Nat.le_trans hlower hupper))]
  omega

theorem add_reach_le_right
    (lhs : Formula) (op : TemporalOp) (rhs : Formula) (hi : i ∈ int) :
    i + rhs.reach ≤ (Formula.temporal lhs op int rhs).reach := by
  obtain ⟨hlower, hupper⟩ := Interval.mem_iff.mp hi
  rw [reach, if_neg (Interval.not_vacuous_iff.mpr (Nat.le_trans hlower hupper))]
  split <;> omega

/-- A left operand is read strictly before a step of the window. -/
theorem add_reach_le_left
    (lhs : Formula) (op : TemporalOp) (rhs : Formula) (hi : i ∈ int) (hk : int.lower ≤ k)
    (hki : k < i) :
    k + lhs.reach ≤ (Formula.temporal lhs op int rhs).reach := by
  obtain ⟨hlower, hupper⟩ := Interval.mem_iff.mp hi
  rw [reach, if_neg (Interval.not_vacuous_iff.mpr (Nat.le_trans hlower hupper)),
    if_neg (by omega)]
  omega

theorem reach_le_reachOfList
    {sub : Formula} {subs : List Formula} (h : sub ∈ subs) :
    sub.reach ≤ reachOfList subs := by
  induction subs with
  | nil => exact absurd h List.not_mem_nil
  | cons first rest ih =>
      rcases List.mem_cons.mp h with rfl | h
      · exact Nat.le_max_left _ _
      · exact Nat.le_trans (ih h) (Nat.le_max_right _ _)

end Windows

end Formula

namespace Trace

section Agreement

variable {s r : Trace} {t u steps : Nat}

/-- From a step of each on, the two traces have the same values for so many steps. -/
def AgreeFor (steps : Nat) (s : Trace) (t : Nat) (r : Trace) (u : Nat) : Prop :=
  ∀ i < steps, ∀ x, s.value (t + i) x = r.value (u + i) x

/-- What agrees for some steps agrees later for those that remain. -/
theorem AgreeFor.later
    {i fewer : Nat} (h : AgreeFor steps s t r u) (hle : i + fewer ≤ steps) :
    AgreeFor fewer s (t + i) r (u + i) := by
  intro j hj x
  rw [Nat.add_assoc, Nat.add_assoc]
  exact h (i + j) (by omega) x

theorem AgreeFor.mono
    {fewer : Nat} (h : AgreeFor steps s t r u) (hle : fewer ≤ steps) :
    AgreeFor fewer s t r u :=
  fun i hi => h i (Nat.lt_of_lt_of_le hi hle)

/-- Traces that agree for the steps that a formula reads agree on the formula. -/
theorem holdsAt_of_agreeFor
    {f : Formula} (h : AgreeFor f.reach s t r u) :
    s.holdsAt f t = r.holdsAt f u := by
  induction f generalizing t u with
  | literal l =>
      cases l with
      | top => rfl
      | bot => rfl
      | var x => exact h 0 Nat.one_pos x
  | neg sub ih =>
      rw [holdsAt, holdsAt, ih h]
  | unary op int sub ih =>
      have within : ∀ i ∈ int, s.holdsAt sub (t + i) = r.holdsAt sub (u + i) := fun i hi =>
        ih (h.later (Formula.add_reach_le_unary op sub hi))
      cases op with
      | eventually =>
          rw [Bool.eq_iff_iff, holdsAt_eventually_iff, holdsAt_eventually_iff]
          refine exists_congr fun i => and_congr_right fun hi => ?_
          rw [within i hi]
      | always =>
          rw [Bool.eq_iff_iff, holdsAt_always_iff, holdsAt_always_iff]
          refine forall₂_congr fun i hi => ?_
          rw [within i hi]
  | temporal lhs op int rhs ihl ihr =>
      have within : ∀ j ∈ int, s.holdsAt rhs (t + j) = r.holdsAt rhs (u + j) := fun j hj =>
        ihr (h.later (Formula.add_reach_le_right lhs op rhs hj))
      have before : ∀ j ∈ int, ∀ k, int.lower ≤ k → k < j →
          s.holdsAt lhs (t + k) = r.holdsAt lhs (u + k) := fun j hj k hk hkj =>
        ihl (h.later (Formula.add_reach_le_left lhs op rhs hj hk hkj))
      cases op with
      | «until» =>
          rw [Bool.eq_iff_iff, holdsAt_until_iff, holdsAt_until_iff]
          refine exists_congr fun j => and_congr_right fun hj => ?_
          rw [within j hj]
          refine and_congr_right' (forall₃_congr fun k hk hkj => ?_)
          rw [before j hj k hk hkj]
      | release =>
          rw [Bool.eq_iff_iff, holdsAt_release_iff, holdsAt_release_iff]
          refine forall₂_congr fun j hj => ?_
          rw [within j hj]
          refine or_congr_right (exists_congr fun k => and_congr_right fun hk =>
            and_congr_right fun hkj => ?_)
          rw [before j hj k hk hkj]
  | binary lhs op rhs ihl ihr =>
      have left := ihl (h.mono (Nat.le_max_left lhs.reach rhs.reach))
      have right := ihr (h.mono (Nat.le_max_right lhs.reach rhs.reach))
      rw [holdsAt_binary, holdsAt_binary, left, right]
  | list op subs ih =>
      have values : subs.map (s.holdsAt · t) = subs.map (r.holdsAt · u) :=
        List.map_congr_left fun sub hsub => ih sub hsub (h.mono (Formula.reach_le_reachOfList hsub))
      have unit : s.holdsAt (.literal op.unit) t = r.holdsAt (.literal op.unit) u := by
        cases op <;> rfl
      rw [holdsAt_list, holdsAt_list, values, unit]

/-- States that two traces begin with give the same values. -/
theorem agreeFor_append
    (s : Trace) (width : Nat) (rest : List (List Bool)) (h : steps ≤ s.length) :
    AgreeFor steps ⟨width, s.states.take steps ++ rest⟩ 0 s 0 := by
  intro i hi x
  have early : i < (s.states.take steps).length := by
    rw [List.length_take]
    exact Nat.lt_min.mpr ⟨hi, Nat.lt_of_lt_of_le hi h⟩
  rw [value, value, Nat.zero_add, List.getElem?_append_left early, List.getElem?_take_of_lt hi]

/-- A horizon that is not saturated is enough: traces that agree up to it, each from a step of its own,
agree on the formula. In particular the states behind a beginning as long as the horizon can be replaced
or continued. -/
theorem holdsAt_eq_of_horizon
    (f : Formula) (hsaturated : ¬ f.Saturated) :
    (∀ (s r : Trace) (t u : Nat),
      (∀ i < f.horizon, ∀ x, s.value (t + i) x = r.value (u + i) x) →
        s.holdsAt f t = r.holdsAt f u) ∧
      ∀ (s : Trace) (width : Nat) (rest : List (List Bool)), f.horizon ≤ s.length →
        satisfies ⟨width, s.states.take f.horizon ++ rest⟩ f = s.satisfies f := by
  have counted := Formula.reach_le_horizon hsaturated
  constructor
  · intro s r t u hagree
    exact holdsAt_of_agreeFor (AgreeFor.mono hagree counted)
  · intro s width rest hlength
    exact holdsAt_of_agreeFor ((agreeFor_append s width rest hlength).mono counted)

/-- `(G[0,2] p0) U[0,1] (F[3,1] p1 | !p2)`, in which the longer operand is read before the other. -/
def staggeredFormula : Formula :=
  .temporal (.unary .always ⟨0, 2⟩ (.var 0)) .until ⟨0, 1⟩
    (.binary (.unary .eventually ⟨3, 1⟩ (.var 1)) .or (.neg (.var 2)))

theorem holdsAt_eq_of_horizon_staggeredFormula :
    ¬ staggeredFormula.Saturated ∧
      (∀ (s r : Trace) (t u : Nat),
        (∀ i < staggeredFormula.horizon, ∀ x, s.value (t + i) x = r.value (u + i) x) →
          s.holdsAt staggeredFormula t = r.holdsAt staggeredFormula u) ∧
      ∀ (s : Trace) (width : Nat) (rest : List (List Bool)), staggeredFormula.horizon ≤ s.length →
        satisfies ⟨width, s.states.take staggeredFormula.horizon ++ rest⟩ staggeredFormula =
          s.satisfies staggeredFormula := by
  have unsaturated : ¬ staggeredFormula.Saturated := fun h => absurd h.1 (by decide)
  exact ⟨unsaturated, holdsAt_eq_of_horizon staggeredFormula unsaturated⟩

end Agreement

end Trace

end MissionTime

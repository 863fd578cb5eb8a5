import MissionTime.Trace
import Mathlib.Tactic

/-!
# Temporal operators on traces

The evaluation of a temporal operator goes through its interval and stops at the first answer. What it
finds out is said here with quantifiers over the steps of the interval.

**Results.**
* `not_anyStep` and `not_allSteps`: the two kinds of windows are dual;
* `Trace.holdsAt_eventually_iff`, `Trace.holdsAt_always_iff`, `Trace.holdsAt_until_iff` and
  `Trace.holdsAt_release_iff`: the operators as statements about later steps;
* `Trace.holdsAt_vacuous_eventually` and the like: operators over a vacuous interval.
-/

namespace MissionTime

section Windows

variable {test other : Nat → Bool}

theorem anyStep_congr
    {count start : Nat} (h : ∀ i, test i = other i) :
    anyStep test count start = anyStep other count start := by
  rw [funext h]

theorem allSteps_congr
    {count start : Nat} (h : ∀ i, test i = other i) :
    allSteps test count start = allSteps other count start := by
  rw [funext h]

/-- No step passes exactly if each step fails. -/
theorem not_anyStep
    (test : Nat → Bool) (count start : Nat) :
    (!anyStep test count start) = allSteps (fun i => !test i) count start := by
  induction count generalizing start with
  | zero => rfl
  | succ count ih =>
      simp only [anyStep, allSteps, Bool.not_or, ih]

/-- Not each step passes exactly if some step fails. -/
theorem not_allSteps
    (test : Nat → Bool) (count start : Nat) :
    (!allSteps test count start) = anyStep (fun i => !test i) count start := by
  induction count generalizing start with
  | zero => rfl
  | succ count ih =>
      simp only [anyStep, allSteps, Bool.not_and, ih]

theorem anyStep_eq_true_iff
    {count start : Nat} :
    anyStep test count start = true ↔ ∃ i, start ≤ i ∧ i < start + count ∧ test i = true := by
  rw [anyStep_eq_any, List.any_eq_true]
  simp only [List.mem_range'_1, and_assoc]

theorem allSteps_eq_true_iff
    {count start : Nat} :
    allSteps test count start = true ↔ ∀ i, start ≤ i → i < start + count → test i = true := by
  rw [allSteps_eq_all, List.all_eq_true]
  simp only [List.mem_range'_1, and_imp]

theorem anyStep_size_iff
    {int : Interval} :
    anyStep test int.size int.lower = true ↔ ∃ i ∈ int, test i = true := by
  rw [anyStep_eq_any, List.any_eq_true]
  exact exists_congr fun i => and_congr_left' Interval.mem_steps

theorem allSteps_size_iff
    {int : Interval} :
    allSteps test int.size int.lower = true ↔ ∀ i ∈ int, test i = true := by
  rw [allSteps_eq_all, List.all_eq_true]
  exact forall_congr' fun i => imp_congr_left Interval.mem_steps

theorem anyStep_before_iff
    {first bound : Nat} :
    anyStep test (bound - first) first = true ↔
      ∃ k, first ≤ k ∧ k < bound ∧ test k = true := by
  rw [anyStep_eq_true_iff]
  refine exists_congr fun k => and_congr_right fun hk => and_congr_left' ?_
  omega

theorem allSteps_before_iff
    {first bound : Nat} :
    allSteps test (bound - first) first = true ↔
      ∀ k, first ≤ k → k < bound → test k = true := by
  rw [allSteps_eq_true_iff]
  refine forall_congr' fun k => imp_congr_right fun hk => imp_congr_left ?_
  omega

end Windows

namespace Trace

variable (s : Trace)

section Temporal

variable (int : Interval) (lhs rhs : Formula) (t : Nat)

theorem holdsAt_eventually_iff :
    s.holdsAt (.unary .eventually int rhs) t = true ↔
      ∃ i ∈ int, s.holdsAt rhs (t + i) = true := by
  rw [holdsAt, anyStep_size_iff]

theorem holdsAt_always_iff :
    s.holdsAt (.unary .always int rhs) t = true ↔
      ∀ i ∈ int, s.holdsAt rhs (t + i) = true := by
  rw [holdsAt, allSteps_size_iff]

theorem holdsAt_until_iff :
    s.holdsAt (.temporal lhs .until int rhs) t = true ↔
      ∃ j ∈ int, s.holdsAt rhs (t + j) = true ∧
        ∀ k, int.lower ≤ k → k < j → s.holdsAt lhs (t + k) = true := by
  rw [holdsAt, anyStep_size_iff]
  refine exists_congr fun j => and_congr_right fun hj => ?_
  rw [Bool.and_eq_true, allSteps_before_iff]

theorem holdsAt_release_iff :
    s.holdsAt (.temporal lhs .release int rhs) t = true ↔
      ∀ j ∈ int, s.holdsAt rhs (t + j) = true ∨
        ∃ k, int.lower ≤ k ∧ k < j ∧ s.holdsAt lhs (t + k) = true := by
  rw [holdsAt, allSteps_size_iff]
  refine forall₂_congr fun j hj => ?_
  rw [Bool.or_eq_true, anyStep_before_iff]

end Temporal

section Vacuous

variable {int : Interval} (h : int.Vacuous) (lhs rhs : Formula) (t : Nat)
include h

theorem holdsAt_vacuous_eventually :
    s.holdsAt (.unary .eventually int rhs) t = false := by
  rw [holdsAt, Interval.size_eq_zero h, anyStep]

theorem holdsAt_vacuous_always :
    s.holdsAt (.unary .always int rhs) t = true := by
  rw [holdsAt, Interval.size_eq_zero h, allSteps]

theorem holdsAt_vacuous_until :
    s.holdsAt (.temporal lhs .until int rhs) t = false := by
  rw [holdsAt, Interval.size_eq_zero h, anyStep]

theorem holdsAt_vacuous_release :
    s.holdsAt (.temporal lhs .release int rhs) t = true := by
  rw [holdsAt, Interval.size_eq_zero h, allSteps]

end Vacuous

end Trace

end MissionTime

/-!
# Bounded intervals

An interval `[a,b]` of time steps. Its bounds are kept as written: with `a > b` it holds no step, and
the temporal operators over it are decided without looking at their operands.

**Definitions.**
* `Interval.Vacuous`, `Interval.width`, `Interval.steps` and membership of a step;
* `anyStep` and `allSteps`, which test the steps of a window in order and stop at the first answer;
* `Interval.chars`, the written form.
-/

namespace MissionTime

/-- Both bounds belong to the interval. -/
structure Interval where
  lower : Nat
  upper : Nat
deriving DecidableEq, Repr

namespace Interval

/-- The interval of one step. -/
def singleton (step : Nat) : Interval :=
  ⟨step, step⟩

/-- An interval without a step. -/
def Vacuous (int : Interval) : Prop :=
  int.upper < int.lower

instance (int : Interval) : Decidable int.Vacuous :=
  inferInstanceAs (Decidable (int.upper < int.lower))

theorem not_vacuous_iff
    {int : Interval} :
    ¬ int.Vacuous ↔ int.lower ≤ int.upper :=
  Nat.not_lt

/-- An interval whose bounds coincide. -/
def IsSingleton (int : Interval) : Prop :=
  int.lower = int.upper

instance (int : Interval) : Decidable int.IsSingleton :=
  inferInstanceAs (Decidable (int.lower = int.upper))

/-- Number of steps after the lower bound. -/
def width (int : Interval) : Nat :=
  int.upper - int.lower

/-- Number of steps. -/
def size (int : Interval) : Nat :=
  int.upper + 1 - int.lower

theorem size_eq_zero
    {int : Interval} (h : int.Vacuous) :
    int.size = 0 :=
  Nat.sub_eq_zero_of_le (Nat.succ_le_of_lt h)

/-- All steps in increasing order. -/
def steps (int : Interval) : List Nat :=
  List.range' int.lower int.size

instance : Membership Nat Interval :=
  ⟨fun int step => int.lower ≤ step ∧ step ≤ int.upper⟩

instance (step : Nat) (int : Interval) : Decidable (step ∈ int) :=
  inferInstanceAs (Decidable (int.lower ≤ step ∧ step ≤ int.upper))

theorem mem_iff
    {step : Nat} {int : Interval} :
    step ∈ int ↔ int.lower ≤ step ∧ step ≤ int.upper :=
  Iff.rfl

theorem mem_steps
    {step : Nat} {int : Interval} :
    step ∈ int.steps ↔ step ∈ int := by
  simp only [steps, size, List.mem_range'_1, mem_iff]
  omega

/-- The written form `[a,b]`. -/
def chars (int : Interval) : List Char :=
  '[' :: (Nat.toDigits 10 int.lower ++ ',' :: (Nat.toDigits 10 int.upper ++ [']']))

/-- The written form as a text. -/
def text (int : Interval) : String :=
  String.ofList int.chars

/-- The lower bound decides first. -/
instance : Ord Interval :=
  ⟨fun a b => (compare a.lower b.lower).then (compare a.upper b.upper)⟩

theorem compare_eq_iff
    {a b : Interval} :
    compare a b = .eq ↔ a = b := by
  cases a
  cases b
  change Ordering.then _ _ = .eq ↔ _
  rw [Ordering.then_eq_eq, Nat.compare_eq_eq, Nat.compare_eq_eq, mk.injEq]

end Interval

/-- Some of the `count` steps from `start` passes; later steps are not tried after the first. -/
def anyStep (test : Nat → Bool) : (count start : Nat) → Bool
  | 0, _ => false
  | count + 1, start => test start || anyStep test count (start + 1)

/-- Each of the `count` steps from `start` passes; later steps are not tried after a failure. -/
def allSteps (test : Nat → Bool) : (count start : Nat) → Bool
  | 0, _ => true
  | count + 1, start => test start && allSteps test count (start + 1)

theorem anyStep_eq_any
    (test : Nat → Bool) (count start : Nat) :
    anyStep test count start = (List.range' start count).any test := by
  induction count generalizing start with
  | zero => rfl
  | succ count ih => simp [anyStep, List.range'_succ, ih]

theorem allSteps_eq_all
    (test : Nat → Bool) (count start : Nat) :
    allSteps test count start = (List.range' start count).all test := by
  induction count generalizing start with
  | zero => rfl
  | succ count ih => simp [allSteps, List.range'_succ, ih]

end MissionTime

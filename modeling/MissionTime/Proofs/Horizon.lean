import MissionTime.Proofs.Extent

/-!
# Counting horizons

A horizon is counted with numbers that stop at the largest one. Pushing negations inward and folding
lists keep it, also where it has stopped. Against the horizon that is counted to its end it may fall
short, and not only by stopping: the left operand of a two-place operator counts one step less, and this
step is taken from a number that may have stopped already. The upper bound of a window makes up for what
its operands have lost, so nothing is lost unless some window ends at step zero.

**Definitions.**
* `Formula.shortfall`: how many steps may be lost in this way.

**Results.**
* `Formula.blind_horizon`: the horizon is blind to negations;
* `NormalFormula.horizon_ofFormula_and_negated_and_fold`: what the changes of form keep;
* `Formula.horizon_le_exactHorizon` and `Formula.min_exactHorizon_le`: the two bounds, from operands to
  operators;
* `Formula.horizon_bounds`: the horizon between the exact one and what may be lost of it;
* `Formula.horizon_ne_min_overlongOperand`: a step is lost.
-/

namespace MissionTime

section Negations

/-- The horizon does not see negations. -/
theorem Formula.blind_horizon :
    Blind horizon max where
  idem := Nat.max_self
  complement _ := rfl
  neg _ := rfl
  unary op op' int sub sub' h := by simp only [horizon, h]
  temporal op op' int lhs lhs' rhs rhs' hl hr := by simp only [horizon, hl, hr]
  binary lhs op rhs := rfl
  list_nil op := rfl
  list_cons := horizon_list_cons

/-- A formula and its canonical normal form have one horizon, a normal form and its negation have one,
and so have a list and what it folds to, whether or not the counting has stopped. -/
theorem NormalFormula.horizon_ofFormula_and_negated_and_fold
    (f : Formula) (x : NormalFormula) (op : ListOp) (xs : List NormalFormula) :
    (NormalFormula.ofFormula f).horizon = f.horizon ∧ x.negated.horizon = x.horizon ∧
      (NormalFormula.fold op xs).horizon = (NormalFormula.list op xs).horizon := by
  refine ⟨?_, ?_, ?_⟩
  · exact Formula.blind_horizon.ofFormula f
  · exact Formula.blind_horizon.negated x
  · exact Formula.blind_horizon.fold op xs

end Negations

namespace Formula

section Bounds

mutual

/-- How many steps the horizon may lose by stopping too early. A left operand loses a step more than it
has lost itself; a window makes up for as many steps as its upper bound says. -/
def shortfall : Formula → Nat
  | .literal _ => 0
  | .neg sub => shortfall sub
  | .unary _ int sub => if int.Vacuous then 0 else shortfall sub - int.upper
  | .temporal lhs _ int rhs =>
    if int.Vacuous then 0 else max (shortfall lhs + 1) (shortfall rhs) - int.upper
  | .binary lhs _ rhs => max (shortfall lhs) (shortfall rhs)
  | .list _ subs => shortfallOfList subs

/-- The most that a member of a list may lose. -/
def shortfallOfList : List Formula → Nat
  | [] => 0
  | sub :: subs => max (shortfall sub) (shortfallOfList subs)

end

/-- The horizon does not count more than the steps that decide the formula. -/
theorem horizon_le_exactHorizon
    (f : Formula) :
    f.horizon ≤ f.exactHorizon := by
  induction f using induct_members with
  | literal l => exact Nat.le_refl 1
  | neg sub ih => exact ih
  | unary op int sub ih =>
      rw [horizon, exactHorizon]
      unfold addCapped
      split <;> omega
  | temporal lhs op int rhs ihl ihr =>
      rw [horizon, exactHorizon]
      unfold addCapped
      split <;> omega
  | binary lhs op rhs ihl ihr =>
      rw [horizon, exactHorizon]
      omega
  | nil op => exact Nat.le_refl 1
  | cons op sub subs head tail =>
      rw [exactHorizon] at tail ⊢
      rw [horizon_list_cons_eq_max, exactHorizonOfList]
      omega

/-- What is not counted, because the counting has stopped, may be lost. What an operand may lose, a window
makes up for as far as its upper bound reaches. -/
theorem min_exactHorizon_le
    (f : Formula) :
    min (f.exactHorizon + f.shortfall) largest ≤ f.horizon + f.shortfall := by
  induction f using induct_members with
  | literal l => exact Nat.min_le_left _ _
  | neg sub ih => exact ih
  | unary op int sub ih =>
      rw [exactHorizon, horizon, shortfall]
      split
      · exact Nat.min_le_left _ _
      · unfold addCapped
        omega
  | temporal lhs op int rhs ihl ihr =>
      have counted := horizon_pos lhs
      rw [exactHorizon, horizon, shortfall]
      split
      · exact Nat.min_le_left _ _
      · unfold addCapped
        omega
  | binary lhs op rhs ihl ihr =>
      rw [exactHorizon, horizon, shortfall]
      omega
  | nil op => exact Nat.min_le_left _ _
  | cons op sub subs head tail =>
      rw [exactHorizon, shortfall] at tail ⊢
      rw [horizon_list_cons_eq_max, exactHorizonOfList, shortfallOfList]
      omega

/-- No horizon is zero, so a step can be taken from it. It does not exceed the exact horizon, cut at the
largest number, and falls short of it by no more than what stopping too early may lose. Where nothing may
be lost, it is the exact horizon, cut once. -/
theorem horizon_bounds
    (f : Formula) :
    1 ≤ f.horizon ∧ min f.exactHorizon (largest - f.shortfall) ≤ f.horizon ∧
      f.horizon ≤ min f.exactHorizon largest ∧
      (f.shortfall = 0 → f.horizon = min f.exactHorizon largest) := by
  have counted := horizon_pos f
  have exact_le := horizon_le_exactHorizon f
  have cut := horizon_le_largest f
  have lost := min_exactHorizon_le f
  omega

/-- `(F[0,m] F[0,1] p0) U[0,0] p1` for the largest number `m`: the horizon of the left operand stops. -/
def overlongOperand : Formula :=
  .temporal (.unary .eventually ⟨0, largest⟩ (.unary .eventually ⟨0, 1⟩ (.var 0))) .until ⟨0, 0⟩
    (.var 1)

/-- A horizon that has stopped loses a step as a left operand, though more steps than the largest number
decide the formula. -/
theorem horizon_ne_min_overlongOperand :
    overlongOperand.horizon = largest - 1 ∧ overlongOperand.exactHorizon = largest + 1 ∧
      overlongOperand.horizon ≠ min overlongOperand.exactHorizon largest := by
  decide

end Bounds

end Formula

end MissionTime

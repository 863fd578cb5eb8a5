import MissionTime.Capped
import MissionTime.Formula.Basic

/-!
# Horizons

How many steps of a trace decide a formula at its first step.

**Definitions.**
* `Formula.horizon`, counted with numbers that stop at `largest`.

The left operand of a two-place temporal operator is read strictly before the right one, hence
counts one step less; an operator over a vacuous interval reads nothing.
-/

namespace MissionTime

namespace Formula

mutual

/-- Number of steps that decide the formula; it stops at `largest`. -/
def horizon : Formula → Nat
  | .literal _ => 1
  | .neg sub => horizon sub
  | .unary _ int sub =>
    if int.Vacuous then 1 else addCapped int.upper (horizon sub)
  | .temporal lhs _ int rhs =>
    if int.Vacuous then 1 else addCapped int.upper (max (horizon lhs - 1) (horizon rhs))
  | .binary lhs _ rhs => max (horizon lhs) (horizon rhs)
  | .list _ subs => ((horizonOfList subs).max?).getD 1

/-- The horizons of the members of a list. -/
def horizonOfList : List Formula → List Nat
  | [] => []
  | sub :: subs => horizon sub :: horizonOfList subs

end

@[simp] theorem horizonOfList_eq_map
    (subs : List Formula) :
    horizonOfList subs = subs.map horizon := by
  induction subs with
  | nil => rfl
  | cons sub subs ih => simp [horizonOfList, ih]

end Formula

end MissionTime

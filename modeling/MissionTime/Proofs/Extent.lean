import MissionTime.Proofs.Polarity

/-!
# The extent of formulas

How many steps and which variables decide a formula. Both are read off the operators outside vacuous
windows, and neither depends on negations.

**Definitions.**
* `Formula.exactHorizon`: the horizon counted without a largest number, and `Formula.Saturated`: the
  horizon has stopped at the largest number before it was counted to its end;
* `Formula.delay`: the largest number of steps by which anything is delayed;
* `Formula.reach`: the steps that are read. A left operand is not read where the window of a two-place
  operator is a single step, although the horizon counts it;
* `Formula.liveIndices`: the indices of the variables that do not stand below an operator over a
  vacuous interval, from left to right, and `Formula.firstBeyond`: the leftmost of them that a number
  of variables does not cover.

**Results.**
* `Formula.reach_le_horizon`: a horizon that is not saturated covers what is read;
* `Formula.blind_reach`, `Formula.blind_exactHorizon`, `Formula.blind_delay` and
  `Formula.blind_firstBeyond`: these readings are blind to negations.
-/

namespace MissionTime

namespace Formula

section Steps

mutual

/-- Number of steps that decide the formula, counted to its end. -/
def exactHorizon : Formula → Nat
  | .literal _ => 1
  | .neg sub => exactHorizon sub
  | .unary _ int sub => if int.Vacuous then 1 else int.upper + exactHorizon sub
  | .temporal lhs _ int rhs =>
    if int.Vacuous then 1 else int.upper + max (exactHorizon lhs - 1) (exactHorizon rhs)
  | .binary lhs _ rhs => max (exactHorizon lhs) (exactHorizon rhs)
  | .list _ subs => exactHorizonOfList subs

/-- The largest exact horizon of the members of a list, and one for the empty list. -/
def exactHorizonOfList : List Formula → Nat
  | [] => 1
  | sub :: subs => max (exactHorizon sub) (exactHorizonOfList subs)

end

/-- The horizon is the largest number and stands for a larger one. -/
def Saturated (f : Formula) : Prop :=
  f.horizon = largest ∧ largest < f.exactHorizon

mutual

/-- Number of steps that are read to decide the formula. -/
def reach : Formula → Nat
  | .literal _ => 1
  | .neg sub => reach sub
  | .unary _ int sub => if int.Vacuous then 1 else int.upper + reach sub
  | .temporal lhs _ int rhs =>
    if int.Vacuous then 1
    else if int.lower = int.upper then int.upper + reach rhs
    else int.upper + max (reach lhs - 1) (reach rhs)
  | .binary lhs _ rhs => max (reach lhs) (reach rhs)
  | .list _ subs => reachOfList subs

/-- The largest reach of the members of a list, and one for the empty list. -/
def reachOfList : List Formula → Nat
  | [] => 1
  | sub :: subs => max (reach sub) (reachOfList subs)

end

/-- Every formula reads a step. -/
theorem reach_pos
    (f : Formula) :
    1 ≤ f.reach := by
  induction f using induct_members with
  | literal l => exact Nat.le_refl 1
  | neg sub ih => exact ih
  | unary op int sub ih =>
      rw [reach]
      split <;> omega
  | temporal lhs op int rhs ihl ihr =>
      rw [reach]
      split
      · exact Nat.le_refl 1
      · split <;> omega
  | binary lhs op rhs ihl ihr => exact Nat.le_trans ihl (Nat.le_max_left _ _)
  | nil op => exact Nat.le_refl 1
  | cons op sub subs head tail => exact Nat.le_trans head (Nat.le_max_left _ _)

/-- What is read is counted. -/
theorem reach_le_exactHorizon
    (f : Formula) :
    f.reach ≤ f.exactHorizon := by
  induction f using induct_members with
  | literal l => exact Nat.le_refl 1
  | neg sub ih => exact ih
  | unary op int sub ih =>
      rw [reach, exactHorizon]
      split <;> omega
  | temporal lhs op int rhs ihl ihr =>
      rw [reach, exactHorizon]
      split
      · exact Nat.le_refl 1
      · split <;> omega
  | binary lhs op rhs ihl ihr =>
      rw [reach, exactHorizon]
      omega
  | nil op => exact Nat.le_refl 1
  | cons op sub subs head tail =>
      rw [reach, exactHorizon] at tail ⊢
      rw [reachOfList, exactHorizonOfList]
      omega

/-- The horizon of a list is one or the horizon of a member, whichever is largest. -/
theorem horizon_list_cons
    (op : ListOp) (sub : Formula) (subs : List Formula) :
    (Formula.list op (sub :: subs)).horizon = (subs.map horizon).foldl max sub.horizon := by
  rw [horizon, horizonOfList_eq_map, List.map_cons, List.max?_cons', Option.getD_some]

theorem le_foldl_max
    {values : List Nat} {value bound : Nat} (h : bound ≤ value ∨ ∃ v ∈ values, bound ≤ v) :
    bound ≤ values.foldl max value := by
  induction values generalizing value with
  | nil => simpa using h
  | cons first rest ih =>
      apply ih
      rcases h with h | ⟨v, hv, h⟩
      · exact Or.inl (Nat.le_trans h (Nat.le_max_left _ _))
      · rcases List.mem_cons.mp hv with rfl | hv
        · exact Or.inl (Nat.le_trans h (Nat.le_max_right _ _))
        · exact Or.inr ⟨v, hv, h⟩

/-- Every horizon counts a step. -/
theorem horizon_pos
    (f : Formula) :
    1 ≤ f.horizon := by
  have room : 1 ≤ largest := by decide
  induction f using induct_members with
  | literal l => exact Nat.le_refl 1
  | neg sub ih => exact ih
  | unary op int sub ih =>
      rw [horizon]
      unfold addCapped
      split <;> omega
  | temporal lhs op int rhs ihl ihr =>
      rw [horizon]
      unfold addCapped
      split <;> omega
  | binary lhs op rhs ihl ihr => exact Nat.le_trans ihl (Nat.le_max_left _ _)
  | nil op => exact Nat.le_refl 1
  | cons op sub subs head tail =>
      rw [horizon_list_cons]
      exact le_foldl_max (Or.inl head)

/-- The horizon of a list is counted member by member. -/
theorem horizon_list_cons_eq_max
    (op : ListOp) (sub : Formula) (subs : List Formula) :
    (Formula.list op (sub :: subs)).horizon = max sub.horizon (Formula.list op subs).horizon := by
  rw [horizon_list_cons]
  cases subs with
  | nil => exact (Nat.max_eq_left (horizon_pos sub)).symm
  | cons next rest => rw [horizon_list_cons, List.map_cons, List.foldl_cons, List.foldl_assoc]

theorem horizon_le_largest
    (f : Formula) :
    f.horizon ≤ largest := by
  have one : 1 ≤ largest := by decide
  induction f using induct_members with
  | literal l => exact one
  | neg sub ih => exact ih
  | unary op int sub ih =>
      rw [horizon]
      split
      · exact one
      · exact addCapped_le _ _
  | temporal lhs op int rhs ihl ihr =>
      rw [horizon]
      split
      · exact one
      · exact addCapped_le _ _
  | binary lhs op rhs ihl ihr => exact Nat.max_le.mpr ⟨ihl, ihr⟩
  | nil op => exact one
  | cons op sub subs head tail =>
      rw [horizon_list_cons_eq_max]
      exact Nat.max_le.mpr ⟨head, tail⟩

/-- The horizon covers what is read, as far as it counts. -/
theorem min_reach_le_horizon
    (f : Formula) :
    min f.reach largest ≤ f.horizon := by
  induction f using induct_members with
  | literal l => exact Nat.min_le_left _ _
  | neg sub ih => exact ih
  | unary op int sub ih =>
      rw [reach, horizon]
      split
      · exact Nat.min_le_left _ _
      · unfold addCapped
        omega
  | temporal lhs op int rhs ihl ihr =>
      rw [reach, horizon]
      split
      · exact Nat.min_le_left _ _
      · rename_i hv
        have bounds := Interval.not_vacuous_iff.mp hv
        unfold addCapped
        split <;> omega
  | binary lhs op rhs ihl ihr =>
      rw [reach, horizon]
      omega
  | nil op => exact Nat.min_le_left _ _
  | cons op sub subs head tail =>
      rw [reach] at tail ⊢
      rw [horizon_list_cons_eq_max, reachOfList]
      omega

/-- A horizon that is not saturated covers what is read. -/
theorem reach_le_horizon
    {f : Formula} (h : ¬ f.Saturated) :
    f.reach ≤ f.horizon := by
  have counted := min_reach_le_horizon f
  have exact_le := reach_le_exactHorizon f
  have cut := horizon_le_largest f
  unfold Saturated at h
  omega

/-- A list that is read member by member, with a least value for the empty list, is a fold over its
members. -/
theorem max_eq_foldl_max
    {read : Formula → Nat} {readList : List Formula → Nat} {least : Nat} (nil : readList [] = least)
    (cons : ∀ sub subs, readList (sub :: subs) = max (read sub) (readList subs))
    (subs : List Formula) {value : Nat} (h : least ≤ value) :
    max value (readList subs) = (subs.map read).foldl max value := by
  induction subs generalizing value with
  | nil => rw [nil, List.map_nil, List.foldl_nil, Nat.max_eq_left h]
  | cons sub subs ih =>
      have next : least ≤ max value (read sub) := Nat.le_trans h (Nat.le_max_left _ _)
      rw [cons, ← Nat.max_assoc, ih next, List.map_cons, List.foldl_cons]

/-- The reach does not see negations. -/
theorem blind_reach :
    Blind reach max where
  idem := Nat.max_self
  complement _ := rfl
  neg _ := rfl
  unary op op' int sub sub' h := by simp only [reach, h]
  temporal op op' int lhs lhs' rhs rhs' hl hr := by simp only [reach, hl, hr]
  binary lhs op rhs := rfl
  list_nil op := rfl
  list_cons op sub subs := by
    rw [reach, reachOfList]
    exact max_eq_foldl_max rfl (fun _ _ => rfl) subs (reach_pos sub)

/-- The exact horizon does not see negations. -/
theorem blind_exactHorizon :
    Blind exactHorizon max where
  idem := Nat.max_self
  complement _ := rfl
  neg _ := rfl
  unary op op' int sub sub' h := by simp only [exactHorizon, h]
  temporal op op' int lhs lhs' rhs rhs' hl hr := by simp only [exactHorizon, hl, hr]
  binary lhs op rhs := rfl
  list_nil op := rfl
  list_cons op sub subs := by
    have positive := Nat.le_trans (reach_pos sub) (reach_le_exactHorizon sub)
    rw [exactHorizon, exactHorizonOfList]
    exact max_eq_foldl_max rfl (fun _ _ => rfl) subs positive

mutual

/-- The largest upper bound of a window that is not vacuous and does not stand below a vacuous one. -/
def delay : Formula → Nat
  | .literal _ => 0
  | .neg sub => delay sub
  | .unary _ int sub => if int.Vacuous then 0 else max int.upper (delay sub)
  | .temporal lhs _ int rhs =>
    if int.Vacuous then 0 else max int.upper (max (delay lhs) (delay rhs))
  | .binary lhs _ rhs => max (delay lhs) (delay rhs)
  | .list _ subs => delayOfList subs

/-- The largest delay of the members of a list, and zero for the empty list. -/
def delayOfList : List Formula → Nat
  | [] => 0
  | sub :: subs => max (delay sub) (delayOfList subs)

end

/-- The delay does not see negations. -/
theorem blind_delay :
    Blind delay max where
  idem := Nat.max_self
  complement _ := rfl
  neg _ := rfl
  unary op op' int sub sub' h := by simp only [delay, h]
  temporal op op' int lhs lhs' rhs rhs' hl hr := by simp only [delay, hl, hr]
  binary lhs op rhs := rfl
  list_nil op := rfl
  list_cons op sub subs := by
    rw [delay, delayOfList]
    exact max_eq_foldl_max rfl (fun _ _ => rfl) subs (Nat.zero_le _)

end Steps

section Variables

mutual

/-- Indices of the variables that do not stand below an operator over a vacuous interval, from left
to right. -/
def liveIndices : Formula → List Nat
  | .literal (.var x) => [x.index]
  | .literal _ => []
  | .neg sub => liveIndices sub
  | .unary _ int sub => if int.Vacuous then [] else liveIndices sub
  | .temporal lhs _ int rhs => if int.Vacuous then [] else liveIndices lhs ++ liveIndices rhs
  | .binary lhs _ rhs => liveIndices lhs ++ liveIndices rhs
  | .list _ subs => liveIndicesOfList subs

/-- The live indices of the members of a list, one member after the other. -/
def liveIndicesOfList : List Formula → List Nat
  | [] => []
  | sub :: subs => liveIndices sub ++ liveIndicesOfList subs

end

/-- The leftmost live index that does not belong to so many variables. -/
def firstBeyond (vars : Nat) (f : Formula) : Option Nat :=
  f.liveIndices.find? (fun i => decide (vars ≤ i))

theorem firstBeyond_eq_none_iff
    {vars : Nat} {f : Formula} :
    f.firstBeyond vars = none ↔ ∀ i ∈ f.liveIndices, i < vars := by
  simp [firstBeyond, List.find?_eq_none]

theorem firstBeyond_binary
    (vars : Nat) (lhs : Formula) (op : BinaryOp) (rhs : Formula) :
    (Formula.binary lhs op rhs).firstBeyond vars =
      (lhs.firstBeyond vars).or (rhs.firstBeyond vars) := by
  rw [firstBeyond, liveIndices, List.find?_append]
  rfl

theorem firstBeyond_unary
    (vars : Nat) (op : UnaryOp) (int : Interval) (sub : Formula) :
    (Formula.unary op int sub).firstBeyond vars =
      if int.Vacuous then none else sub.firstBeyond vars := by
  rw [firstBeyond, liveIndices]
  split <;> rfl

theorem firstBeyond_temporal
    (vars : Nat) (lhs : Formula) (op : TemporalOp) (int : Interval) (rhs : Formula) :
    (Formula.temporal lhs op int rhs).firstBeyond vars =
      if int.Vacuous then none else (lhs.firstBeyond vars).or (rhs.firstBeyond vars) := by
  rw [firstBeyond, liveIndices]
  split
  · rfl
  · rw [List.find?_append]
    rfl

theorem firstBeyond_list_cons
    (vars : Nat) (op : ListOp) (sub : Formula) (subs : List Formula) :
    (Formula.list op (sub :: subs)).firstBeyond vars =
      (subs.map (firstBeyond vars)).foldl Option.or (sub.firstBeyond vars) := by
  rw [firstBeyond, liveIndices, liveIndicesOfList, List.find?_append]
  change (sub.firstBeyond vars).or _ = _
  generalize sub.firstBeyond vars = first
  induction subs generalizing first with
  | nil => simp [liveIndicesOfList]
  | cons next rest ih =>
      rw [liveIndicesOfList, List.find?_append, ← Option.or_assoc, ih, List.map_cons,
        List.foldl_cons]
      rfl

/-- The leftmost live index beyond the variables does not see negations. -/
theorem blind_firstBeyond
    (vars : Nat) :
    Blind (firstBeyond vars) Option.or where
  idem _ := Option.or_self
  complement l := by cases l <;> rfl
  neg _ := rfl
  unary op op' int sub sub' h := by rw [firstBeyond_unary, firstBeyond_unary, h]
  temporal op op' int lhs lhs' rhs rhs' hl hr := by
    rw [firstBeyond_temporal, firstBeyond_temporal, hl, hr]
  binary := firstBeyond_binary vars
  list_nil op := by cases op <;> rfl
  list_cons := firstBeyond_list_cons vars

end Variables

end Formula

end MissionTime

import MissionTime.Capped
import MissionTime.Proofs.Polarity

/-!
# Conditions on the parts of formulas

Some properties of a formula ask something of each of its literals, of each of its intervals, and of
the number of members of each of its lists. Those that do not tell a literal from its complement pass
to negation normal forms.

**Definitions.**
* `Formula.Condition` and `Formula.Everywhere`: a condition on the parts, and that all parts meet it;
* `Formula.NoEmptyList`, `Formula.Sized` and `Formula.Positive`: every list has a member, every number
  is at most `largest`, and no literal is negated.

**Results.**
* `Formula.Everywhere.negated` and `Formula.Everywhere.ofFormula`: a condition that the complements of
  literals meet together with them is met by negations and by canonical normal forms.
-/

namespace MissionTime

/-- The index is at most `largest`. -/
def Literal.Sized : Literal → Prop
  | .var x => x.index ≤ largest
  | _ => True

/-- The literal is no complement of a variable. -/
def Literal.Positive : Literal → Prop
  | .var x => x.negated = false
  | _ => True

/-- Both bounds are at most `largest`. -/
def Interval.Sized (int : Interval) : Prop :=
  int.lower ≤ largest ∧ int.upper ≤ largest

namespace Formula

/-- What is asked of the literals, of the intervals, and of the numbers of members of the lists. -/
structure Condition where
  literal : Literal → Prop
  interval : Interval → Prop
  members : Nat → Prop

mutual

/-- Every part of the formula meets the condition. -/
def Everywhere (P : Condition) : Formula → Prop
  | .literal l => P.literal l
  | .neg sub => Everywhere P sub
  | .unary _ int sub => P.interval int ∧ Everywhere P sub
  | .temporal lhs _ int rhs => Everywhere P lhs ∧ P.interval int ∧ Everywhere P rhs
  | .binary lhs _ rhs => Everywhere P lhs ∧ Everywhere P rhs
  | .list _ subs => P.members subs.length ∧ EverywhereInList P subs

/-- Every part of the members of a list meets the condition. -/
def EverywhereInList (P : Condition) : List Formula → Prop
  | [] => True
  | sub :: subs => Everywhere P sub ∧ EverywhereInList P subs

end

@[simp] theorem everywhereInList_iff
    (P : Condition) (subs : List Formula) :
    EverywhereInList P subs ↔ ∀ sub ∈ subs, Everywhere P sub := by
  induction subs with
  | nil => simp [EverywhereInList]
  | cons sub subs ih => simp [EverywhereInList, ih]

/-- Every list has a member. -/
def NoEmptyList : Formula → Prop :=
  Everywhere ⟨fun _ => True, fun _ => True, (0 < ·)⟩

/-- Every number is at most `largest`. -/
def Sized : Formula → Prop :=
  Everywhere ⟨Literal.Sized, Interval.Sized, fun _ => True⟩

/-- No literal is the complement of a variable. -/
def Positive : Formula → Prop :=
  Everywhere ⟨Literal.Positive, fun _ => True, fun _ => True⟩

/-- A condition that does not tell a literal from its complement. -/
structure Condition.Symmetric (P : Condition) : Prop where
  top : P.literal .top
  complement : ∀ l, P.literal l → P.literal l.complement

namespace Condition.Symmetric

theorem noEmptyList :
    Symmetric ⟨fun _ => True, fun _ => True, (0 < ·)⟩ :=
  ⟨trivial, fun _ _ => trivial⟩

theorem sized :
    Symmetric ⟨Literal.Sized, Interval.Sized, fun _ => True⟩ :=
  ⟨trivial, fun l h => by cases l <;> first | exact trivial | exact h⟩

theorem unit
    {P : Condition} (symmetric : P.Symmetric) (op : ListOp) :
    P.literal op.unit := by
  cases op with
  | or => exact symmetric.complement _ symmetric.top
  | and => exact symmetric.top
  | equiv => exact symmetric.top

end Condition.Symmetric

namespace Everywhere

variable {P : Condition}

theorem list_toFormula_iff
    {op : ListOp} {subs : List NormalFormula} :
    Everywhere P (NormalFormula.list op subs).toFormula ↔
      P.members subs.length ∧ ∀ sub ∈ subs, Everywhere P sub.toFormula := by
  simp [NormalFormula.toFormula, Everywhere]

theorem list_map
    {op op' : ListOp} {subs : List NormalFormula} {change : NormalFormula → NormalFormula}
    (h : Everywhere P (NormalFormula.list op subs).toFormula)
    (hchange : ∀ sub ∈ subs, Everywhere P sub.toFormula → Everywhere P (change sub).toFormula) :
    Everywhere P (NormalFormula.list op' (subs.map change)).toFormula := by
  obtain ⟨hlength, hsubs⟩ := list_toFormula_iff.mp h
  refine list_toFormula_iff.mpr ⟨by rwa [List.length_map], ?_⟩
  intro sub hsub
  obtain ⟨sub, hmem, rfl⟩ := List.mem_map.mp hsub
  exact hchange sub hmem (hsubs sub hmem)

variable (symmetric : P.Symmetric)
include symmetric

/-- A folded list has the parts of the members. -/
theorem fold
    (op : ListOp) {subs : List NormalFormula} (h : ∀ sub ∈ subs, Everywhere P sub.toFormula) :
    Everywhere P (NormalFormula.fold op subs).toFormula := by
  induction subs using List.reverseRecOn with
  | nil => exact symmetric.unit op
  | append_singleton subs sub ih =>
      have last := h sub (by simp)
      have front := ih fun s hs => h s (List.mem_append_left _ hs)
      by_cases hne : subs = []
      · subst hne
        exact last
      · rw [NormalFormula.fold_concat op hne]
        exact ⟨front, last⟩

/-- A negation meets the condition of the formula. -/
theorem negated
    {x : NormalFormula} (h : Everywhere P x.toFormula) :
    Everywhere P x.negated.toFormula := by
  induction x using NormalFormula.negated.induct with
  | case1 l =>
      rw [NormalFormula.negated]
      exact symmetric.complement l h
  | case2 op int sub ih =>
      rw [NormalFormula.negated]
      exact ⟨h.1, ih h.2⟩
  | case3 lhs op int rhs ihl ihr =>
      rw [NormalFormula.negated]
      exact ⟨ihl h.1, h.2.1, ihr h.2.2⟩
  | case4 lhs rhs ihl ihr =>
      rw [NormalFormula.negated]
      exact ⟨ihl h.1, ihr h.2⟩
  | case5 lhs rhs ihl ihr =>
      rw [NormalFormula.negated]
      exact ⟨ihl h.1, ihr h.2⟩
  | case6 lhs rhs ihl ihr =>
      rw [NormalFormula.negated]
      exact ⟨h, ihl h.1, ihr h.2⟩
  | case7 lhs rhs ih =>
      rw [NormalFormula.negated]
      exact ⟨h.1, ih h.2⟩
  | case8 subs ih =>
      rw [NormalFormula.negated]
      exact list_map h ih
  | case9 subs ih =>
      rw [NormalFormula.negated]
      exact list_map h ih
  | case10 subs ih =>
      -- A list of equivalences is folded before it is negated, so its length is lost.
      rw [NormalFormula.negated]
      exact ih (fold symmetric _ (list_toFormula_iff.mp h).2)

/-- A canonical normal form meets the condition of the formula. -/
theorem ofFormula
    {f : Formula} (h : Everywhere P f) :
    Everywhere P (NormalFormula.ofFormula f).toFormula := by
  induction f using NormalFormula.ofFormula_induct with
  | literal l => exact h
  | neg_neg sub ih => exact ih h
  | neg sub hsub ih =>
      rw [NormalFormula.ofFormula]
      · exact negated symmetric (ih h)
      · exact hsub
  | unary op int sub ih => exact ⟨h.1, ih h.2⟩
  | temporal lhs op int rhs ihl ihr => exact ⟨ihl h.1, h.2.1, ihr h.2.2⟩
  | binary lhs op rhs ihl ihr => exact ⟨ihl h.1, ihr h.2⟩
  | list op subs ih =>
      obtain ⟨hlength, hsubs⟩ := h
      rw [everywhereInList_iff] at hsubs
      rw [NormalFormula.ofFormula, NormalFormula.ofFormulas_eq_map]
      refine list_toFormula_iff.mpr ⟨by rwa [List.length_map], ?_⟩
      intro x hx
      obtain ⟨sub, hmem, rfl⟩ := List.mem_map.mp hx
      exact ih sub hmem (hsubs sub hmem)

end Everywhere

end Formula

end MissionTime

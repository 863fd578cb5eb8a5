import MissionTime.Proofs.Polarity
import MissionTime.Proofs.Satisfaction

/-!
# The meaning of normal forms

Negation pushed down to the literals is negation, folding a list keeps what the list says, and the
canonical normal form of a formula holds where the formula holds. Traces are arbitrary here: they may
end before a formula is decided, and variables may stand outside their width.

**Results.**
* `Trace.holdsAt_fold`: a folded list means what the list means;
* `Trace.holdsAt_negated`: the negation holds exactly where the formula does not;
* `Trace.holdsAt_ofFormula_and_negated`: canonical forms and negations at every step.
-/

namespace MissionTime

namespace Trace

variable (s : Trace)

section Fold

/-- The value of a binary connective from the values of its operands. -/
def connect : BinaryOp → Bool → Bool → Bool
  | .or, l, r => l || r
  | .and, l, r => l && r
  | .equiv, l, r => l == r
  | .implies, l, r => !l || r

theorem holdsAt_binary
    (lhs : Formula) (op : BinaryOp) (rhs : Formula) (t : Nat) :
    s.holdsAt (.binary lhs op rhs) t = connect op (s.holdsAt lhs t) (s.holdsAt rhs t) := by
  cases op <;> simp only [holdsAt, connect]

/-- Nested connectives are a left fold over the values of the operands. -/
theorem holdsAt_foldl
    (op : ListOp) (subs : List NormalFormula) (acc : NormalFormula) (t : Nat) :
    s.holdsAt (subs.foldl (fun acc sub => .binary acc op.toBinary sub) acc).toFormula t =
      (subs.map fun sub => s.holdsAt sub.toFormula t).foldl (connect op.toBinary)
        (s.holdsAt acc.toFormula t) := by
  induction subs generalizing acc with
  | nil => rfl
  | cons sub subs ih =>
      rw [List.foldl_cons, ih, List.map_cons, List.foldl_cons, NormalFormula.toFormula,
        holdsAt_binary]

theorem foldl_connect_or
    (values : List Bool) (value : Bool) :
    values.foldl (connect .or) value = (value || values.any id) := by
  induction values generalizing value with
  | nil => simp
  | cons first rest ih => rw [List.foldl_cons, ih, List.any_cons, connect, Bool.or_assoc, id]

theorem foldl_connect_and
    (values : List Bool) (value : Bool) :
    values.foldl (connect .and) value = (value && values.all id) := by
  induction values generalizing value with
  | nil => simp
  | cons first rest ih => rw [List.foldl_cons, ih, List.all_cons, connect, Bool.and_assoc, id]

/-- A list is a left fold that starts from the value of the empty list. -/
theorem holdsAt_list
    (op : ListOp) (subs : List Formula) (t : Nat) :
    s.holdsAt (.list op subs) t =
      (subs.map (s.holdsAt · t)).foldl (connect op.toBinary)
        (s.holdsAt (.literal op.unit) t) := by
  cases op with
  | or =>
      rw [holdsAt_list_or, ListOp.toBinary, foldl_connect_or, List.any_map]
      simp only [ListOp.unit, holdsAt, Bool.false_or, Function.id_comp]
  | and =>
      rw [holdsAt_list_and, ListOp.toBinary, foldl_connect_and, List.all_map]
      simp only [ListOp.unit, holdsAt, Bool.true_and, Function.id_comp]
  | equiv =>
      rw [holdsAt_list_equiv, List.foldl_map]
      simp only [ListOp.unit, ListOp.toBinary, holdsAt, connect]

/-- The value of the empty list is neutral on the left. -/
theorem connect_unit
    (op : ListOp) (value : Bool) (t : Nat) :
    connect op.toBinary (s.holdsAt (.literal op.unit) t) value = value := by
  cases op <;> simp [connect, ListOp.toBinary, ListOp.unit, holdsAt]

theorem holdsAt_normal_list
    (op : ListOp) (subs : List NormalFormula) (t : Nat) :
    s.holdsAt (NormalFormula.list op subs).toFormula t =
      (subs.map fun sub => s.holdsAt sub.toFormula t).foldl (connect op.toBinary)
        (s.holdsAt (.literal op.unit) t) := by
  rw [NormalFormula.toFormula, NormalFormula.toFormulas_eq_map, holdsAt_list, List.map_map]
  rfl

/-- A folded list means what the list means. -/
theorem holdsAt_fold
    (op : ListOp) (subs : List NormalFormula) (t : Nat) :
    s.holdsAt (NormalFormula.fold op subs).toFormula t =
      s.holdsAt (NormalFormula.list op subs).toFormula t := by
  rw [holdsAt_normal_list]
  cases subs with
  | nil => rfl
  | cons first rest =>
      rw [NormalFormula.fold, holdsAt_foldl, List.map_cons, List.foldl_cons, connect_unit]

end Fold

section Negation

theorem value_flip
    (t : Nat) (x : Variable) :
    s.value t x.flip = !s.value t x := by
  simp [value, Variable.flip]

theorem holdsAt_complement
    (l : Literal) (t : Nat) :
    s.holdsAt (.literal l.complement) t = !s.holdsAt (.literal l) t := by
  cases l with
  | top => rfl
  | bot => rfl
  | var x => simp only [Literal.complement, holdsAt, value_flip]

/-- The dual operator on a complemented operand is the complement. -/
theorem holdsAt_dual_unary
    {sub dual : Formula} (h : ∀ t, s.holdsAt dual t = !s.holdsAt sub t)
    (op : UnaryOp) (int : Interval) (t : Nat) :
    s.holdsAt (.unary op.dual int dual) t = !s.holdsAt (.unary op int sub) t := by
  cases op with
  | eventually =>
      rw [UnaryOp.dual, holdsAt, holdsAt, not_anyStep]
      exact allSteps_congr fun i => h (t + i)
  | always =>
      rw [UnaryOp.dual, holdsAt, holdsAt, not_allSteps]
      exact anyStep_congr fun i => h (t + i)

/-- The dual operator on complemented operands is the complement. The inner windows are turned over
together with the outer one. -/
theorem holdsAt_dual_temporal
    {lhs rhs lhs' rhs' : Formula} (hl : ∀ t, s.holdsAt lhs' t = !s.holdsAt lhs t)
    (hr : ∀ t, s.holdsAt rhs' t = !s.holdsAt rhs t)
    (op : TemporalOp) (int : Interval) (t : Nat) :
    s.holdsAt (.temporal lhs' op.dual int rhs') t = !s.holdsAt (.temporal lhs op int rhs) t := by
  cases op with
  | «until» =>
      rw [TemporalOp.dual, holdsAt, holdsAt, not_anyStep]
      refine allSteps_congr fun j => ?_
      rw [Bool.not_and, not_allSteps, hr, anyStep_congr fun k => hl (t + k)]
  | release =>
      rw [TemporalOp.dual, holdsAt, holdsAt, not_allSteps]
      refine anyStep_congr fun j => ?_
      rw [Bool.not_or, not_anyStep, hr, allSteps_congr fun k => hl (t + k)]

/-- The negation holds exactly where the formula does not. -/
theorem holdsAt_negated
    (x : NormalFormula) (t : Nat) :
    s.holdsAt x.negated.toFormula t = !s.holdsAt x.toFormula t := by
  induction x using NormalFormula.negated.induct generalizing t with
  | case1 l =>
      rw [NormalFormula.negated]
      exact s.holdsAt_complement l t
  | case2 op int sub ih =>
      rw [NormalFormula.negated]
      exact s.holdsAt_dual_unary ih op int t
  | case3 lhs op int rhs ihl ihr =>
      rw [NormalFormula.negated]
      exact s.holdsAt_dual_temporal ihl ihr op int t
  | case4 lhs rhs ihl ihr =>
      simp only [NormalFormula.negated, NormalFormula.toFormula, holdsAt, ihl, ihr, Bool.not_or]
  | case5 lhs rhs ihl ihr =>
      simp only [NormalFormula.negated, NormalFormula.toFormula, holdsAt, ihl, ihr, Bool.not_and]
  | case6 lhs rhs ihl ihr =>
      simp only [NormalFormula.negated, NormalFormula.toFormula, holdsAt, ihl, ihr]
      cases s.holdsAt lhs.toFormula t <;> cases s.holdsAt rhs.toFormula t <;> rfl
  | case7 lhs rhs ih =>
      simp only [NormalFormula.negated, NormalFormula.toFormula, holdsAt, ih]
      cases s.holdsAt lhs.toFormula t <;> cases s.holdsAt rhs.toFormula t <;> rfl
  | case8 subs ih =>
      simp only [NormalFormula.negated, NormalFormula.toFormula, NormalFormula.toFormulas_eq_map,
        holdsAt_list_or, holdsAt_list_and, List.any_map, List.all_map,
        List.not_any_eq_all_not]
      rw [Bool.eq_iff_iff, List.all_eq_true, List.all_eq_true]
      refine forall₂_congr fun sub hsub => ?_
      simp only [Function.comp_apply, ih sub hsub t]
  | case9 subs ih =>
      simp only [NormalFormula.negated, NormalFormula.toFormula, NormalFormula.toFormulas_eq_map,
        holdsAt_list_or, holdsAt_list_and, List.any_map, List.all_map,
        List.not_all_eq_any_not]
      rw [Bool.eq_iff_iff, List.any_eq_true, List.any_eq_true]
      refine exists_congr fun sub => and_congr_right fun hsub => ?_
      simp only [Function.comp_apply, ih sub hsub t]
  | case10 subs ih =>
      rw [NormalFormula.negated, ih, holdsAt_fold]

/-- An equivalence says that both sides hold or that neither does. -/
theorem holdsAt_expand_equiv
    (lhs rhs : NormalFormula) (t : Nat) :
    s.holdsAt (NormalFormula.binary (.binary lhs .and rhs) .or
      (.binary lhs.negated .and rhs.negated)).toFormula t =
      s.holdsAt (NormalFormula.binary lhs .equiv rhs).toFormula t := by
  simp only [NormalFormula.toFormula, holdsAt, holdsAt_negated]
  cases s.holdsAt lhs.toFormula t <;> cases s.holdsAt rhs.toFormula t <;> rfl

theorem holdsAt_expand_implies
    (lhs rhs : NormalFormula) (t : Nat) :
    s.holdsAt (NormalFormula.binary lhs.negated .or rhs).toFormula t =
      s.holdsAt (NormalFormula.binary lhs .implies rhs).toFormula t := by
  simp only [NormalFormula.toFormula, holdsAt, holdsAt_negated]

end Negation

section Canonical

/-- The canonical normal form holds exactly where the formula does. -/
theorem holdsAt_ofFormula
    (f : Formula) (t : Nat) :
    s.holdsAt (NormalFormula.ofFormula f).toFormula t = s.holdsAt f t := by
  induction f using NormalFormula.ofFormula_induct generalizing t with
  | literal l => rfl
  | neg_neg sub ih =>
      simp only [NormalFormula.ofFormula, holdsAt, ih, Bool.not_not]
  | neg sub hsub ih =>
      rw [NormalFormula.ofFormula, holdsAt_negated, ih, holdsAt]
      exact hsub
  | unary op int sub ih =>
      cases op <;> simp only [NormalFormula.ofFormula, NormalFormula.toFormula, holdsAt, ih]
  | temporal lhs op int rhs ihl ihr =>
      cases op <;>
        simp only [NormalFormula.ofFormula, NormalFormula.toFormula, holdsAt, ihl, ihr]
  | binary lhs op rhs ihl ihr =>
      simp only [NormalFormula.ofFormula, NormalFormula.toFormula, holdsAt_binary, ihl, ihr]
  | list op subs ih =>
      have values : (subs.map NormalFormula.ofFormula).map
          (fun sub => s.holdsAt sub.toFormula t) = subs.map (s.holdsAt · t) := by
        rw [List.map_map]
        exact List.map_congr_left fun sub hsub => ih sub hsub t
      rw [NormalFormula.ofFormula, NormalFormula.ofFormulas_eq_map, holdsAt_normal_list,
        holdsAt_list, values]

/-- A formula and its canonical normal form hold at the same steps, and a normal form holds exactly
where its negation does not. -/
theorem holdsAt_ofFormula_and_negated
    (f : Formula) (x : NormalFormula) (t : Nat) :
    (s.holdsAt (NormalFormula.ofFormula f).toFormula t = true ↔ s.holdsAt f t = true) ∧
      (s.holdsAt x.negated.toFormula t = true ↔ ¬ s.holdsAt x.toFormula t = true) := by
  constructor
  · rw [s.holdsAt_ofFormula]
  · rw [s.holdsAt_negated, Bool.not_eq_true', Bool.not_eq_true]

end Canonical

end Trace

end MissionTime

import MissionTime.NormalFormula.Canonical
import Mathlib.Tactic

/-!
# Readings that do not see negations

The number of steps that a formula needs and the variables that occur in it are the same for a formula
and its negation. What such readings have in common is enough to carry them through every change of
form: pushing negations inward, folding lists, expanding connectives.

**Definitions.**
* `Formula.Blind`: a reading that takes dual operators and complementary literals for the same, and
  combines the operands of every connective by one idempotent operation.

**Results.**
* `Formula.Blind.fold`, `Formula.Blind.negated`, `Formula.Blind.ofFormula`: a blind reading of a
  folded list, of a negation and of a canonical normal form.
-/

namespace MissionTime

/-- Induction along the recursion of canonical normal forms: two negations in a row are dropped
together. -/
theorem NormalFormula.ofFormula_induct
    {motive : Formula → Prop}
    (literal : ∀ l, motive (.literal l))
    (neg_neg : ∀ sub, motive sub → motive (.neg (.neg sub)))
    (neg : ∀ sub, (∀ inner, sub = .neg inner → False) → motive sub → motive (.neg sub))
    (unary : ∀ op int sub, motive sub → motive (.unary op int sub))
    (temporal : ∀ lhs op int rhs, motive lhs → motive rhs →
      motive (.temporal lhs op int rhs))
    (binary : ∀ lhs op rhs, motive lhs → motive rhs → motive (.binary lhs op rhs))
    (list : ∀ op subs, (∀ sub ∈ subs, motive sub) → motive (.list op subs))
    (f : Formula) :
    motive f := by
  refine NormalFormula.ofFormula.induct motive (fun subs => ∀ sub ∈ subs, motive sub)
    literal neg_neg neg unary temporal binary list ?_ ?_ f
  · intro sub hsub
    exact absurd hsub List.not_mem_nil
  · intro head tail hhead htail sub hsub
    rcases List.mem_cons.mp hsub with rfl | hsub
    · exact hhead
    · exact htail sub hsub

namespace Formula

/-- A reading of formulas that does not see negations. -/
structure Blind {α : Type} (read : Formula → α) (combine : α → α → α) : Prop where
  idem : ∀ a, combine a a = a
  complement : ∀ l : Literal, read (.literal l.complement) = read (.literal l)
  neg : ∀ sub, read (.neg sub) = read sub
  unary : ∀ op op' int sub sub', read sub = read sub' →
    read (.unary op int sub) = read (.unary op' int sub')
  temporal : ∀ op op' int lhs lhs' rhs rhs', read lhs = read lhs' → read rhs = read rhs' →
    read (.temporal lhs op int rhs) = read (.temporal lhs' op' int rhs')
  binary : ∀ lhs op rhs, read (.binary lhs op rhs) = combine (read lhs) (read rhs)
  list_nil : ∀ op, read (.list op []) = read (.literal op.unit)
  list_cons : ∀ op sub subs,
    read (.list op (sub :: subs)) = (subs.map read).foldl combine (read sub)

namespace Blind

variable {α : Type} {read : Formula → α} {combine : α → α → α} (blind : Blind read combine)
include blind

/-- Combining twice what is combined already changes nothing. -/
theorem combine_combine
    (a b : α) :
    combine (combine a b) (combine a b) = combine a b :=
  blind.idem (combine a b)

/-- The reading of a list depends on the readings of its members only. -/
theorem list_congr
    (op op' : ListOp) {subs subs' : List Formula} (h : subs.map read = subs'.map read) :
    read (.list op subs) = read (.list op' subs') := by
  cases subs with
  | nil =>
      have empty : subs' = [] := by simpa [eq_comm] using h
      have swap : read (.literal .bot) = read (.literal .top) := blind.complement .top
      rw [empty, blind.list_nil, blind.list_nil]
      cases op <;> cases op' <;> simp [ListOp.unit, swap]
  | cons sub subs =>
      cases subs' with
      | nil => simp at h
      | cons sub' subs' =>
          obtain ⟨head, tail⟩ := List.cons.inj h
          rw [blind.list_cons, blind.list_cons, head, tail]

/-- The reading of a folded list is the reading of the list. -/
theorem fold
    (op : ListOp) (subs : List NormalFormula) :
    read (NormalFormula.fold op subs).toFormula = read (NormalFormula.list op subs).toFormula := by
  have chain : ∀ (rest : List NormalFormula) (acc : NormalFormula),
      read (rest.foldl (fun acc sub => .binary acc op.toBinary sub) acc).toFormula =
        ((rest.map NormalFormula.toFormula).map read).foldl combine (read acc.toFormula) := by
    intro rest
    induction rest with
    | nil => intro acc; rfl
    | cons sub rest ih =>
        intro acc
        rw [List.foldl_cons, ih, NormalFormula.toFormula, blind.binary, List.map_cons,
          List.map_cons, List.foldl_cons]
  rw [NormalFormula.toFormula, NormalFormula.toFormulas_eq_map]
  cases subs with
  | nil => rw [List.map_nil, blind.list_nil]; rfl
  | cons first rest =>
      rw [NormalFormula.fold, chain, List.map_cons, blind.list_cons]

/-- The reading of a negation is the reading of the formula. -/
theorem negated
    (x : NormalFormula) :
    read x.negated.toFormula = read x.toFormula := by
  induction x using NormalFormula.negated.induct with
  | case1 l =>
      rw [NormalFormula.negated]
      exact blind.complement l
  | case2 op int sub ih =>
      rw [NormalFormula.negated]
      exact blind.unary op.dual op int _ _ ih
  | case3 lhs op int rhs ihl ihr =>
      rw [NormalFormula.negated]
      exact blind.temporal op.dual op int _ _ _ _ ihl ihr
  | case4 lhs rhs ihl ihr =>
      simp only [NormalFormula.negated, NormalFormula.toFormula, blind.binary, ihl, ihr]
  | case5 lhs rhs ihl ihr =>
      simp only [NormalFormula.negated, NormalFormula.toFormula, blind.binary, ihl, ihr]
  | case6 lhs rhs ihl ihr =>
      simp only [NormalFormula.negated, NormalFormula.toFormula, blind.binary, ihl, ihr,
        blind.combine_combine]
  | case7 lhs rhs ih =>
      simp only [NormalFormula.negated, NormalFormula.toFormula, blind.binary, ih]
  | case8 subs ih =>
      rw [NormalFormula.negated]
      refine blind.list_congr .and .or ?_
      simpa using ih
  | case9 subs ih =>
      rw [NormalFormula.negated]
      refine blind.list_congr .or .and ?_
      simpa using ih
  | case10 subs ih =>
      rw [NormalFormula.negated, ih, blind.fold]

/-- The reading of a canonical normal form is the reading of the formula. -/
theorem ofFormula
    (f : Formula) :
    read (NormalFormula.ofFormula f).toFormula = read f := by
  induction f using NormalFormula.ofFormula_induct with
  | literal l => rfl
  | neg_neg sub ih => rw [NormalFormula.ofFormula, ih, blind.neg, blind.neg]
  | neg sub hsub ih =>
      rw [NormalFormula.ofFormula, blind.negated, ih, blind.neg]
      exact hsub
  | unary op int sub ih => exact blind.unary op op int _ _ ih
  | temporal lhs op int rhs ihl ihr => exact blind.temporal op op int _ _ _ _ ihl ihr
  | binary lhs op rhs ihl ihr =>
      rw [NormalFormula.ofFormula, NormalFormula.toFormula, blind.binary, ihl, ihr, blind.binary]
  | list op subs ih =>
      rw [NormalFormula.ofFormula]
      refine blind.list_congr op op ?_
      simpa using ih

/-- An equivalence and its expansion are read alike. -/
theorem expand_equiv
    (lhs rhs : NormalFormula) :
    read (NormalFormula.binary (.binary lhs .and rhs) .or
      (.binary lhs.negated .and rhs.negated)).toFormula =
      read (NormalFormula.binary lhs .equiv rhs).toFormula := by
  simp only [NormalFormula.toFormula, blind.binary, blind.negated, blind.combine_combine]

/-- An implication and its expansion are read alike. -/
theorem expand_implies
    (lhs rhs : NormalFormula) :
    read (NormalFormula.binary lhs.negated .or rhs).toFormula =
      read (NormalFormula.binary lhs .implies rhs).toFormula := by
  simp only [NormalFormula.toFormula, blind.binary, blind.negated]

end Blind

end Formula

end MissionTime

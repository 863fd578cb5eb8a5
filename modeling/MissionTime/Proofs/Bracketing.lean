import MissionTime.Proofs.Congruence

/-!
# Lists and bracketings

A list of formulas behind a connective says the same as its members around this connective, in any order
and with any parentheses. Every reading that takes the connective for one operation, of which order and
parentheses do not matter, is the same for all of them.

**Definitions.**
* `Formula.Brackets`: the formulas that put parentheses around the members of a list, two parts at a time;
* `Formula.Gathers`: a reading that takes a connective for such an operation.

**Results.**
* `Formula.Gathers.perm` and `Formula.Gathers.brackets`: order and parentheses do not matter;
* `Formula.congruent_brackets`: lists agree with the bracketings of their permutations;
* `Trace.holdsAt_list_equiv_iff_even`: what a list of equivalences says.
-/

namespace MissionTime

namespace Formula

/-- The members of the list stand in the formula from left to right, any two parts in parentheses. -/
inductive Brackets (op : ListOp) : List Formula → Formula → Prop
  | single (f : Formula) : Brackets op [f] f
  | join {left right : List Formula} {lhs rhs : Formula} (hleft : Brackets op left lhs)
      (hright : Brackets op right rhs) :
      Brackets op (left ++ right) (.binary lhs op.toBinary rhs)

/-- A reading under which the connective, between two formulas or in front of a list, is one operation
that is associative and commutative. -/
structure Gathers {α : Type} (op : ListOp) (read : Formula → α) (combine : α → α → α) : Prop where
  assoc : ∀ a b c, combine (combine a b) c = combine a (combine b c)
  comm : ∀ a b, combine a b = combine b a
  binary : ∀ lhs rhs, read (.binary lhs op.toBinary rhs) = combine (read lhs) (read rhs)
  nil : ∀ f, combine (read f) (read (.list op [])) = read f
  cons : ∀ f subs, read (.list op (f :: subs)) = combine (read f) (read (.list op subs))

namespace Gathers

variable {α : Type} {op : ListOp} {read : Formula → α} {combine : α → α → α}
  (gathers : Gathers op read combine)
include gathers

theorem append
    (left right : List Formula) :
    read (.list op (left ++ right)) = combine (read (.list op left)) (read (.list op right)) := by
  induction left with
  | nil => rw [List.nil_append, gathers.comm, gathers.nil]
  | cons f left ih => rw [List.cons_append, gathers.cons, ih, gathers.cons, gathers.assoc]

theorem perm
    {subs permuted : List Formula} (h : permuted.Perm subs) :
    read (.list op permuted) = read (.list op subs) := by
  induction h with
  | nil => rfl
  | cons f _ ih => rw [gathers.cons, gathers.cons, ih]
  | swap f g subs =>
      rw [gathers.cons, gathers.cons, gathers.cons, gathers.cons, ← gathers.assoc, ← gathers.assoc,
        gathers.comm (read g)]
  | trans _ _ ih₁ ih₂ => exact ih₁.trans ih₂

theorem brackets
    {subs : List Formula} {f : Formula} (h : Brackets op subs f) :
    read f = read (.list op subs) := by
  induction h with
  | single f => rw [gathers.cons, gathers.nil]
  | join _ _ ihl ihr => rw [gathers.binary, gathers.append, ihl, ihr]

theorem perm_brackets
    {subs permuted : List Formula} {f : Formula} (hperm : permuted.Perm subs)
    (h : Brackets op permuted f) :
    read (.list op subs) = read f :=
  ((gathers.brackets h).trans (gathers.perm hperm)).symm

end Gathers

section Readings

variable (op : ListOp)

theorem gathers_horizon :
    Gathers op horizon max where
  assoc := Nat.max_assoc
  comm := Nat.max_comm
  binary _ _ := rfl
  nil f := Nat.max_eq_left (horizon_pos f)
  cons := horizon_list_cons_eq_max op

theorem gathers_exactHorizon :
    Gathers op exactHorizon max where
  assoc := Nat.max_assoc
  comm := Nat.max_comm
  binary _ _ := rfl
  nil f := Nat.max_eq_left (Nat.le_trans (reach_pos f) (reach_le_exactHorizon f))
  cons _ _ := rfl

/-- Whether all live variables belong to a number of variables. -/
theorem gathers_live
    (vars : Nat) :
    Gathers op (fun f => f.firstBeyond vars = none) And where
  assoc _ _ _ := propext and_assoc
  comm _ _ := propext and_comm
  binary lhs rhs := by
    rw [firstBeyond_binary, Option.or_eq_none_iff]
  nil f := by
    simp [firstBeyond_eq_none_iff, liveIndices, liveIndicesOfList]
  cons f subs := by
    simp [firstBeyond_eq_none_iff, liveIndices, liveIndicesOfList, or_imp, forall_and]

end Readings

end Formula

namespace Trace

variable (s : Trace)

section Meaning

theorem connect_assoc
    (op : ListOp) (a b c : Bool) :
    connect op.toBinary (connect op.toBinary a b) c =
      connect op.toBinary a (connect op.toBinary b c) := by
  cases op with
  | or => exact Bool.or_assoc a b c
  | and => exact Bool.and_assoc a b c
  | equiv => cases a <;> cases b <;> cases c <;> rfl

theorem connect_comm
    (op : ListOp) (a b : Bool) :
    connect op.toBinary a b = connect op.toBinary b a := by
  cases op with
  | or => exact Bool.or_comm a b
  | and => exact Bool.and_comm a b
  | equiv => exact Bool.beq_comm

/-- A list is its first member, connected with the list of the others. -/
theorem holdsAt_list_cons
    (op : ListOp) (f : Formula) (subs : List Formula) (t : Nat) :
    s.holdsAt (.list op (f :: subs)) t =
      connect op.toBinary (s.holdsAt f t) (s.holdsAt (.list op subs) t) := by
  have associative : Std.Associative (connect op.toBinary) := ⟨connect_assoc op⟩
  rw [holdsAt_list, holdsAt_list, List.map_cons, List.foldl_cons, connect_comm, List.foldl_assoc]

theorem gathers_holdsAt
    (op : ListOp) (t : Nat) :
    Formula.Gathers op (s.holdsAt · t) (connect op.toBinary) where
  assoc := connect_assoc op
  comm := connect_comm op
  binary lhs rhs := s.holdsAt_binary lhs op.toBinary rhs t
  nil f := by
    rw [holdsAt_list, List.map_nil, List.foldl_nil, connect_comm, connect_unit]
  cons f subs := s.holdsAt_list_cons op f subs t

/-- A list of equivalences holds where an even number of its members does not. -/
theorem holdsAt_list_equiv_iff_even
    (subs : List Formula) (t : Nat) :
    s.holdsAt (.list .equiv subs) t = true ↔ Even (subs.countP fun sub => !s.holdsAt sub t) := by
  induction subs with
  | nil => simp [holdsAt_list_equiv]
  | cons f subs ih =>
      rw [holdsAt_list_cons, List.countP_cons, ListOp.toBinary, connect]
      cases hf : s.holdsAt f t with
      | true => simp [← ih]
      | false => simp [Nat.even_add_one, ← ih]

end Meaning

end Trace

/-- A list agrees with every bracketing of every permutation of its members. -/
theorem Formula.congruent_brackets
    {op : ListOp} {subs permuted : List Formula} {f : Formula} (hperm : permuted.Perm subs)
    (h : Brackets op permuted f) :
    Congruent (.list op subs) f where
  horizon := (gathers_horizon op).perm_brackets hperm h
  exactHorizon := (gathers_exactHorizon op).perm_brackets hperm h
  live vars := Iff.of_eq ((gathers_live op vars).perm_brackets hperm h)
  holds s t := (s.gathers_holdsAt op t).perm_brackets hperm h

end MissionTime

import MissionTime.Proofs.Validation

/-!
# Two negations

Negation turns an operator into its dual and a literal into its complement, and a second negation turns
these back. Equivalences and implications have no dual: negation writes them with other connectives, and
they do not come back. The formula gets lighter then, and no negation makes it heavier again. Canonical
normal forms do not depend on this, as they cancel negations in pairs before they negate.

**Definitions.**
* `Formula.lacksDual`: equivalences and implications;
* `NormalFormula.Dualizable`: normal formulas without such a connective.

**Results.**
* `NormalFormula.Dualizable.negated_negated`: the negation of a negation is the formula;
* `NormalFormula.weight_negated_lt`: the negation of any other formula is lighter than the formula;
* `NormalFormula.ofFormula_negations`: canonical normal forms under any number of negations;
* `NormalFormula.negated_negated_iff_and_ofFormula`: when two negations cancel.
-/

namespace MissionTime

namespace Formula

/-- The connectives that negation cannot turn into another connective of the same form. -/
def lacksDual : Formula → Bool
  | .binary _ .equiv _ => true
  | .binary _ .implies _ => true
  | .list .equiv _ => true
  | _ => false

theorem lacksDual_eq_false_iff
    {f : Formula} :
    f.lacksDual = false ↔ (∀ lhs rhs, f ≠ .binary lhs .equiv rhs) ∧
      (∀ lhs rhs, f ≠ .binary lhs .implies rhs) ∧ ∀ subs, f ≠ .list .equiv subs := by
  cases f with
  | binary lhs op rhs => cases op <;> simp [lacksDual]
  | list op subs => cases op <;> simp [lacksDual]
  | _ => simp [lacksDual]

theorem mem_subformulasOfList_iff
    {subs : List Formula} {f : Formula} :
    f ∈ subformulasOfList subs ↔ ∃ sub ∈ subs, f ∈ sub.subformulas := by
  induction subs with
  | nil => simp [subformulasOfList]
  | cons sub subs ih => simp [subformulasOfList, ih]

end Formula

namespace NormalFormula

variable {x lhs rhs : NormalFormula} {subs : List NormalFormula}

section Dualizable

/-- No equivalence and no implication occurs in the formula, at any depth. -/
def Dualizable (x : NormalFormula) : Prop :=
  ∀ sub ∈ x.toFormula.subformulas, sub.lacksDual = false

theorem dualizable_literal
    (l : Literal) :
    Dualizable (.literal l) := by
  intro sub hsub
  obtain rfl := List.mem_singleton.mp hsub
  rfl

theorem dualizable_unary_iff
    {op : UnaryOp} {int : Interval} :
    Dualizable (.unary op int x) ↔ x.Dualizable := by
  rw [Dualizable, toFormula, Formula.subformulas, List.forall_mem_cons]
  exact and_iff_right rfl

theorem dualizable_temporal_iff
    {op : TemporalOp} {int : Interval} :
    Dualizable (.temporal lhs op int rhs) ↔ lhs.Dualizable ∧ rhs.Dualizable := by
  rw [Dualizable, toFormula, Formula.subformulas, List.forall_mem_cons, List.forall_mem_append]
  exact and_iff_right rfl

theorem dualizable_binary_iff
    {op : BinaryOp} :
    Dualizable (.binary lhs op rhs) ↔
      (op = .or ∨ op = .and) ∧ lhs.Dualizable ∧ rhs.Dualizable := by
  have head : (Formula.binary lhs.toFormula op rhs.toFormula).lacksDual = false ↔
      op = .or ∨ op = .and := by
    cases op <;> simp [Formula.lacksDual]
  rw [Dualizable, toFormula, Formula.subformulas, List.forall_mem_cons, List.forall_mem_append, head]
  rfl

theorem dualizable_list_iff
    {op : ListOp} :
    Dualizable (.list op subs) ↔ (op = .or ∨ op = .and) ∧ ∀ sub ∈ subs, sub.Dualizable := by
  have head : (Formula.list op (subs.map toFormula)).lacksDual = false ↔ op = .or ∨ op = .and := by
    cases op <;> simp [Formula.lacksDual]
  have members : (∀ f ∈ Formula.subformulasOfList (subs.map toFormula), f.lacksDual = false) ↔
      ∀ sub ∈ subs, sub.Dualizable := by
    simp only [Formula.mem_subformulasOfList_iff, List.mem_map, Dualizable]
    constructor
    · exact fun h sub hsub f hf => h f ⟨_, ⟨sub, hsub, rfl⟩, hf⟩
    · rintro h f ⟨_, ⟨sub, hsub, rfl⟩, hf⟩
      exact h sub hsub f hf
  rw [Dualizable, toFormula, toFormulas_eq_map, Formula.subformulas, List.forall_mem_cons, head,
    members]

/-- Two negations of a formula without equivalences and implications give it back. -/
theorem Dualizable.negated_negated
    (h : x.Dualizable) :
    x.negated.negated = x := by
  induction x with
  | literal l => rw [negated, negated, Literal.complement_complement]
  | unary op int sub ih =>
      rw [negated, negated, UnaryOp.dual_dual, ih (dualizable_unary_iff.mp h)]
  | temporal lhs op int rhs ihl ihr =>
      obtain ⟨hl, hr⟩ := dualizable_temporal_iff.mp h
      rw [negated, negated, TemporalOp.dual_dual, ihl hl, ihr hr]
  | binary lhs op rhs ihl ihr =>
      obtain ⟨rfl | rfl, hl, hr⟩ := dualizable_binary_iff.mp h
      · rw [negated, negated, ihl hl, ihr hr]
      · rw [negated, negated, ihl hl, ihr hr]
  | list op subs ih =>
      obtain ⟨hop, hsubs⟩ := dualizable_list_iff.mp h
      have members : subs.map (negated ∘ negated) = subs :=
        (List.map_congr_left fun sub hsub => ih sub hsub (hsubs sub hsub)).trans (List.map_id subs)
      rcases hop with rfl | rfl
      · rw [negated, negated, List.map_map, members]
      · rw [negated, negated, List.map_map, members]

end Dualizable

section Weight

theorem joinWeight_lt_of_lt_left
    (op : BinaryOp) {l l' : Nat} (h : l < l') (r : Nat) :
    joinWeight op l r < joinWeight op l' r := by
  cases op <;> simp only [joinWeight] <;> omega

theorem joinWeight_lt_of_lt_right
    (op : BinaryOp) (l : Nat) {r r' : Nat} (h : r < r') :
    joinWeight op l r < joinWeight op l r' := by
  cases op <;> simp only [joinWeight] <;> omega

theorem weightOfList_strictMono
    (op : ListOp) (subs : List NormalFormula) {a b : Nat} (h : a < b) :
    weightOfList op a subs < weightOfList op b subs := by
  induction subs generalizing a b with
  | nil => simpa [weightOfList] using h
  | cons sub subs ih => exact ih (joinWeight_lt_of_lt_left op.toBinary h (weight sub))

/-- A change that makes no member heavier and one member lighter makes the list lighter. -/
theorem weightOfList_map_lt
    (op op' : ListOp) (hop : ∀ l r, joinWeight op'.toBinary l r = joinWeight op.toBinary l r)
    (change : NormalFormula → NormalFormula)
    (hle : ∀ sub ∈ subs, weight (change sub) ≤ weight sub)
    (hlt : ∃ sub ∈ subs, weight (change sub) < weight sub) (a : Nat) :
    weightOfList op' a (subs.map change) < weightOfList op a subs := by
  induction subs generalizing a with
  | nil =>
      obtain ⟨sub, hsub, -⟩ := hlt
      exact absurd hsub List.not_mem_nil
  | cons sub subs ih =>
      have tail : ∀ s ∈ subs, weight (change s) ≤ weight s :=
        fun s hs => hle s (List.mem_cons_of_mem sub hs)
      rw [List.map_cons, weightOfList, weightOfList, hop]
      obtain ⟨s, hs, hlighter⟩ := hlt
      rcases List.mem_cons.mp hs with rfl | hs
      · have head := joinWeight_lt_of_lt_right op.toBinary a hlighter
        calc weightOfList op' (joinWeight op.toBinary a (weight (change s))) (subs.map change)
            ≤ weightOfList op (joinWeight op.toBinary a (weight (change s))) subs :=
              weightOfList_map_le op op' hop change tail _
          _ < weightOfList op (joinWeight op.toBinary a (weight s)) subs :=
              weightOfList_strictMono op subs head
      · have head := joinWeight_mono op.toBinary (Nat.le_refl a) (hle sub List.mem_cons_self)
        calc weightOfList op' (joinWeight op.toBinary a (weight (change sub))) (subs.map change)
            < weightOfList op (joinWeight op.toBinary a (weight (change sub))) subs :=
              ih tail ⟨s, hs, hlighter⟩ _
          _ ≤ weightOfList op (joinWeight op.toBinary a (weight sub)) subs :=
              weightOfList_mono op subs head

theorem weight_list_negated_lt
    {op op' : ListOp} (hop : ∀ l r, joinWeight op'.toBinary l r = joinWeight op.toBinary l r)
    (ih : ∀ sub ∈ subs, ¬ sub.Dualizable → weight sub.negated < weight sub)
    (h : ∃ sub ∈ subs, ¬ sub.Dualizable) :
    weight (.list op' (subs.map negated)) < weight (.list op subs) := by
  obtain ⟨sub, hsub, hsubs⟩ := h
  have lighter := weightOfList_map_lt op op' hop negated (fun s _ => weight_negated_le s)
    ⟨sub, hsub, ih sub hsub hsubs⟩ 1
  simp only [weight]
  omega

/-- If negation makes each of two operands that are not dualizable lighter, it makes both together
lighter. -/
theorem weight_pair_negated_lt
    (ihl : ¬ lhs.Dualizable → weight lhs.negated < weight lhs)
    (ihr : ¬ rhs.Dualizable → weight rhs.negated < weight rhs)
    (h : ¬ (lhs.Dualizable ∧ rhs.Dualizable)) :
    weight lhs.negated + weight rhs.negated < weight lhs + weight rhs := by
  rcases not_and_or.mp h with hl | hr
  · exact Nat.add_lt_add_of_lt_of_le (ihl hl) (weight_negated_le rhs)
  · exact Nat.add_lt_add_of_le_of_lt (weight_negated_le lhs) (ihr hr)

/-- Where an equivalence or an implication is written with other connectives, the formula gets lighter. -/
theorem weight_negated_lt
    (h : ¬ x.Dualizable) :
    weight x.negated < weight x := by
  fun_induction negated x with
  | case1 l => exact absurd (dualizable_literal l) h
  | case2 op int sub ih =>
      have lighter := ih (mt dualizable_unary_iff.mpr h)
      simp only [weight]
      omega
  | case3 lhs op int rhs ihl ihr =>
      have lighter := weight_pair_negated_lt ihl ihr (mt dualizable_temporal_iff.mpr h)
      simp only [weight]
      omega
  | case4 lhs rhs ihl ihr =>
      have operands := fun both => h (dualizable_binary_iff.mpr ⟨.inl rfl, both⟩)
      have lighter := weight_pair_negated_lt ihl ihr operands
      simp only [weight, joinWeight]
      omega
  | case5 lhs rhs ihl ihr =>
      have operands := fun both => h (dualizable_binary_iff.mpr ⟨.inr rfl, both⟩)
      have lighter := weight_pair_negated_lt ihl ihr operands
      simp only [weight, joinWeight]
      omega
  | case6 lhs rhs _ _ =>
      have left := weight_negated_le lhs
      have right := weight_negated_le rhs
      simp only [weight, joinWeight]
      omega
  | case7 lhs rhs _ =>
      have right := weight_negated_le rhs
      simp only [weight, joinWeight]
      omega
  | case8 subs ih =>
      refine weight_list_negated_lt (fun _ _ => rfl) ih ?_
      by_contra hsubs
      push Not at hsubs
      exact h (dualizable_list_iff.mpr ⟨.inl rfl, hsubs⟩)
  | case9 subs ih =>
      refine weight_list_negated_lt (fun _ _ => rfl) ih ?_
      by_contra hsubs
      push Not at hsubs
      exact h (dualizable_list_iff.mpr ⟨.inr rfl, hsubs⟩)
  | case10 subs _ =>
      exact Nat.lt_of_le_of_lt (weight_negated_le _) (weight_fold_lt .equiv subs)

/-- Two negations cancel exactly in the formulas without equivalences and implications. -/
theorem negated_negated_iff
    (x : NormalFormula) :
    x.negated.negated = x ↔ x.Dualizable := by
  constructor
  · intro hx
    by_contra h
    have lighter := Nat.lt_of_le_of_lt (weight_negated_le x.negated) (weight_negated_lt h)
    rw [hx] at lighter
    exact Nat.lt_irrefl _ lighter
  · exact Dualizable.negated_negated

end Weight

section Canonical

variable {f : Formula}

theorem ofFormula_neg
    (h : ∀ sub, f ≠ .neg sub) :
    ofFormula (.neg f) = (ofFormula f).negated := by
  rw [ofFormula]
  exact fun sub hsub => h sub hsub

/-- Negations in front of a formula cancel in pairs in its canonical normal form. -/
theorem ofFormula_negations
    (h : ∀ sub, f ≠ .neg sub) (k : Nat) :
    ofFormula (Formula.neg^[k] f) = if Even k then ofFormula f else (ofFormula f).negated := by
  induction k using Nat.twoStepInduction with
  | zero => rfl
  | one => exact ofFormula_neg h
  | more k ih _ =>
      have parity : Even (k + 2) ↔ Even k := by simp [Nat.even_add]
      rw [Function.iterate_succ_apply', Function.iterate_succ_apply', ofFormula, ih]
      exact if_congr parity.symm rfl rfl

/-- When negations cancel. The negation of the negation of a normal formula is the formula itself exactly
if it has no equivalence and no implication, neither between two formulas nor in front of a list, at any
depth. Canonical normal forms do not depend on it: with any number of negations before a formula that is
no negation itself, its normal form is that of the formula or the negation of it, by the parity of the
number. -/
theorem negated_negated_iff_and_ofFormula
    (x : NormalFormula) (f : Formula) :
    (x.negated.negated = x ↔
        ∀ sub ∈ x.toFormula.subformulas, (∀ l r, sub ≠ .binary l .equiv r) ∧
          (∀ l r, sub ≠ .binary l .implies r) ∧ ∀ subs, sub ≠ .list .equiv subs) ∧
      ((∀ sub, f ≠ .neg sub) → ∀ k,
        ofFormula (Formula.neg^[k] f) = if Even k then ofFormula f else (ofFormula f).negated) := by
  refine ⟨?_, ofFormula_negations⟩
  rw [negated_negated_iff]
  exact forall₂_congr fun sub _ => Formula.lacksDual_eq_false_iff

/-- `((p0v(&[]))U[2,1]F[0,3]p1)`: one interval is vacuous, and the list is empty. -/
def dualFormula : NormalFormula :=
  .temporal (.binary (.var 0) .or (.list .and [])) .until ⟨2, 1⟩ (.unary .eventually ⟨0, 3⟩ (.var 1))

/-- The formula without equivalences and implications comes back after two negations, and `(=[p0])` does
not. Three negations of `(p0>p1)` leave one. -/
theorem negated_negated_iff_and_ofFormula_dualFormula :
    dualFormula.negated.negated = dualFormula ∧
      (NormalFormula.list .equiv [.var 0]).negated.negated ≠ .list .equiv [.var 0] ∧
      ofFormula (.neg (.neg (.neg (.binary (.var 0) .implies (.var 1))))) =
        (ofFormula (.binary (.var 0) .implies (.var 1))).negated := by
  have cancels := negated_negated_iff_and_ofFormula dualFormula (.binary (.var 0) .implies (.var 1))
  refine ⟨cancels.1.mpr ?_, fun hcancel => ?_, cancels.2 nofun 3⟩
  · simp [dualFormula, toFormula, Formula.subformulas, Formula.subformulasOfList, NormalFormula.var]
  · have free := (negated_negated_iff_and_ofFormula (.list .equiv [.var 0]) (.var 0)).1.mp hcancel
    exact (free _ List.mem_cons_self).2.2 _ rfl

end Canonical

end NormalFormula

end MissionTime

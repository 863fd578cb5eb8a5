import MissionTime.Formula.Order

/-!
# Formulas in negation normal form

Formulas whose negations stand inside literals only.

**Definitions.**
* `NormalFormula` and its embedding `NormalFormula.toFormula`;
* `NormalFormula.fold`, which turns a list into nested connectives, bracketed to the left;
* `NormalFormula.weight`, the measure that negation, folding and expansion lower;
* `NormalFormula.negated`, the negation pushed down to the literals.

**Results.**
* `NormalFormula.toFormula_injective`;
* `NormalFormula.weight_fold_lt`: folding a list makes it lighter;
* `NormalFormula.weight_negated_le`: negation makes no formula heavier.
-/

namespace MissionTime

/-- A formula in negation normal form: only literals carry a negation. -/
inductive NormalFormula
  | literal (l : Literal)
  | unary (op : UnaryOp) (int : Interval) (sub : NormalFormula)
  | temporal (lhs : NormalFormula) (op : TemporalOp) (int : Interval) (rhs : NormalFormula)
  | binary (lhs : NormalFormula) (op : BinaryOp) (rhs : NormalFormula)
  | list (op : ListOp) (subs : List NormalFormula)
deriving Repr

namespace NormalFormula

/-- The variable of the given index. -/
def var (index : Nat) : NormalFormula :=
  .literal (.var ⟨index, false⟩)

instance : Inhabited NormalFormula :=
  ⟨.literal .top⟩

/-- Induction on normal formulas with one hypothesis for every member of a list. -/
@[elab_as_elim, induction_eliminator]
theorem induct
    {motive : NormalFormula → Prop}
    (literal : ∀ l, motive (.literal l))
    (unary : ∀ op int sub, motive sub → motive (.unary op int sub))
    (temporal : ∀ lhs op int rhs, motive lhs → motive rhs →
      motive (.temporal lhs op int rhs))
    (binary : ∀ lhs op rhs, motive lhs → motive rhs → motive (.binary lhs op rhs))
    (list : ∀ op subs, (∀ sub ∈ subs, motive sub) → motive (.list op subs))
    (x : NormalFormula) :
    motive x :=
  @NormalFormula.rec motive (fun subs => ∀ sub ∈ subs, motive sub)
    literal unary temporal binary list
    (by simp)
    (fun _ _ head tail => by simpa using ⟨head, tail⟩)
    x

/-- Whether the formula is a constant or a variable. -/
def isLiteral : NormalFormula → Bool
  | .literal _ => true
  | _ => false

section Embedding

mutual

/-- The same formula among all formulas. -/
def toFormula : NormalFormula → Formula
  | .literal l => .literal l
  | .unary op int sub => .unary op int (toFormula sub)
  | .temporal lhs op int rhs => .temporal (toFormula lhs) op int (toFormula rhs)
  | .binary lhs op rhs => .binary (toFormula lhs) op (toFormula rhs)
  | .list op subs => .list op (toFormulas subs)

/-- The same formulas among all formulas. -/
def toFormulas : List NormalFormula → List Formula
  | [] => []
  | sub :: subs => toFormula sub :: toFormulas subs

end

@[simp] theorem toFormulas_eq_map
    (subs : List NormalFormula) :
    toFormulas subs = subs.map toFormula := by
  induction subs with
  | nil => rfl
  | cons sub subs ih => simp [toFormulas, ih]

/-- Different normal formulas are different formulas. -/
theorem toFormula_injective
    {x y : NormalFormula} (h : x.toFormula = y.toFormula) :
    x = y := by
  induction x generalizing y with
  | literal l =>
      cases y <;> simp_all [toFormula]
  | unary op int sub ih =>
      cases y with
      | unary op' int' sub' =>
          simp only [toFormula, Formula.unary.injEq] at h
          rw [h.1, h.2.1, ih h.2.2]
      | _ => simp [toFormula] at h
  | temporal lhs op int rhs ihl ihr =>
      cases y with
      | temporal lhs' op' int' rhs' =>
          simp only [toFormula, Formula.temporal.injEq] at h
          rw [ihl h.1, h.2.1, h.2.2.1, ihr h.2.2.2]
      | _ => simp [toFormula] at h
  | binary lhs op rhs ihl ihr =>
      cases y with
      | binary lhs' op' rhs' =>
          simp only [toFormula, Formula.binary.injEq] at h
          rw [ihl h.1, h.2.1, ihr h.2.2]
      | _ => simp [toFormula] at h
  | list op subs ih =>
      cases y with
      | list op' subs' =>
          simp only [toFormula, toFormulas_eq_map, Formula.list.injEq] at h
          obtain ⟨rfl, hs⟩ := h
          congr 1
          induction subs generalizing subs' with
          | nil => simpa [eq_comm] using hs
          | cons sub subs ihs =>
              cases subs' with
              | nil => simp at hs
              | cons sub' subs' =>
                  simp only [List.map_cons, List.cons.injEq] at hs
                  rw [ih sub List.mem_cons_self hs.1,
                    ihs (fun s m => ih s (List.mem_cons_of_mem _ m)) subs' hs.2]
      | _ => simp [toFormula] at h

instance : DecidableEq NormalFormula :=
  fun x y => decidable_of_iff (x.toFormula = y.toFormula)
    ⟨toFormula_injective, fun h => h ▸ rfl⟩

/-- Ordered as the formulas they are. -/
instance : Ord NormalFormula :=
  ⟨fun x y => compare x.toFormula y.toFormula⟩

end Embedding

section Fold

/-- Nested connectives for a list, bracketed to the left: `(∘[a,b,c])` gives `((a∘b)∘c)`. -/
def fold (op : ListOp) : List NormalFormula → NormalFormula
  | [] => .literal op.unit
  | first :: rest => rest.foldl (fun acc sub => .binary acc op.toBinary sub) first

@[simp] theorem fold_nil
    (op : ListOp) :
    fold op [] = .literal op.unit := by
  rfl

@[simp] theorem fold_singleton
    (op : ListOp) (x : NormalFormula) :
    fold op [x] = x := by
  rfl

theorem fold_concat
    (op : ListOp) {xs : List NormalFormula} (h : xs ≠ []) (x : NormalFormula) :
    fold op (xs ++ [x]) = .binary (fold op xs) op.toBinary x := by
  cases xs with
  | nil => exact absurd rfl h
  | cons first rest => simp [fold]

end Fold

section Weight

/-- Weight of a binary connective, from the weights of its operands. An equivalence stands for
two conjunctions of its operands and their negations, and an implication for one disjunction. -/
def joinWeight (op : BinaryOp) (l r : Nat) : Nat :=
  match op with
  | .or => l + r + 1
  | .and => l + r + 1
  | .implies => l + r + 2
  | .equiv => 2 * (l + r) + 4

mutual

/-- The measure that negation, folding and the expansion of connectives lower. -/
def weight : NormalFormula → Nat
  | .literal _ => 1
  | .unary _ _ sub => weight sub + 1
  | .temporal lhs _ _ rhs => weight lhs + weight rhs + 1
  | .binary lhs op rhs => joinWeight op (weight lhs) (weight rhs)
  | .list op subs => 1 + weightOfList op 1 subs

/-- The weight of a list below its connective, on top of what is already weighed. -/
def weightOfList (op : ListOp) (weighed : Nat) : List NormalFormula → Nat
  | [] => weighed
  | sub :: subs => weightOfList op (joinWeight op.toBinary weighed (weight sub)) subs

end

theorem joinWeight_lt_left
    (op : BinaryOp) (l r : Nat) :
    l < joinWeight op l r := by
  cases op <;> simp only [joinWeight] <;> omega

theorem joinWeight_lt_right
    (op : BinaryOp) (l r : Nat) :
    r < joinWeight op l r := by
  cases op <;> simp only [joinWeight] <;> omega

theorem joinWeight_mono
    (op : BinaryOp) {l l' r r' : Nat} (hl : l ≤ l') (hr : r ≤ r') :
    joinWeight op l r ≤ joinWeight op l' r' := by
  cases op <;> simp only [joinWeight] <;> omega

theorem weightOfList_mono
    (op : ListOp) (subs : List NormalFormula) {a b : Nat} (h : a ≤ b) :
    weightOfList op a subs ≤ weightOfList op b subs := by
  induction subs generalizing a b with
  | nil => simpa [weightOfList] using h
  | cons sub subs ih => exact ih (joinWeight_mono _ h (Nat.le_refl _))

theorem le_weightOfList
    (op : ListOp) (subs : List NormalFormula) (a : Nat) :
    a ≤ weightOfList op a subs := by
  induction subs generalizing a with
  | nil => simp [weightOfList]
  | cons sub subs ih =>
      exact Nat.le_trans (Nat.le_of_lt (joinWeight_lt_left _ _ _)) (ih _)

theorem weight_lt_weightOfList
    (op : ListOp) {subs : List NormalFormula} {sub : NormalFormula} (h : sub ∈ subs) (a : Nat) :
    weight sub < weightOfList op a subs := by
  induction subs generalizing a with
  | nil => simp at h
  | cons first rest ih =>
      cases h with
      | head =>
          exact Nat.lt_of_lt_of_le (joinWeight_lt_right _ _ _) (le_weightOfList _ _ _)
      | tail _ h => exact ih h _

theorem weight_foldl
    (op : ListOp) (subs : List NormalFormula) (acc : NormalFormula) :
    weight (subs.foldl (fun acc sub => .binary acc op.toBinary sub) acc) =
      weightOfList op (weight acc) subs := by
  induction subs generalizing acc with
  | nil => rfl
  | cons sub subs ih => simp [ih, weight, weightOfList]

/-- Folding a list makes it lighter. -/
theorem weight_fold_lt
    (op : ListOp) (subs : List NormalFormula) :
    weight (fold op subs) < weight (.list op subs) := by
  cases subs with
  | nil => simp [fold, weight, weightOfList]
  | cons first rest =>
      have step := weightOfList_mono op rest
        (Nat.le_of_lt (joinWeight_lt_right op.toBinary 1 (weight first)))
      simp only [fold, weight_foldl, weight, weightOfList]
      omega

theorem weight_lt_of_mem
    (op : ListOp) {subs : List NormalFormula} {sub : NormalFormula} (h : sub ∈ subs) :
    weight sub < weight (.list op subs) := by
  have := weight_lt_weightOfList op h 1
  simp only [weight]
  omega

end Weight

section Negation

/-- The negation, pushed down to the literals. An equivalence becomes a conjunction of two
disjunctions, an implication keeps its left side, and a list of equivalences is folded first. -/
def negated : NormalFormula → NormalFormula
  | .literal l => .literal l.complement
  | .unary op int sub => .unary op.dual int sub.negated
  | .temporal lhs op int rhs => .temporal lhs.negated op.dual int rhs.negated
  | .binary lhs .or rhs => .binary lhs.negated .and rhs.negated
  | .binary lhs .and rhs => .binary lhs.negated .or rhs.negated
  | .binary lhs .equiv rhs =>
    .binary (.binary lhs .or rhs) .and (.binary lhs.negated .or rhs.negated)
  | .binary lhs .implies rhs => .binary lhs .and rhs.negated
  | .list .or subs => .list .and (subs.map negated)
  | .list .and subs => .list .or (subs.map negated)
  | .list .equiv subs => (fold .equiv subs).negated
termination_by x => x.weight
decreasing_by
  all_goals simp only [weight, joinWeight]
  all_goals first
    | omega
    | exact weight_lt_of_mem _ (by assumption)
    | exact weight_fold_lt _ _

theorem weightOfList_map_le
    (op op' : ListOp) (hop : ∀ l r, joinWeight op'.toBinary l r = joinWeight op.toBinary l r)
    (change : NormalFormula → NormalFormula)
    {subs : List NormalFormula} (h : ∀ sub ∈ subs, weight (change sub) ≤ weight sub) (a : Nat) :
    weightOfList op' a (subs.map change) ≤ weightOfList op a subs := by
  induction subs generalizing a with
  | nil => simp [weightOfList]
  | cons sub subs ih =>
      have tail := ih (fun s hs => h s (List.mem_cons_of_mem _ hs))
      have head := joinWeight_mono op.toBinary (Nat.le_refl a) (h sub List.mem_cons_self)
      simp only [List.map_cons, weightOfList, hop]
      exact Nat.le_trans (tail _) (weightOfList_mono op subs head)

/-- Negation makes no formula heavier. -/
theorem weight_negated_le
    (x : NormalFormula) :
    weight x.negated ≤ weight x := by
  fun_induction negated x with
  | case1 l => simp [weight]
  | case2 op int sub ih => simp only [weight]; omega
  | case3 lhs op int rhs ihl ihr => simp only [weight]; omega
  | case4 lhs rhs ihl ihr => simp only [weight, joinWeight]; omega
  | case5 lhs rhs ihl ihr => simp only [weight, joinWeight]; omega
  | case6 lhs rhs ihl ihr => simp only [weight, joinWeight]; omega
  | case7 lhs rhs ih => simp only [weight, joinWeight]; omega
  | case8 subs ih =>
      have := weightOfList_map_le .or .and (fun _ _ => rfl) negated ih 1
      simp only [weight]
      omega
  | case9 subs ih =>
      have := weightOfList_map_le .and .or (fun _ _ => rfl) negated ih 1
      simp only [weight]
      omega
  | case10 subs ih => exact Nat.le_trans ih (Nat.le_of_lt (weight_fold_lt _ _))

end Negation

end NormalFormula

end MissionTime

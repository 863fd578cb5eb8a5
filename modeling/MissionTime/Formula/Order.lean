import MissionTime.Formula.Basic

/-!
# The order of formulas

Formulas are ordered by their outermost form (literals, negations, one-operand operators,
two-operand operators, connectives, lists), then by the parts of that form from left to right. A
list comes before its extensions.

**Definitions.**
* `Formula.order`, the comparison, and the instances it gives.

**Results.**
* `Formula.order_eq_iff`: only equal formulas are level, so equality of formulas is decidable.
-/

namespace MissionTime

/-- The index decides first; a variable comes before its complement. -/
instance : Ord Variable :=
  ⟨fun a b => (compare a.index b.index).then (compare a.negated b.negated)⟩

/-- Place of the literal's form in the order. -/
def Literal.rank : Literal → Nat
  | .top => 0
  | .bot => 1
  | .var _ => 2

/-- True, false, then the variables. -/
def Literal.order : Literal → Literal → Ordering
  | .var a, .var b => compare a b
  | a, b => compare a.rank b.rank

instance : Ord Literal :=
  ⟨Literal.order⟩

/-- Place of the operator in the order. -/
def UnaryOp.rank : UnaryOp → Nat
  | .eventually => 0
  | .always => 1

/-- Place of the operator in the order. -/
def TemporalOp.rank : TemporalOp → Nat
  | .until => 0
  | .release => 1

/-- Place of the connective in the order. -/
def BinaryOp.rank : BinaryOp → Nat
  | .or => 0
  | .and => 1
  | .equiv => 2
  | .implies => 3

/-- Place of the connective in the order. -/
def ListOp.rank : ListOp → Nat
  | .or => 0
  | .and => 1
  | .equiv => 2

instance : Ord UnaryOp :=
  ⟨fun a b => compare a.rank b.rank⟩

instance : Ord TemporalOp :=
  ⟨fun a b => compare a.rank b.rank⟩

instance : Ord BinaryOp :=
  ⟨fun a b => compare a.rank b.rank⟩

instance : Ord ListOp :=
  ⟨fun a b => compare a.rank b.rank⟩

theorem Variable.compare_eq_iff
    {a b : Variable} :
    compare a b = .eq ↔ a = b := by
  obtain ⟨i, s⟩ := a
  obtain ⟨j, t⟩ := b
  change Ordering.then _ _ = .eq ↔ _
  have flags : ∀ s t : Bool, compare s t = .eq ↔ s = t := by decide
  rw [Ordering.then_eq_eq, Nat.compare_eq_eq, flags, mk.injEq]

theorem Literal.compare_eq_iff
    {a b : Literal} :
    compare a b = .eq ↔ a = b := by
  change order a b = .eq ↔ a = b
  cases a <;> cases b <;> simp [order, rank, Variable.compare_eq_iff]

theorem UnaryOp.compare_eq_iff
    {a b : UnaryOp} :
    compare a b = .eq ↔ a = b := by
  cases a <;> cases b <;> decide

theorem TemporalOp.compare_eq_iff
    {a b : TemporalOp} :
    compare a b = .eq ↔ a = b := by
  cases a <;> cases b <;> decide

theorem BinaryOp.compare_eq_iff
    {a b : BinaryOp} :
    compare a b = .eq ↔ a = b := by
  cases a <;> cases b <;> decide

theorem ListOp.compare_eq_iff
    {a b : ListOp} :
    compare a b = .eq ↔ a = b := by
  cases a <;> cases b <;> decide

namespace Formula

/-- Place of the outermost form in the order. -/
def rank : Formula → Nat
  | .literal _ => 0
  | .neg _ => 1
  | .unary .. => 2
  | .temporal .. => 3
  | .binary .. => 4
  | .list .. => 5

mutual

/-- The outermost forms decide first, then their parts from left to right. -/
def order : Formula → Formula → Ordering
  | .literal a, .literal b => compare a b
  | .neg a, .neg b => order a b
  | .unary o i a, .unary o' i' b => (compare o o').then ((compare i i').then (order a b))
  | .temporal a o i c, .temporal b o' i' d =>
    (order a b).then ((compare o o').then ((compare i i').then (order c d)))
  | .binary a o c, .binary b o' d => (order a b).then ((compare o o').then (order c d))
  | .list o as, .list o' bs => (compare o o').then (orderOfList as bs)
  | a, b => compare a.rank b.rank

/-- The first differing members decide; a list comes before its extensions. -/
def orderOfList : List Formula → List Formula → Ordering
  | [], [] => .eq
  | [], _ :: _ => .lt
  | _ :: _, [] => .gt
  | a :: as, b :: bs => (order a b).then (orderOfList as bs)

end

theorem orderOfList_eq_iff
    {as : List Formula} (h : ∀ a ∈ as, ∀ b, order a b = .eq ↔ a = b) (bs : List Formula) :
    orderOfList as bs = .eq ↔ as = bs := by
  induction as generalizing bs with
  | nil => cases bs <;> simp [orderOfList]
  | cons a as ih =>
      cases bs with
      | nil => simp [orderOfList]
      | cons b bs =>
          have tail := ih (fun x hx => h x (List.mem_cons_of_mem a hx)) bs
          simp [orderOfList, Ordering.then_eq_eq, h a List.mem_cons_self b, tail]

/-- Only equal formulas are level. -/
theorem order_eq_iff
    (a b : Formula) :
    order a b = .eq ↔ a = b := by
  induction a generalizing b with
  | literal l =>
      cases b <;> simp [order, rank, Literal.compare_eq_iff]
  | neg sub ih =>
      cases b <;> simp [order, rank, ih]
  | unary op int sub ih =>
      cases b <;>
        simp [order, rank, ih, Ordering.then_eq_eq,
          UnaryOp.compare_eq_iff, Interval.compare_eq_iff]
  | temporal lhs op int rhs ihl ihr =>
      cases b <;>
        simp [order, rank, ihl, ihr, Ordering.then_eq_eq,
          TemporalOp.compare_eq_iff, Interval.compare_eq_iff]
  | binary lhs op rhs ihl ihr =>
      cases b <;>
        simp [order, rank, ihl, ihr, Ordering.then_eq_eq,
          BinaryOp.compare_eq_iff]
  | list op subs ih =>
      cases b <;>
        simp [order, rank, Ordering.then_eq_eq,
          ListOp.compare_eq_iff, orderOfList_eq_iff ih]

instance : Ord Formula :=
  ⟨order⟩

instance : DecidableEq Formula :=
  fun a b => decidable_of_iff (order a b = .eq) (order_eq_iff a b)

end Formula

end MissionTime

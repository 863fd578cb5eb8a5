import MissionTime.Interval

/-!
# Formulas

Mission-time temporal formulas over propositional variables `p0`, `p1`, …: constants, negation,
operators over bounded intervals, and the propositional connectives in binary and in list form.

**Definitions.**
* `Variable`, `Literal` and the four kinds of operators, each with its symbol;
* `Formula`, in which negation may stand anywhere.

**Results.**
* `Formula.induct`: induction with one hypothesis for every member of a list;
* `Formula.induct_members`: induction that takes the members off a list one by one.
-/

namespace MissionTime

/-- A propositional variable, read as its complement when `negated`. -/
structure Variable where
  index : Nat
  negated : Bool
deriving DecidableEq, Repr

/-- The same variable read the other way. -/
def Variable.flip (var : Variable) : Variable :=
  ⟨var.index, !var.negated⟩

@[simp] theorem Variable.flip_flip
    (var : Variable) :
    var.flip.flip = var := by
  simp [Variable.flip]

/-- The constants and the variables. -/
inductive Literal
  | top
  | bot
  | var (x : Variable)
deriving DecidableEq, Repr

/-- The complement of a literal. -/
def Literal.complement : Literal → Literal
  | .top => .bot
  | .bot => .top
  | .var x => .var x.flip

@[simp] theorem Literal.complement_complement
    (literal : Literal) :
    literal.complement.complement = literal := by
  cases literal <;> simp [Literal.complement]

/-- The temporal operators on one formula. -/
inductive UnaryOp
  | eventually
  | always
deriving DecidableEq, Repr

/-- The temporal operators on two formulas. -/
inductive TemporalOp
  | until
  | release
deriving DecidableEq, Repr

/-- The propositional connectives between two formulas. -/
inductive BinaryOp
  | or
  | and
  | equiv
  | implies
deriving DecidableEq, Repr

/-- The propositional connectives in front of a list. -/
inductive ListOp
  | or
  | and
  | equiv
deriving DecidableEq, Repr

/-- The operator that a negation turns this one into. -/
def UnaryOp.dual : UnaryOp → UnaryOp
  | .eventually => .always
  | .always => .eventually

/-- The operator that a negation turns this one into. -/
def TemporalOp.dual : TemporalOp → TemporalOp
  | .until => .release
  | .release => .until

@[simp] theorem UnaryOp.dual_dual
    (op : UnaryOp) :
    op.dual.dual = op := by
  cases op <;> rfl

@[simp] theorem TemporalOp.dual_dual
    (op : TemporalOp) :
    op.dual.dual = op := by
  cases op <;> rfl

/-- The connective that a list repeats between its members. -/
def ListOp.toBinary : ListOp → BinaryOp
  | .or => .or
  | .and => .and
  | .equiv => .equiv

/-- The symbol of the operator. -/
def UnaryOp.symbol : UnaryOp → Char
  | .eventually => 'F'
  | .always => 'G'

/-- The symbol of the operator. -/
def TemporalOp.symbol : TemporalOp → Char
  | .until => 'U'
  | .release => 'R'

/-- The symbol of the connective. -/
def BinaryOp.symbol : BinaryOp → Char
  | .or => 'v'
  | .and => '&'
  | .equiv => '='
  | .implies => '>'

/-- The symbol of the connective. -/
def ListOp.symbol (op : ListOp) : Char :=
  op.toBinary.symbol

/-- The value of a list without members. -/
def ListOp.unit : ListOp → Literal
  | .or => .bot
  | .and => .top
  | .equiv => .top

/-- A well-formed formula; negation may stand anywhere. -/
inductive Formula
  | literal (l : Literal)
  | neg (sub : Formula)
  | unary (op : UnaryOp) (int : Interval) (sub : Formula)
  | temporal (lhs : Formula) (op : TemporalOp) (int : Interval) (rhs : Formula)
  | binary (lhs : Formula) (op : BinaryOp) (rhs : Formula)
  | list (op : ListOp) (subs : List Formula)
deriving Repr

namespace Formula

/-- The variable of the given index. -/
def var (index : Nat) : Formula :=
  .literal (.var ⟨index, false⟩)

instance : Inhabited Formula :=
  ⟨.literal .top⟩

/-- Induction on formulas with one hypothesis for every member of a list. -/
@[elab_as_elim, induction_eliminator]
theorem induct
    {motive : Formula → Prop}
    (literal : ∀ l, motive (.literal l))
    (neg : ∀ sub, motive sub → motive (.neg sub))
    (unary : ∀ op int sub, motive sub → motive (.unary op int sub))
    (temporal : ∀ lhs op int rhs, motive lhs → motive rhs →
      motive (.temporal lhs op int rhs))
    (binary : ∀ lhs op rhs, motive lhs → motive rhs → motive (.binary lhs op rhs))
    (list : ∀ op subs, (∀ sub ∈ subs, motive sub) → motive (.list op subs))
    (f : Formula) :
    motive f :=
  @Formula.rec motive (fun subs => ∀ sub ∈ subs, motive sub)
    literal neg unary temporal binary list
    (by simp)
    (fun _ _ head tail => by simpa using ⟨head, tail⟩)
    f

/-- Induction on formulas that takes the members off a list one by one. -/
theorem induct_members
    {motive : Formula → Prop}
    (literal : ∀ l, motive (.literal l))
    (neg : ∀ sub, motive sub → motive (.neg sub))
    (unary : ∀ op int sub, motive sub → motive (.unary op int sub))
    (temporal : ∀ lhs op int rhs, motive lhs → motive rhs →
      motive (.temporal lhs op int rhs))
    (binary : ∀ lhs op rhs, motive lhs → motive rhs → motive (.binary lhs op rhs))
    (nil : ∀ op, motive (.list op []))
    (cons : ∀ op sub subs, motive sub → motive (.list op subs) → motive (.list op (sub :: subs)))
    (f : Formula) :
    motive f := by
  induction f with
  | literal l => exact literal l
  | neg sub ih => exact neg sub ih
  | unary op int sub ih => exact unary op int sub ih
  | temporal lhs op int rhs ihl ihr => exact temporal lhs op int rhs ihl ihr
  | binary lhs op rhs ihl ihr => exact binary lhs op rhs ihl ihr
  | list op subs ih =>
      induction subs with
      | nil => exact nil op
      | cons sub subs ihs =>
          have head := ih sub List.mem_cons_self
          have tail := ihs fun x hx => ih x (List.mem_cons_of_mem sub hx)
          exact cons op sub subs head tail

end Formula

end MissionTime

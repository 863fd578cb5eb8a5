import MissionTime.Error
import MissionTime.Formula.Horizon
import MissionTime.NormalFormula.Basic

/-!
# Canonical negation normal forms

Two ways from formulas to negation normal form: pushing every negation inward, and accepting a
formula that is in normal form as it stands.

**Definitions.**
* `NormalFormula.ofFormula`: two negations in a row cancel, a single one is pushed inward;
* `NormalFormula.validate`: a negation must stand right before a variable.
-/

namespace MissionTime

namespace NormalFormula

mutual

/-- The normal form of a formula. -/
def ofFormula : Formula → NormalFormula
  | .literal l => .literal l
  | .neg (.neg sub) => ofFormula sub
  | .neg sub => (ofFormula sub).negated
  | .unary op int sub => .unary op int (ofFormula sub)
  | .temporal lhs op int rhs => .temporal (ofFormula lhs) op int (ofFormula rhs)
  | .binary lhs op rhs => .binary (ofFormula lhs) op (ofFormula rhs)
  | .list op subs => .list op (ofFormulas subs)

/-- The normal forms of the members of a list. -/
def ofFormulas : List Formula → List NormalFormula
  | [] => []
  | sub :: subs => ofFormula sub :: ofFormulas subs

end

@[simp] theorem ofFormulas_eq_map
    (subs : List Formula) :
    ofFormulas subs = subs.map ofFormula := by
  induction subs with
  | nil => rfl
  | cons sub subs ih => simp [ofFormulas, ih]

mutual

/-- Accepts a formula whose negations stand right before variables. The leftmost other negation is
reported. -/
def validate : Formula → Except Error NormalFormula
  | .literal l => .ok (.literal l)
  | .neg (.literal (.var x)) => .ok (.literal (.var x.flip))
  | .neg sub => .error (.notNormal (.neg sub))
  | .unary op int sub => do
    let sub ← validate sub
    return .unary op int sub
  | .temporal lhs op int rhs => do
    let lhs ← validate lhs
    let rhs ← validate rhs
    return .temporal lhs op int rhs
  | .binary lhs op rhs => do
    let lhs ← validate lhs
    let rhs ← validate rhs
    return .binary lhs op rhs
  | .list op subs => do
    let subs ← validateList subs
    return .list op subs

/-- Accepts the members of a list from left to right. -/
def validateList : List Formula → Except Error (List NormalFormula)
  | [] => .ok []
  | sub :: subs => do
    let sub ← validate sub
    let subs ← validateList subs
    return sub :: subs

end

/-- The written form. -/
def text (x : NormalFormula) : String :=
  x.toFormula.text

/-- Number of steps that decide the formula; it stops at `largest`. -/
def horizon (x : NormalFormula) : Nat :=
  x.toFormula.horizon

/-- The tree of operators. -/
def outline (x : NormalFormula) : Outline :=
  x.toFormula.outline

end NormalFormula

end MissionTime

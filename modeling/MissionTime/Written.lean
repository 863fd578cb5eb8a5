import MissionTime.Denotation.Engine
import MissionTime.Grammar.Production

/-!
# Written formulas

The capabilities of the library on texts: two questions, and three answers that fail on texts that
are no formulas.

**Definitions.**
* `Written.isFormula` and `Written.isNormal`;
* `Written.normalForm`, `Written.horizon` and `Written.denotation`.
-/

namespace MissionTime

namespace Written

/-- Whether the text is a formula. -/
def isFormula (text : String) : Bool :=
  Production.formula.recognizes text

/-- Whether the text is a formula whose negations stand right before variables. -/
def isNormal (text : String) : Bool :=
  Production.normal.recognizes text

/-- The written normal form of a written formula. -/
def normalForm (text : String) : Except Error String := do
  let f ← Formula.ofText text
  return (NormalFormula.ofFormula f).text

/-- Number of steps that decide a written formula. -/
def horizon (text : String) : Except Error Nat := do
  let f ← Formula.ofText text
  return f.horizon

/-- The written patterns of a written formula in normal form, over some variables. -/
def denotation (a : Arithmetic) (text : String) (vars : Nat) : Except Error (List String) := do
  let f ← Formula.ofText text
  let x ← NormalFormula.validate f
  let c ← Engine.denote a ⟨vars, {}⟩ x
  return c.texts

end Written

end MissionTime

import MissionTime.Grammar.Syntax
import MissionTime.NormalFormula.Canonical

/-!
# Reading texts

Texts as formulas, intervals and literals, and the question which form a text has.

**Definitions.**
* `Formula.ofText`, `Interval.ofText`, `Literal.ofText`;
* `Production`, the forms, and `Production.recognizes`, which asks the rule of each form.
-/

namespace MissionTime

/-- A failure to read a text, as an error. -/
def Rejection.error (text : String) (rejection : Rejection) : Error :=
  .malformedFormula text rejection.position rejection.expected

/-- Reads a formula; the whole text must be one. -/
def Formula.ofText (text : String) : Except Error Formula :=
  (Rule.formula.parse text.toList).mapError (Rejection.error text)

/-- Reads an interval; the whole text must be one. -/
def Interval.ofText (text : String) : Except Error Interval :=
  (Rule.interval.parse text.toList).mapError (Rejection.error text)

/-- Reads a literal. A failing text that begins like a variable was meant as one. -/
def Literal.ofText (text : String) : Except Error Literal :=
  (Rule.literal.parse text.toList).mapError fun _ =>
    if text.toList.head? = some 'p' ∨ text.toList.head? = some '~' then .notVariable text
    else .notConstant text

/-- The forms of texts. -/
inductive Production
  | variable
  | constant
  | unaryTemporal
  | binaryTemporal
  | list
  | binary
  | interval
  | formula
  | normal
deriving DecidableEq, Repr

/-- Whether the whole text has the form. -/
def Production.recognizes (production : Production) (text : String) : Bool :=
  match production with
  | .variable => (Rule.variableName.parse text.toList).isOk
  | .constant => (Rule.constant.parse text.toList).isOk
  | .unaryTemporal => ((Rule.recording Rule.unary).parse text.toList).isOk
  | .binaryTemporal => ((Rule.recording Rule.temporal).parse text.toList).isOk
  | .list => ((Rule.recording Rule.list).parse text.toList).isOk
  | .binary => ((Rule.recording Rule.binary).parse text.toList).isOk
  | .interval => (Rule.interval.parse text.toList).isOk
  | .formula => (Rule.formula.parse text.toList).isOk
  | .normal =>
    match Rule.formula.parse text.toList with
    | .ok f => (NormalFormula.validate f).isOk
    | .error _ => false

/-- A text that is read as a formula has the normal form if the formula is validated. -/
theorem Production.recognizes_normal
    {text : String} {f : Formula} (h : Rule.formula.parse text.toList = .ok f) :
    normal.recognizes text = (NormalFormula.validate f).isOk := by
  simp only [recognizes, h]

end MissionTime

import MissionTime.Formula.Order
import MissionTime.Formula.Printer
import MissionTime.Grammar.Expectation
import MissionTime.Scan

/-!
# Failures

Why a text was not read, or why an operation has no answer.

**Definitions.**
* `Error`, one constructor per cause, and `Error.message`, its wording;
* `PatternFault`, what keeps a text from being a pattern.

The last four causes stop the program instead of being answered: something is asked for that is not
there, or that no list can hold.
-/

namespace MissionTime

/-- What keeps a text from being a pattern. Lengths of blocks are counted in bytes. -/
inductive PatternFault
  | emptyBlock
  | unevenBlock (step found width : Nat)
  | unexpectedSymbol (symbol : Char)
deriving DecidableEq, Repr

/-- The wording of the fault. -/
def PatternFault.message : PatternFault → String
  | .emptyBlock => "empty block"
  | .unevenBlock step found width => s!"block {step} has {found} bits instead of {width}"
  | .unexpectedSymbol symbol => s!"unexpected symbol `{symbol}`"

/-- Causes of failure. -/
inductive Error
  | malformedFormula (text : String) (position : Nat) (expected : List Expectation)
  | notNormal (formula : Formula)
  | notConstant (text : String)
  | notVariable (text : String)
  | variableOutOfRange (var : Variable) (count : Nat)
  | lengthMismatch (expected found : Nat)
  | malformedPattern (text : String) (fault : PatternFault)
  | tooManyTraces (width length : Nat)
  | scan (cause : ScanError)
  | noBlocks
  | stepOutOfRange (step blocks : Nat)
  | indexOutOfRange (index width : Nat)
  | tooManyBits (blocks width : Nat)
deriving DecidableEq, Repr

namespace Error

/-- The wording of the failure. -/
def message : Error → String
  | .malformedFormula text position expected =>
    s!"`{text}` is not a well-formed formula: expected " ++
      s!"{Expectation.describe expected} at position {position}"
  | .notNormal formula => s!"`{formula.text}` is not in negation normal form"
  | .notConstant text => s!"`{text}` is not a propositional constant"
  | .notVariable text =>
    s!"invalid propositional variable `{text}`: " ++
      "expected `p` or `~p` followed by a variable index"
  | .variableOutOfRange var count =>
    s!"invalid propositional variable `{var.text}`: index out of range for {count} variables"
  | .lengthMismatch expected found =>
    s!"cannot combine computation strings of length {expected} and {found}"
  | .malformedPattern text fault =>
    s!"`{text}` is not a computation string: {fault.message}"
  | .tooManyTraces width length =>
    s!"cannot enumerate traces of {length} steps over {width} variables"
  | .scan cause => cause.message
  | .noBlocks => "a string of no variables has no blocks"
  | .stepOutOfRange step blocks => s!"no step {step} in a string of {blocks} blocks"
  | .indexOutOfRange index width => s!"no variable {index} in a block of {width} bits"
  | .tooManyBits blocks width => s!"no list holds {blocks} blocks of {width} bits"

/-- Whether the program stops instead of answering. -/
def isFatal : Error → Bool
  | .noBlocks => true
  | .stepOutOfRange .. => true
  | .indexOutOfRange .. => true
  | .tooManyBits .. => true
  | _ => false

end Error

end MissionTime

import MissionTime.Interval
import MissionTime.Proofs.Grammar.Machine

/-!
# A machine for intervals

A machine with which the rule of intervals is compared. It takes a bracket, digits, a comma, digits, and a
bracket.

**Definitions.**
* `Bounds`, what is known of an interval while it is read;
* `Bounds.machine`, which accepts the numbers that `fits` accepts.

A number may have leading zeros. Whether it fits is asked when its digits end.
-/

namespace MissionTime

/-- Extends a number that may not have begun by one decimal digit. -/
def appendDigit (n : Option Nat) (c : Char) : Nat :=
  10 * n.getD 0 + (c.toNat - '0'.toNat)

/-- The part of an interval that has been read. -/
inductive Bounds
  | fresh
  | lower (digits : Option Nat)
  | upper (lower : Nat) (digits : Option Nat)
  | closed (int : Interval)
deriving DecidableEq, Repr

namespace Bounds

/-- Takes one character. -/
def advance (fits : Nat → Bool) : Bounds → Char → Option Bounds
  | .fresh, c => if c = '[' then some (.lower none) else none
  | .lower digits, c =>
    if c.isDigit then some (.lower (some (appendDigit digits c)))
    else match digits with
      | some n => if c = ',' ∧ fits n then some (.upper n none) else none
      | none => none
  | .upper low digits, c =>
    if c.isDigit then some (.upper low (some (appendDigit digits c)))
    else match digits with
      | some n => if c = ']' ∧ fits n then some (.closed ⟨low, n⟩) else none
      | none => none
  | .closed _, _ => none

/-- What may follow a number that ends before `next`, if it has begun. -/
def expectedAfterDigits (fits : Nat → Bool) (next : List Expectation) :
    Option Nat → List Expectation
  | none => [.digit]
  | some n => if fits n then .digit :: next else [.digit, .smallNumber]

/-- What may follow. -/
def expected (fits : Nat → Bool) : Bounds → List Expectation
  | .fresh => [.symbol '[']
  | .lower digits => expectedAfterDigits fits [.symbol ','] digits
  | .upper _ digits => expectedAfterDigits fits [.symbol ']'] digits
  | .closed _ => [.endOfText]

/-- The interval, once its last bracket is read. -/
def result? : Bounds → Option Interval
  | .closed int => some int
  | _ => none

/-- Reads an interval whose bounds fit. -/
def machine (fits : Nat → Bool) : Machine Bounds Interval where
  start := .fresh
  advance := advance fits
  result? := result?
  expected := expected fits

end Bounds

end MissionTime

import MissionTime.Blocks
import MissionTime.Error
import MissionTime.Formula.Horizon

/-!
# Traces

A trace is a finite sequence of states, each a truth value per variable. Behind its end, and outside
its width, variables are false.

**Definitions.**
* `Trace`, `Trace.ofBits`, `Trace.bits` and `Trace.value`;
* `Trace.holdsAt`, the meaning of formulas, and `Trace.satisfies`, the meaning at the first step;
* `Trace.all`, the traces of one shape, the lowest bits of the number of a trace coming first;
* `Trace.models`, the traces of one shape that satisfy a formula.
-/

namespace MissionTime

/-- States of one width. -/
structure Trace where
  width : Nat
  states : List (List Bool)
deriving DecidableEq, Repr

namespace Trace

section Reading

/-- The trace with the given bits, `width` of them for each step. -/
def ofBits (width : Nat) (bits : List Bool) : Except Error Trace :=
  if width = 0 ∨ bits.length % width ≠ 0 then .error (.lengthMismatch width bits.length)
  else .ok ⟨width, cutBlocks width (bits.length / width) bits⟩

/-- The bits of all states. -/
def bits (s : Trace) : List Bool :=
  s.states.flatten

/-- Number of states. -/
def length (s : Trace) : Nat :=
  s.states.length

/-- The value of a variable at a step. -/
def value (s : Trace) (t : Nat) (var : Variable) : Bool :=
  xor ((s.states[t]?.bind (·[var.index]?)).getD false) var.negated

/-- The symbol of a truth value. -/
def bitSymbol (value : Bool) : Char :=
  if value then '1' else '0'

/-- The written form of bits. -/
def bitText (bits : List Bool) : String :=
  String.ofList (bits.map bitSymbol)

/-- The written form: the bits of the states, with commas between states. -/
def text (s : Trace) : String :=
  String.ofList (joinCommas (s.states.map fun state => state.map bitSymbol))

end Reading

section Meaning

mutual

/-- Whether the formula holds at a step of the trace. -/
def holdsAt (s : Trace) : Formula → Nat → Bool
  | .literal .top, _ => true
  | .literal .bot, _ => false
  | .literal (.var x), t => s.value t x
  | .neg sub, t => !holdsAt s sub t
  | .unary .eventually int sub, t =>
    anyStep (fun i => holdsAt s sub (t + i)) int.size int.lower
  | .unary .always int sub, t =>
    allSteps (fun i => holdsAt s sub (t + i)) int.size int.lower
  | .temporal lhs .until int rhs, t =>
    anyStep (fun j => holdsAt s rhs (t + j) &&
      allSteps (fun k => holdsAt s lhs (t + k)) (j - int.lower) int.lower) int.size int.lower
  | .temporal lhs .release int rhs, t =>
    allSteps (fun j => holdsAt s rhs (t + j) ||
      anyStep (fun k => holdsAt s lhs (t + k)) (j - int.lower) int.lower) int.size int.lower
  | .binary lhs .or rhs, t => holdsAt s lhs t || holdsAt s rhs t
  | .binary lhs .and rhs, t => holdsAt s lhs t && holdsAt s rhs t
  | .binary lhs .equiv rhs, t => holdsAt s lhs t == holdsAt s rhs t
  | .binary lhs .implies rhs, t => !holdsAt s lhs t || holdsAt s rhs t
  | .list .or subs, t => anyHolds s subs t
  | .list .and subs, t => allHold s subs t
  | .list .equiv subs, t => agree s true subs t

/-- Whether some member of a list holds. -/
def anyHolds (s : Trace) : List Formula → Nat → Bool
  | [], _ => false
  | sub :: subs, t => holdsAt s sub t || anyHolds s subs t

/-- Whether all members of a list hold. -/
def allHold (s : Trace) : List Formula → Nat → Bool
  | [], _ => true
  | sub :: subs, t => holdsAt s sub t && allHold s subs t

/-- Whether a value, and then each result, agrees with the next member of a list. -/
def agree (s : Trace) (value : Bool) : List Formula → Nat → Bool
  | [], _ => value
  | sub :: subs, t => agree s (value == holdsAt s sub t) subs t

end

@[simp] theorem anyHolds_eq_any
    (s : Trace) (subs : List Formula) (t : Nat) :
    s.anyHolds subs t = subs.any (s.holdsAt · t) := by
  induction subs with
  | nil => rfl
  | cons sub subs ih => simp [anyHolds, ih]

@[simp] theorem allHold_eq_all
    (s : Trace) (subs : List Formula) (t : Nat) :
    s.allHold subs t = subs.all (s.holdsAt · t) := by
  induction subs with
  | nil => rfl
  | cons sub subs ih => simp [allHold, ih]

@[simp] theorem agree_eq_foldl
    (s : Trace) (value : Bool) (subs : List Formula) (t : Nat) :
    s.agree value subs t = subs.foldl (fun acc sub => acc == s.holdsAt sub t) value := by
  induction subs generalizing value with
  | nil => rfl
  | cons sub subs ih => simp [agree, ih]

theorem holdsAt_list_or
    (s : Trace) (subs : List Formula) (t : Nat) :
    s.holdsAt (.list .or subs) t = subs.any (s.holdsAt · t) := by
  rw [holdsAt, anyHolds_eq_any]

theorem holdsAt_list_and
    (s : Trace) (subs : List Formula) (t : Nat) :
    s.holdsAt (.list .and subs) t = subs.all (s.holdsAt · t) := by
  rw [holdsAt, allHold_eq_all]

theorem holdsAt_list_equiv
    (s : Trace) (subs : List Formula) (t : Nat) :
    s.holdsAt (.list .equiv subs) t =
      subs.foldl (fun acc sub => acc == s.holdsAt sub t) true := by
  rw [holdsAt, agree_eq_foldl]

/-- Whether the formula holds at the first step. -/
def satisfies (s : Trace) (f : Formula) : Bool :=
  s.holdsAt f 0

end Meaning

section Enumeration

/-- The trace of a shape whose bits are the binary digits of a number, the lowest first. -/
def nth (width length number : Nat) : Trace :=
  ⟨width, (List.range length).map fun t =>
    (List.range width).map fun k => number.testBit (t * width + k)⟩

/-- Number of traces of a shape, if it has at most 64 binary digits. -/
def count (width length : Nat) : Except Error Nat :=
  if width * length < 64 then .ok (Nat.pow 2 (width * length))
  else .error (.tooManyTraces width length)

/-- All traces of a shape, in the order of their numbers. -/
def all (width length : Nat) : Except Error (List Trace) :=
  (count width length).map fun total => (List.range total).map (nth width length)

/-- The traces of a shape that satisfy a formula, in the order of their numbers. -/
def models (width length : Nat) (f : Formula) : Except Error (List Trace) :=
  (all width length).map (List.filter (satisfies · f))

end Enumeration

end Trace

end MissionTime

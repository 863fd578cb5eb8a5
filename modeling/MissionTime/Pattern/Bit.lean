/-!
# Ternary bits

One position of a pattern: it fixes a bit or leaves it free.

**Definitions.**
* `Bit`, its values, its symbol, and `Bit.meet`, the bit that allows what both allow.

**Results.**
* `Bit.mem_values_meet`: the meet allows exactly the common values;
* `Bit.meet_eq_none_iff`: there is none exactly if no value is common.
-/

namespace MissionTime

/-- A fixed bit, or a free one. -/
inductive Bit
  | zero
  | one
  | wild
deriving DecidableEq, Repr

namespace Bit

/-- The bit fixed to a value. -/
def ofBool (value : Bool) : Bit :=
  if value then .one else .zero

/-- The allowed values, false first. -/
def values : Bit → List Bool
  | .zero => [false]
  | .one => [true]
  | .wild => [false, true]

/-- The bit that allows what both allow, if anything. -/
def meet : Bit → Bit → Option Bit
  | .wild, b => some b
  | a, .wild => some a
  | .zero, .zero => some .zero
  | .one, .one => some .one
  | _, _ => none

/-- The symbol of a bit. -/
def symbol : Bit → Char
  | .zero => '0'
  | .one => '1'
  | .wild => 's'

/-- The bit of a symbol. -/
def ofSymbol? (c : Char) : Option Bit :=
  if c = '0' then some .zero
  else if c = '1' then some .one
  else if c = 's' then some .wild
  else none

@[simp] theorem ofSymbol?_symbol
    (b : Bit) :
    ofSymbol? b.symbol = some b := by
  cases b <;> decide

theorem ofSymbol?_eq_some_iff
    {c : Char} {b : Bit} :
    ofSymbol? c = some b ↔ c = b.symbol := by
  constructor
  · intro h
    unfold ofSymbol? at h
    split at h
    · simp_all [symbol, ← Option.some.inj h]
    · split at h
      · simp_all [symbol, ← Option.some.inj h]
      · split at h
        · simp_all [symbol, ← Option.some.inj h]
        · simp at h
  · rintro rfl
    exact ofSymbol?_symbol b

/-- The meet allows exactly the common values. -/
theorem mem_values_meet
    {a b c : Bit} (h : a.meet b = some c) (value : Bool) :
    value ∈ c.values ↔ value ∈ a.values ∧ value ∈ b.values := by
  revert h
  cases a <;> cases b <;> cases c <;> cases value <;> decide

/-- There is no meet exactly if no value is common. -/
theorem meet_eq_none_iff
    {a b : Bit} :
    a.meet b = none ↔ ∀ value, ¬ (value ∈ a.values ∧ value ∈ b.values) := by
  cases a <;> cases b <;> decide

@[simp] theorem meet_wild_left
    (b : Bit) :
    wild.meet b = some b := by
  rfl

@[simp] theorem meet_wild_right
    (a : Bit) :
    a.meet wild = some a := by
  cases a <;> rfl

/-- Place of the bit in the order. -/
def rank : Bit → Nat
  | .zero => 0
  | .one => 1
  | .wild => 2

/-- Zero, one, then free. -/
instance : Ord Bit :=
  ⟨fun a b => compare a.rank b.rank⟩

end Bit

end MissionTime

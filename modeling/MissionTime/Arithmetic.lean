import MissionTime.Capped
import MissionTime.Error

/-!
# Lengths of lists of blocks

How long a list of so many blocks of bits is. The product has to be computed, and a computation with
numbers of 64 binary digits does not always give it: depending on how the program is built, it drops the
higher digits or stops. A list that is longer than a list can be stops the program in any case.

**Definitions.**
* `Arithmetic`, the ways to multiply, and `Arithmetic.product`;
* `Arithmetic.bits`, the length at which a list of blocks is made;
* `Arithmetic.Admits`: so many blocks of some width have their length, and `Arithmetic.Keeps`: no digit
  of the length is dropped.

**Results.**
* `Arithmetic.bits_eq`: lengths that are admitted are exact;
* `Arithmetic.bits_cases`: without dropping digits, a length is exact or the program stops.
-/

namespace MissionTime

/-- Ways to multiply: with all digits, keeping the lowest 64 of them, or stopping if there are more. -/
inductive Arithmetic
  | unbounded
  | wrapping
  | checked
deriving DecidableEq, Repr

/-- How many bits a list can hold at most. -/
def capacity : Nat := 9223372036854775807

theorem capacity_lt_largest :
    capacity < largest := by
  decide

namespace Arithmetic

/-- The product of two numbers. -/
def product : Arithmetic → Nat → Nat → Except Error Nat
  | .unbounded, m, n => .ok (m * n)
  | .wrapping, m, n => .ok (m * n % (largest + 1))
  | .checked, m, n => if m * n ≤ largest then .ok (m * n) else .error (.tooManyBits m n)

/-- The number of bits at which a list of so many blocks of some width is made. -/
def bits (a : Arithmetic) (blocks width : Nat) : Except Error Nat := do
  let length ← a.product blocks width
  if a = .unbounded then return length
  else if length ≤ capacity then return length
  else .error (.tooManyBits blocks width)

/-- A list can hold so many blocks of this width. -/
def Admits (a : Arithmetic) (blocks width : Nat) : Prop :=
  a = .unbounded ∨ blocks * width ≤ capacity

instance (a : Arithmetic) (blocks width : Nat) : Decidable (a.Admits blocks width) :=
  inferInstanceAs (Decidable (a = .unbounded ∨ blocks * width ≤ capacity))

/-- If there are lengths of which digits are dropped, this is none of them. -/
def Keeps (a : Arithmetic) (blocks width : Nat) : Prop :=
  a = .wrapping → blocks * width ≤ capacity

instance (a : Arithmetic) (blocks width : Nat) : Decidable (a.Keeps blocks width) :=
  inferInstanceAs (Decidable (a = .wrapping → blocks * width ≤ capacity))

section Lengths

variable {a : Arithmetic} {blocks width : Nat}

theorem Admits.mono
    {fewer : Nat} (h : a.Admits blocks width) (hle : fewer ≤ blocks) :
    a.Admits fewer width :=
  h.imp_right fun hfits => Nat.le_trans (Nat.mul_le_mul_right width hle) hfits

theorem Admits.keeps
    (h : a.Admits blocks width) :
    a.Keeps blocks width := by
  rintro rfl
  exact h.resolve_left nofun

theorem admits_unbounded
    (blocks width : Nat) :
    unbounded.Admits blocks width :=
  Or.inl rfl

theorem product_eq
    (h : a.Admits blocks width) :
    a.product blocks width = .ok (blocks * width) := by
  have small : a ≠ .unbounded → blocks * width ≤ largest := fun hne =>
    Nat.le_of_lt (Nat.lt_of_le_of_lt (h.resolve_left hne) capacity_lt_largest)
  cases a with
  | unbounded => rfl
  | wrapping => rw [product, Nat.mod_eq_of_lt (Nat.lt_succ_of_le (small nofun))]
  | checked => rw [product, if_pos (small nofun)]

/-- A length that is admitted is the exact one. -/
theorem bits_eq
    (h : a.Admits blocks width) :
    a.bits blocks width = .ok (blocks * width) := by
  rw [bits, product_eq h]
  change (if a = .unbounded then _ else if blocks * width ≤ capacity then _ else _) = _
  split
  · rfl
  · rename_i hne
    rw [if_pos (h.resolve_left hne)]
    rfl

@[simp] theorem bits_unbounded
    (blocks width : Nat) :
    unbounded.bits blocks width = .ok (blocks * width) :=
  bits_eq (admits_unbounded blocks width)

/-- Where digits are not dropped, a length that is computed is the exact one. -/
theorem bits_cases
    (h : a ≠ .wrapping) (blocks width : Nat) :
    a.bits blocks width = .ok (blocks * width) ∨
      a.bits blocks width = .error (.tooManyBits blocks width) := by
  cases a with
  | unbounded => exact Or.inl (bits_unbounded blocks width)
  | wrapping => exact absurd rfl h
  | checked =>
      by_cases hfits : blocks * width ≤ capacity
      · exact Or.inl (bits_eq (Or.inr hfits))
      · right
        rw [bits, product]
        split
        · exact if_neg hfits
        · rfl

end Lengths

end Arithmetic

end MissionTime

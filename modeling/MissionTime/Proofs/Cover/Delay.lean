import MissionTime.Cover.Basic

/-!
# Delays of exact length

What delaying and padding are where no product of a number of blocks and a width is cut short: every
member gets just as many free positions as the steps have bits.

**Definitions.**
* `Cover.shifted`: all members delayed, with the exact number of free positions;
* `Cover.cutHorizon`: a number of blocks at which a length loses digits.

**Results.**
* `Cover.shift_eq`: a cover is delayed exactly if the steps are admitted, and `Cover.shift_cases`: it is
  delayed exactly or not at all if no digits are dropped;
* `Cover.rows_paddedTo`, `Cover.mem_rows_paddedTo`: the rows of a padded cover.
-/

namespace MissionTime

namespace Cover

variable {a : Arithmetic} {c d : Cover} {steps : Nat}

/-- All members delayed by some steps, each with as many free positions as these steps have bits. -/
def shifted (steps : Nat) (c : Cover) : Cover :=
  ⟨c.width, c.rows.map fun w => List.replicate (steps * c.width) Bit.wild ++ w⟩

theorem rows_paddedTo
    (blocks : Nat) (c : Cover) :
    (c.paddedTo blocks).rows = c.rows.map (Word.padTo (blocks * c.width)) := by
  simp only [paddedTo, members, List.map_map]
  rfl

theorem paddedTo_eq
    (blocks : Nat) (c : Cover) :
    c.paddedTo blocks = ⟨c.width, c.rows.map (Word.padTo (blocks * c.width))⟩ := by
  rw [← rows_paddedTo]
  rfl

theorem members_paddedTo
    (blocks : Nat) (c : Cover) :
    (c.paddedTo blocks).members = c.members.map (Pattern.padded blocks) := by
  rw [members, rows_paddedTo, members, List.map_map, List.map_map]
  rfl

theorem mem_rows_paddedTo
    {blocks : Nat} {w : Word} :
    w ∈ (c.paddedTo blocks).rows ↔ ∃ v ∈ c.rows, Word.padTo (blocks * c.width) v = w := by
  rw [rows_paddedTo, List.mem_map]

/-- Without members there is nothing to change. -/
theorem changeAll_nil
    (change : Pattern → Except Error Pattern) (h : c.rows = []) :
    c.changeAll change = .ok c := by
  cases c with
  | mk width rows =>
      obtain rfl := h
      rfl

/-- The first member that cannot be changed ends the operation. -/
theorem changeAll_error
    {change : Pattern → Except Error Pattern} {cause : Error}
    (h : ∀ p ∈ c.members, change p = .error cause) (hne : c.rows ≠ []) :
    c.changeAll change = .error cause := by
  rw [changeAll]
  cases hmembers : c.members with
  | nil => exact absurd (List.map_eq_nil_iff.mp hmembers) hne
  | cons p rest =>
      rw [List.mapM_cons, h p (hmembers ▸ List.mem_cons_self)]
      rfl

/-- A delay is exact if its length is. -/
theorem shift_of_bits
    (h : a.bits steps c.width = .ok (steps * c.width)) :
    c.shift a steps = .ok (c.shifted steps) := by
  have delayed : ∀ p ∈ c.members, p.shift a steps =
      .ok ⟨p.width, List.replicate (steps * p.width) .wild ++ p.bits⟩ := by
    intro p hp
    rw [Pattern.shift, width_of_mem_members hp, h]
    rfl
  rw [shift, changeAll_eq delayed, shifted]
  simp only [members, List.map_map]
  rfl

theorem shift_eq
    (h : a.Admits steps c.width) :
    c.shift a steps = .ok (c.shifted steps) :=
  shift_of_bits (Arithmetic.bits_eq h)

@[simp] theorem shift_unbounded
    (steps : Nat) (c : Cover) :
    c.shift .unbounded steps = .ok (c.shifted steps) :=
  shift_eq (Arithmetic.admits_unbounded _ _)

/-- Without dropping digits, a delay is exact or fails. -/
theorem shift_cases
    (h : a ≠ .wrapping) (steps : Nat) (c : Cover) :
    c.shift a steps = .ok (c.shifted steps) ∨
      c.shift a steps = .error (.tooManyBits steps c.width) := by
  rcases Arithmetic.bits_cases h steps c.width with hbits | hbits
  · exact Or.inl (shift_of_bits hbits)
  · by_cases hempty : c.rows = []
    · left
      rw [shift, changeAll_nil _ hempty, shifted, hempty]
      cases c
      cases hempty
      rfl
    · refine Or.inr (changeAll_error (fun p hp => ?_) hempty)
      rw [Pattern.shift, width_of_mem_members hp, hbits]
      rfl

/-- Three times this number leaves two behind the digits that are dropped, so that blocks of three bits are
cut to two bits where they should be made longer. -/
def cutHorizon : Nat := 6148914691236517206

end Cover

end MissionTime

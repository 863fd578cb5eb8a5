import MissionTime.Pattern.Bit

/-!
# Words of ternary bits

A word fixes some bits of the sequences of its length and leaves the others free.

**Definitions.**
* `Word.Allows`, and `Word.instances`, the sequences that a word allows, false before true, the
  first position slowest;
* `Word.meet`, the word that allows what both allow;
* `Word.merge`, the word for the union of two words that differ in at most one position;
* `Word.padTo`, `Word.resize`, `Word.trimmed`: positions are added or dropped at the end.

**Results.**
* `Word.mem_instances_iff`: the instances are the sequences that the word allows;
* `Word.length_instances`: there are as many as the free positions have values.
-/

namespace MissionTime

/-- A word of ternary bits. -/
abbrev Word := List Bit

namespace Word

section Instances

/-- The sequences that a word allows, in increasing order. -/
def instances : Word → List (List Bool)
  | [] => [[]]
  | b :: w =>
    let tails := instances w
    b.values.flatMap fun value => tails.map (value :: ·)

/-- Number of free positions. -/
def wildcards (w : Word) : Nat :=
  w.countP (· == .wild)

/-- Whether all positions are free. -/
def IsWild (w : Word) : Prop :=
  ∀ b ∈ w, b = .wild

instance (w : Word) : Decidable (IsWild w) :=
  inferInstanceAs (Decidable (∀ b ∈ w, b = .wild))

@[simp] theorem instances_nil :
    instances [] = [[]] := by
  rfl

theorem instances_cons
    (b : Bit) (w : Word) :
    instances (b :: w) = b.values.flatMap fun value => (instances w).map (value :: ·) := by
  rfl

/-- The word allows the sequence: it has the same length and an allowed value at every position. -/
def Allows : Word → List Bool → Prop
  | [], [] => True
  | b :: w, value :: sequence => value ∈ b.values ∧ Allows w sequence
  | _, _ => False

/-- The instances are the sequences that the word allows. -/
theorem mem_instances_iff
    {w : Word} {sequence : List Bool} :
    sequence ∈ instances w ↔ Allows w sequence := by
  induction w generalizing sequence with
  | nil => cases sequence <;> simp [Allows]
  | cons b w ih =>
      cases sequence with
      | nil => simp [instances_cons, Allows]
      | cons value sequence => simp [instances_cons, Allows, ih]

theorem length_instances
    (w : Word) :
    (instances w).length = Nat.pow 2 (wildcards w) := by
  induction w with
  | nil => simp [wildcards]
  | cons b w ih =>
      cases b <;>
        simp [instances_cons, Bit.values, ih, wildcards, Nat.pow_succ, Nat.mul_two]

end Instances

section Padding

/-- The word with free positions added up to a length; longer words stay. -/
def padTo (length : Nat) (w : Word) : Word :=
  w ++ List.replicate (length - w.length) .wild

@[simp] theorem length_padTo
    (length : Nat) (w : Word) :
    (padTo length w).length = max length w.length := by
  simp only [padTo, List.length_append, List.length_replicate]
  omega

theorem padTo_of_le
    {length : Nat} {w : Word} (h : length ≤ w.length) :
    padTo length w = w := by
  simp [padTo, Nat.sub_eq_zero_of_le h]

/-- The word at a length: it is cut, or free positions are added. -/
def resize (length : Nat) (w : Word) : Word :=
  padTo length (w.take length)

theorem resize_of_le
    {length : Nat} {w : Word} (h : w.length ≤ length) :
    resize length w = padTo length w := by
  rw [resize, List.take_of_length_le h]

/-- How many of the first `count` blocks remain when free ones at the end are dropped down to one
block. -/
def trimmedCount (width : Nat) (w : Word) : (count : Nat) → Nat
  | 0 => 0
  | 1 => 1
  | count + 2 =>
    if IsWild ((w.drop ((count + 1) * width)).take width) then trimmedCount width w (count + 1)
    else count + 2

/-- The word without the free blocks at its end; one block remains. -/
def trimmed (width : Nat) (w : Word) : Word :=
  w.take (trimmedCount width w (w.length / width) * width)

theorem trimmedCount_le
    (width : Nat) (w : Word) (count : Nat) :
    trimmedCount width w count ≤ count := by
  induction count with
  | zero => simp [trimmedCount]
  | succ count ih =>
      cases count with
      | zero => simp [trimmedCount]
      | succ count =>
          simp only [trimmedCount]
          split
          · omega
          · exact Nat.le_refl _

end Padding

section Meet

/-- The word that allows what two words of one length both allow, if anything. -/
def meet : Word → Word → Option Word
  | a :: v, b :: w =>
    match a.meet b with
    | some c => (meet v w).map (c :: ·)
    | none => none
  | _, _ => some []

/-- The word for the union of two words of one length, if they differ in at most one position. -/
def merge : Word → Word → Option Word
  | [], [] => some []
  | a :: v, b :: w =>
    if a = b then (merge v w).map (a :: ·)
    else if v = w then some (.wild :: v)
    else none
  | _, _ => none

end Meet

end Word

end MissionTime

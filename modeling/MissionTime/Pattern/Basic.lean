import MissionTime.Arithmetic
import MissionTime.Blocks
import MissionTime.Pattern.Word
import MissionTime.Text

/-!
# Patterns

A pattern is a word cut into blocks of one width, one block per time step and one bit per variable.
It stands for the traces whose bits it allows; steps behind its last block are free.

**Definitions.**
* `Pattern`, its blocks, and its written form `Pattern.chars`;
* `Pattern.shift` and `Pattern.lengthen`, which make lists of a length that is computed;
* `Pattern.padded`, `Pattern.trimmed` and `Pattern.meet?`;
* the operations `pad`, `trim`, `intersect` and `merge`, which refuse patterns that do not fit together.

**Results.**
* `Pattern.lengthen_eq`: a pattern that is lengthened to a number of blocks that is admitted is padded to
  that many.

A pattern of width zero holds no bits and is not cut into blocks; where blocks are counted it is
refused with `Error.noBlocks`. Where the length that is computed is not the exact one, the last block of
a pattern can be shorter than the others.
-/

namespace MissionTime

/-- A word together with the width of its blocks. -/
structure Pattern where
  width : Nat
  bits : Word
deriving DecidableEq, Repr

namespace Pattern

section Making

/-- Accepts bits that fill at least one block. -/
def ofBits (width : Nat) (bits : Word) : Except Error Pattern :=
  if width = 0 ∨ bits = [] ∨ bits.length % width ≠ 0 then
    .error (.lengthMismatch width bits.length)
  else .ok ⟨width, bits⟩

/-- Free blocks. -/
def wildcard (a : Arithmetic) (width blocks : Nat) : Except Error Pattern := do
  let length ← a.bits blocks width
  return ⟨width, List.replicate length .wild⟩

/-- One block that makes a variable true and leaves the others free. -/
def fixing (width : Nat) (var : Variable) : Pattern :=
  ⟨width, (List.replicate width Bit.wild).set var.index (Bit.ofBool (!var.negated))⟩

/-- One block that makes a variable of the block true. -/
def literal (width : Nat) (var : Variable) : Except Error Pattern :=
  if var.index < width then .ok (fixing width var)
  else .error (.indexOutOfRange var.index width)

end Making

section Blocks

/-- Number of whole blocks. -/
def blockCount (p : Pattern) : Nat :=
  p.bits.length / p.width

/-- Number of blocks that are written: the bits behind the last whole block make another one. -/
def writtenCount (p : Pattern) : Nat :=
  (p.bits.length + p.width - 1) / p.width

theorem writtenCount_eq
    {p : Pattern} (h : p.width ∣ p.bits.length) :
    p.writtenCount = p.blockCount := by
  obtain ⟨count, hcount⟩ := h
  rw [writtenCount, blockCount, hcount]
  cases hwidth : p.width with
  | zero => simp
  | succ rest =>
      rw [Nat.add_sub_assoc (Nat.succ_pos rest), Nat.mul_add_div (Nat.succ_pos rest),
        Nat.mul_div_cancel_left _ (Nat.succ_pos rest)]
      simp

/-- The blocks from the first step to the last. -/
def blocks (p : Pattern) : List Word :=
  cutBlocks p.width p.writtenCount p.bits

/-- Bits that fill whole blocks are cut into these. -/
theorem blocks_eq
    {p : Pattern} (h : p.width ∣ p.bits.length) :
    p.blocks = cutBlocks p.width p.blockCount p.bits := by
  rw [blocks, writtenCount_eq h]

/-- The block of a step. -/
def block (a : Arithmetic) (step : Nat) (p : Pattern) : Except Error Word := do
  let start ← a.product step p.width
  let stop ← a.product (step + 1) p.width
  if start ≤ stop ∧ stop ≤ p.bits.length then
    return (p.bits.drop start).take (stop - start)
  else .error (.stepOutOfRange step p.blockCount)

/-- The written form: the symbols of the blocks, with commas between blocks. -/
def chars (p : Pattern) : List Char :=
  joinCommas (p.blocks.map fun block => block.map Bit.symbol)

/-- The written form as a text. -/
def text (p : Pattern) : String :=
  String.ofList p.chars

/-- Refuses a width at which there are no blocks to count. -/
def requireBlocks (width : Nat) : Except Error Unit :=
  if width = 0 then .error .noBlocks else .ok ()

end Blocks

section Operations

/-- The pattern delayed by some steps. -/
def shift (a : Arithmetic) (steps : Nat) (p : Pattern) : Except Error Pattern := do
  let length ← a.bits steps p.width
  return ⟨p.width, List.replicate length .wild ++ p.bits⟩

/-- The pattern with free blocks added up to a number of blocks; longer patterns stay. -/
def lengthen (a : Arithmetic) (blocks : Nat) (p : Pattern) : Except Error Pattern :=
  if blocks ≤ p.blockCount then .ok p
  else do
    let length ← a.bits blocks p.width
    return ⟨p.width, Word.resize length p.bits⟩

/-- The pattern with free blocks added up to the number of blocks of a pattern at hand, whose bits are no
fewer than the product; longer patterns stay. -/
def padded (blocks : Nat) (p : Pattern) : Pattern :=
  ⟨p.width, Word.padTo (blocks * p.width) p.bits⟩

theorem padded_of_le
    {blocks : Nat} {p : Pattern} (h : blocks ≤ p.blockCount) :
    p.padded blocks = p := by
  rw [padded, Word.padTo_of_le]
  exact Nat.le_trans (Nat.mul_le_mul_right _ h) (Nat.div_mul_le_self _ _)

/-- Padding is lengthening wherever the number of blocks is admitted. -/
theorem lengthen_eq
    {a : Arithmetic} {blocks : Nat} {p : Pattern} (hwidth : 0 < p.width)
    (h : a.Admits blocks p.width) :
    p.lengthen a blocks = .ok (p.padded blocks) := by
  rw [lengthen]
  split
  · rename_i short
    rw [padded_of_le short]
  · rename_i long
    have room : p.bits.length ≤ blocks * p.width :=
      Nat.le_of_lt ((Nat.div_lt_iff_lt_mul hwidth).mp (Nat.lt_of_not_le long))
    rw [Arithmetic.bits_eq h, padded, ← Word.resize_of_le room]
    rfl

/-- The pattern without the free blocks at its end; one block remains. -/
def trimmed (p : Pattern) : Pattern :=
  ⟨p.width, Word.trimmed p.width p.bits⟩

/-- The pattern of the traces that two patterns of one width share, if any. -/
def meet? (p q : Pattern) : Option Pattern :=
  let blocks := max p.blockCount q.blockCount
  (Word.meet (p.padded blocks).bits (q.padded blocks).bits).map (⟨p.width, ·⟩)

/-- The sequences of bits that the pattern allows. -/
def instances (p : Pattern) : List (List Bool) :=
  Word.instances p.bits

/-- Number of free positions. -/
def wildcards (p : Pattern) : Nat :=
  Word.wildcards p.bits

end Operations

section Checked

/-- Adds free blocks up to a number of blocks. -/
def pad (a : Arithmetic) (blocks : Nat) (p : Pattern) : Except Error Pattern := do
  requireBlocks p.width
  p.lengthen a blocks

/-- Drops the free blocks at the end down to one block. -/
def trim (p : Pattern) : Except Error Pattern := do
  requireBlocks p.width
  return p.trimmed

/-- Refuses patterns of different widths. -/
def requireWidth (expected found : Nat) : Except Error Unit :=
  if expected = found then .ok () else .error (.lengthMismatch expected found)

/-- The pattern of the shared traces, if any. -/
def intersect (p q : Pattern) : Except Error (Option Pattern) := do
  requireWidth p.width q.width
  requireBlocks p.width
  return p.meet? q

/-- The word for the union of two words of one length, if they differ in at most one position. -/
def mergeWords (v w : Word) : Except Error (Option Word) :=
  if v.length = w.length then .ok (Word.merge v w)
  else .error (.lengthMismatch v.length w.length)

/-- The pattern for the union of two patterns that differ in at most one position. -/
def merge (p q : Pattern) : Except Error (Option Pattern) := do
  requireWidth p.width q.width
  let merged ← mergeWords p.bits q.bits
  return merged.map (⟨p.width, ·⟩)

/-- The text and the counts of a pattern. -/
structure Summary where
  text : String
  width : Nat
  blocks : Nat
  wildcards : Nat
deriving DecidableEq, Repr

/-- Describes a pattern that has blocks. -/
def summary (p : Pattern) : Except Error Summary := do
  requireBlocks p.width
  return ⟨p.text, p.width, p.blockCount, p.wildcards⟩

end Checked

/-- The width decides first, then the bits from left to right; a beginning comes first. -/
instance : Ord Pattern :=
  ⟨fun p q => (compare p.width q.width).then (p.bits.compareLex compare q.bits)⟩

end Pattern

end MissionTime

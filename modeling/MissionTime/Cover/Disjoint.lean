import MissionTime.Cover.Algebra

/-!
# Disjoint covers

**Algorithm.** The members, padded to one length, are split on their last bit into those that allow
zero and those that allow one; a free bit goes to both sides. Each side is solved on the remaining
bits. Words are reversed, so that the last bit stands first. The first word decides how long they are
taken to be.

**Definitions.**
* `Cover.IsDisjoint`: no two members share a trace;
* `Cover.agree` and `Cover.separate`, the splitting, and `Cover.disjoint`;
* `Cover.union`, the union with disjoint members;
* `Cover.Step`, the operations that turn one cover into another, and `Cover.apply`.
-/

namespace MissionTime

namespace Cover

/-- No two members share a trace. -/
def IsDisjoint (c : Cover) : Prop :=
  c.padded.rows.Pairwise fun v w => Word.meet v w = none

instance (c : Cover) : Decidable c.IsDisjoint :=
  inferInstanceAs (Decidable (c.padded.rows.Pairwise fun v w => Word.meet v w = none))

/-- What follows the first bit, if the word allows the value there. -/
def tailAllowing (value : Bool) : Word → Option Word
  | [] => some []
  | b :: w => if value ∈ b.values then some w else none

/-- Whether the words have the bit at the place that is first before they are reversed. The words are
looked at one after the other, up to one that has another bit. -/
def agree (bit : Bit) : List Word → Except Error Bool
  | [] => .ok true
  | w :: others =>
    match w.getLast? with
    | some b => if b = bit then agree bit others else .ok false
    | none => .error (.indexOutOfRange 0 0)

/-- Disjoint words for the union of words no longer than a given length. -/
def separate : (length : Nat) → List Word → Except Error (List Word)
  | _, [] => .ok []
  | _, [w] => .ok [w]
  | 0, w :: _ => .ok [w]
  | _ + 1, [bit] :: others => do
    let same ← agree bit others
    return [[if same then bit else .wild]]
  | length + 1, words =>
    match words.find? (fun w => decide (Word.IsWild w)) with
    | some free => .ok [free]
    | none => do
      let zeros ← separate length (words.filterMap (tailAllowing false))
      let ones ← separate length (words.filterMap (tailAllowing true))
      return zeros.map (.zero :: ·) ++ ones.map (.one :: ·)

/-- Disjoint words for the union of words, split from the last bit on. -/
def separateRows (rows : List Word) : Except Error (List Word) := do
  let reversed := rows.map List.reverse
  let separated ← separate ((reversed.map List.length).foldl max 0) reversed
  return separated.map List.reverse

/-- Disjoint members for the same traces. -/
def disjoint (c : Cover) : Except Error Cover := do
  c.requireBlocks
  let rows ← separateRows c.padded.rows
  let patterns ← rows.mapM (Pattern.ofBits c.width)
  return ⟨c.width, patterns.map Pattern.bits⟩

/-- The union of two covers with disjoint members. -/
def union (c d : Cover) : Except Error Cover := do
  let joined ← c.append d
  joined.disjoint

/-- An operation that turns one cover into another. -/
inductive Step
  | pad (target : Option Nat)
  | shift (steps : Nat)
  | join (simplify : Bool) (operand : Cover)
  | intersect (simplify : Bool) (operand : Cover)
  | union (operand : Cover)
  | disjoint
  | simplify
deriving DecidableEq, Repr

/-- Applies an operation. -/
def apply (a : Arithmetic) (c : Cover) : Step → Except Error Cover
  | .pad target => c.pad a target
  | .shift steps => c.shift a steps
  | .join simplify operand => c.join simplify operand
  | .intersect simplify operand => c.intersect simplify operand
  | .union operand => c.union operand
  | .disjoint => c.disjoint
  | .simplify => c.simplify

end Cover

end MissionTime

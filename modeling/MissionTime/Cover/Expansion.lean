import MissionTime.Cover.Disjoint

/-!
# Expansions

The set of traces that a cover stands for, as an ordered list of sequences of bits.

**Definitions.**
* `precedes`, the order of sequences: the first difference decides, and a beginning comes first;
* `Cover.sequences`, the sequences that some member allows, each once and in increasing order;
* `Cover.expand` and `Cover.profile`, which refuse covers whose blocks cannot be counted.
-/

namespace MissionTime

/-- The first difference decides, false before true; a beginning comes first. -/
def precedes : List Bool → List Bool → Bool
  | [], _ => true
  | _ :: _, [] => false
  | a :: s, b :: t => if a = b then precedes s t else !a

theorem precedes_total
    (s t : List Bool) :
    (precedes s t || precedes t s) = true := by
  induction s generalizing t with
  | nil => rfl
  | cons a s ih =>
      cases t with
      | nil => rfl
      | cons b t =>
          have := ih t
          cases a <;> cases b <;> simp_all [precedes]

theorem precedes_trans
    (s t u : List Bool) (hst : precedes s t = true) (htu : precedes t u = true) :
    precedes s u = true := by
  induction s generalizing t u with
  | nil => rfl
  | cons a s ih =>
      cases t with
      | nil => simp [precedes] at hst
      | cons b t =>
          cases u with
          | nil => simp [precedes] at htu
          | cons c u =>
              have := ih t u
              cases a <;> cases b <;> cases c <;> simp_all [precedes]

theorem precedes_antisymm
    {s t : List Bool} (hst : precedes s t = true) (hts : precedes t s = true) :
    s = t := by
  induction s generalizing t with
  | nil =>
      cases t with
      | nil => rfl
      | cons b t => simp [precedes] at hts
  | cons a s ih =>
      cases t with
      | nil => simp [precedes] at hst
      | cons b t =>
          cases a <;> cases b <;> simp [precedes] at hst hts ⊢
          all_goals exact ih hst hts

/-- Sequences in increasing order, each once. -/
def sortedOnce (sequences : List (List Bool)) : List (List Bool) :=
  (sequences.mergeSort precedes).eraseReps

namespace Cover

/-- The sequences that some member allows, in increasing order. -/
def sequences (c : Cover) : List (List Bool) :=
  sortedOnce (c.rows.flatMap Word.instances)

/-- Lists the sequences of at least `horizon` steps of a cover whose members have blocks. -/
def expand (a : Arithmetic) (horizon : Nat) (c : Cover) : Except Error (List (List Bool)) := do
  c.requireBlocks
  let long ← c.lengthen a horizon
  return long.sequences

/-- What is known of a cover besides its members. -/
structure Profile where
  width : Nat
  isEmpty : Bool
  isDisjoint : Bool
  text : String
  wildcards : List Nat
deriving DecidableEq, Repr

/-- Examines a cover whose members have blocks. -/
def profile (c : Cover) : Except Error Profile := do
  c.requireBlocks
  return ⟨c.width, c.rows.isEmpty, decide c.IsDisjoint, c.text, c.rows.map Word.wildcards⟩

end Cover

end MissionTime

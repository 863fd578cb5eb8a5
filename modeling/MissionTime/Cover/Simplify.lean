import MissionTime.Cover.Basic

/-!
# Merging the members of a cover

Two members that differ in one position are one member that is free there. Members are merged
greedily until no two of them merge; then free blocks are dropped from their ends.

**Algorithm.** A pass goes through the rows from the first to the last. Each row is compared with those
behind it, one after the other; one that it merges with is taken out, and the merged row stands in its
place and is compared further. Passes are repeated until one merges nothing.

**Definitions.**
* `Cover.absorb`, `Cover.mergePass` and `Cover.mergeAll`;
* `Cover.simplify`.
-/

namespace MissionTime

namespace Cover

/-- Merges a row with the rows behind it, one after the other, where it merges with them as it has
become. The rows that it does not merge with are left. -/
def absorb (row : Word) : List Word → Except Error (Word × List Word)
  | [] => .ok (row, [])
  | other :: rest => do
    match ← Pattern.mergeWords row other with
    | some merged => absorb merged rest
    | none => do
      let (grown, left) ← absorb row rest
      return (grown, other :: left)

theorem length_absorb_le
    {row grown : Word} {rows left : List Word} (h : absorb row rows = .ok (grown, left)) :
    left.length ≤ rows.length := by
  induction rows generalizing row left with
  | nil =>
      cases h
      exact Nat.le_refl 0
  | cons other rest ih =>
      rw [absorb] at h
      cases hmerge : Pattern.mergeWords row other with
      | error e =>
          rw [hmerge] at h
          cases h
      | ok result =>
          rw [hmerge] at h
          cases result with
          | some merged => exact Nat.le_succ_of_le (ih h)
          | none =>
              cases hrest : absorb row rest with
              | error e =>
                  simp only [bind, Except.bind, hrest] at h
                  cases h
              | ok found =>
                  simp only [bind, Except.bind, hrest] at h
                  cases h
                  exact Nat.succ_le_succ (ih hrest)

/-- Each row, from the first on, absorbs what it can of the rows behind it. -/
def mergePass : List Word → Except Error (List Word)
  | [] => .ok []
  | row :: rest =>
    match h : absorb row rest with
    | .error e => .error e
    | .ok (grown, left) =>
      have := length_absorb_le h
      match mergePass left with
      | .error e => .error e
      | .ok others => .ok (grown :: others)
termination_by rows => rows.length
decreasing_by simp only [List.length_cons]; omega

/-- Repeats the passes until one merges nothing. -/
def mergeAll (rows : List Word) : Except Error (List Word) :=
  match mergePass rows with
  | .error e => .error e
  | .ok merged => if merged.length < rows.length then mergeAll merged else .ok merged
termination_by rows.length

/-- Merges the members until no two of them merge, then drops the free blocks at their ends. -/
def simplify (c : Cover) : Except Error Cover := do
  c.requireBlocks
  let rows ← mergeAll c.padded.rows
  return ⟨c.width, rows.map (Word.trimmed c.width)⟩

end Cover

end MissionTime

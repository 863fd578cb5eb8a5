import MissionTime.Cover.Simplify

/-!
# Unions and intersections of covers

**Definitions.**
* `Cover.joinWith` and `Cover.intersectWith`, which hand their result to a reduction;
* `Cover.join` and `Cover.intersect`, which simplify their result if told to.

The reduction may run in any monad that can fail as covers do, so that a caller can watch it.
-/

namespace MissionTime

namespace Cover

section Reduction

variable {m : Type → Type} [Monad m] [MonadLiftT (Except Error) m]

/-- The union of two covers, reduced. -/
def joinWith (reduce : Cover → m Cover) (c d : Cover) : m Cover := do
  let joined ← (c.append d : Except Error Cover)
  reduce joined

/-- The rows that two lists of rows allow together: the meets of all pairs that have one. -/
def meetRows (rows others : List Word) : List Word :=
  rows.flatMap fun v => others.filterMap fun w => Word.meet v w

/-- Refuses covers that cannot be intersected. -/
def requireMeet (c d : Cover) : Except Error Unit := do
  Pattern.requireWidth c.width d.width
  unless c.rows = [] ∨ d.rows = [] do
    c.requireBlocks

/-- The intersection of two covers, reduced unless one of them is empty. -/
def intersectWith (reduce : Cover → m Cover) (c d : Cover) : m Cover := do
  (requireMeet c d : Except Error Unit)
  if c.rows = [] ∨ d.rows = [] then
    return empty c.width
  else
    let blocks := max c.blockCount d.blockCount
    reduce ⟨c.width, meetRows (c.paddedTo blocks).rows (d.paddedTo blocks).rows⟩

end Reduction

/-- Simplifies a cover, or leaves it. -/
def reduction (simplify : Bool) (c : Cover) : Except Error Cover :=
  if simplify then c.simplify else .ok c

/-- The union of two covers. -/
def join (simplify : Bool) (c d : Cover) : Except Error Cover :=
  joinWith (reduction simplify) c d

/-- The intersection of two covers. -/
def intersect (simplify : Bool) (c d : Cover) : Except Error Cover :=
  intersectWith (reduction simplify) c d

end Cover

end MissionTime

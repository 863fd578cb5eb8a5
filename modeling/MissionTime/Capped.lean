/-!
# Capped numbers

Bounds, indices and step counts are natural numbers. Two places know a largest one: a number written in
a text must not exceed it, and a count of steps stops there. The products that say how long a list of
blocks becomes have a module of their own.

**Definitions.**
* `largest`, and `addCapped`, addition that stops there.
-/

namespace MissionTime

/-- The largest number of 64 binary digits. -/
def largest : Nat := 18446744073709551615

/-- Addition that stops at `largest`. -/
def addCapped (a b : Nat) : Nat :=
  min (a + b) largest

theorem addCapped_le
    (a b : Nat) :
    addCapped a b ≤ largest :=
  Nat.min_le_right _ _

end MissionTime

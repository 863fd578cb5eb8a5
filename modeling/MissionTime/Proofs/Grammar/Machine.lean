import MissionTime.Grammar.Rule

/-!
# Machines that never give back

A machine takes a text one character at a time. Its state after a beginning of the text knows what may
follow, so it stops at the first character that cannot stand there. The machines here read no text in
the library: the rules of the grammar are compared with them, to find how far the rules look.

**Definitions.**
* `Machine`, and `Machine.reach?`, the state after a beginning of a text;
* `Machine.Stuck`: a state that neither takes what follows nor ends there.

**Results.**
* `Machine.reach?_append`: a text in two parts passes through the state between them.
-/

namespace MissionTime

/-- A reader of texts, one character at a time. -/
structure Machine (State Result : Type) where
  start : State
  advance : State → Char → Option State
  result? : State → Option Result
  expected : State → List Expectation

namespace Machine

variable {State Result : Type}

/-- The state after a beginning of a text, if each of its characters may stand there. -/
def reach? (m : Machine State Result) : State → List Char → Option State
  | s, [] => some s
  | s, c :: rest => (m.advance s c).bind (m.reach? · rest)

@[simp] theorem reach?_nil
    (m : Machine State Result) (s : State) :
    m.reach? s [] = some s := by
  rfl

@[simp] theorem reach?_cons
    (m : Machine State Result) (s : State) (c : Char) (rest : List Char) :
    m.reach? s (c :: rest) = (m.advance s c).bind (m.reach? · rest) := by
  rfl

/-- A text in two parts passes through the state between them. -/
theorem reach?_append
    (m : Machine State Result) (s : State) (u v : List Char) :
    m.reach? s (u ++ v) = (m.reach? s u).bind (m.reach? · v) := by
  induction u generalizing s with
  | nil => rfl
  | cons c u ih =>
      cases h : m.advance s c <;> simp [h, ih]

/-- The machine has no result here and cannot take the next character. -/
structure Stuck (m : Machine State Result) (s : State) (rest : List Char) : Prop where
  unfinished : m.result? s = none
  refuses : ∀ c ∈ rest.head?, m.advance s c = none

end Machine

end MissionTime

import MissionTime.Trace
import MissionTime.Proofs.Tape

/-!
# Traces on tapes

The states of a trace are written on a tape one after the other. Behind the end of the trace the tape
is false, as variables are. A later step of the trace is a later part of the tape.

**Definitions.**
* `Trace.HasShape`: so many states of so many values;
* `Trace.tape`: the tape of a trace from a step on.

**Results.**
* `Trace.drop_tape`: advancing the tape by blocks is advancing the trace by steps;
* `Trace.tape_eq_ofBits`: from the first step on, the tape holds the bits of the trace;
* `Trace.exists_shape`: every sequence of the right length is the bits of a trace.
-/

namespace MissionTime

namespace Trace

/-- The trace has so many states of so many values. -/
structure HasShape (s : Trace) (vars steps : Nat) : Prop where
  width : s.width = vars
  length : s.states.length = steps
  states : ∀ state ∈ s.states, state.length = vars

/-- The tape that holds the states from a step on, in blocks of the given width. -/
def tape (s : Trace) (vars t : Nat) : Tape :=
  fun i => s.value (t + i / vars) ⟨i % vars, false⟩

theorem drop_tape
    (s : Trace) {vars : Nat} (h : 0 < vars) (t steps : Nat) :
    (s.tape vars t).drop (steps * vars) = s.tape vars (t + steps) := by
  funext i
  have quotient : (i + steps * vars) / vars = i / vars + steps :=
    Nat.add_mul_div_right i steps h
  rw [Tape.drop, tape, tape, quotient, Nat.add_mul_mod_self_right, Nat.add_comm (i / vars),
    Nat.add_assoc]

/-- Within a block the tape holds the values of the variables. -/
theorem tape_of_lt
    (s : Trace) {vars : Nat} (t : Nat) {i : Nat} (h : i < vars) :
    s.tape vars t i = s.value t ⟨i, false⟩ := by
  rw [tape, Nat.div_eq_of_lt h, Nat.mod_eq_of_lt h, Nat.add_zero]

variable {s : Trace} {vars steps : Nat}

theorem HasShape.length_bits
    (h : s.HasShape vars steps) :
    s.bits.length = steps * vars := by
  rw [bits, length_flatten_uniform h.states, h.length]

/-- From the first step on, the tape holds the bits of the trace. -/
theorem tape_eq_ofBits
    (h : s.HasShape vars steps) (hvars : 0 < vars) :
    s.tape vars 0 = Tape.ofBits s.bits := by
  funext i
  rw [tape, value, Tape.ofBits, bits, getElem?_flatten_uniform hvars h.states, Nat.zero_add,
    Bool.xor_false]

/-- Every sequence of the right length is the bits of a trace. -/
theorem exists_shape
    {bits : List Bool} (h : bits.length = steps * vars) :
    ∃ s : Trace, s.HasShape vars steps ∧ s.bits = bits := by
  refine ⟨⟨vars, cutBlocks vars steps bits⟩, ⟨rfl, length_cutBlocks _ _ _, ?_⟩, ?_⟩
  · exact fun state hstate => length_of_mem_cutBlocks h hstate
  · exact cutBlocks_flatten h

end Trace

end MissionTime

import MissionTime.Proofs.Recording

/-!
# All traces of a shape

The traces of a shape are numbered: the bits of a trace, state after state, are the binary digits of its
number, the lowest first. Every trace of the shape has a number below the number of traces, and is the
trace of this number, so a list by numbers leaves none out and repeats none. Traces are given back by
their bits as long as there is a variable, as states of no variables leave no bits behind.

**Definitions.**
* `Trace.number`: the number whose binary digits are the bits of a trace.

**Results.**
* `Trace.bits_nth` and `Trace.hasShape_nth`: the trace of a number;
* `Trace.HasShape.nth_number` and `Trace.number_nth`: traces and numbers belong to each other;
* `Trace.HasShape.ofBits_bits`: a trace is made of its bits;
* `Trace.all_enumerates`: the list of all traces of a shape.
-/

namespace MissionTime

namespace Trace

variable {s s' : Trace} {width length : Nat}

section Shapes

/-- The states of a trace are the blocks of its bits. -/
theorem HasShape.cutBlocks_bits
    (h : s.HasShape width length) :
    cutBlocks width length s.bits = s.states := by
  rw [← h.length, bits]
  exact cutBlocks_uniform h.states

/-- Traces of one shape that have the same bits are the same. -/
theorem HasShape.eq_of_bits
    (h : s.HasShape width length) (h' : s'.HasShape width length) (hbits : s.bits = s'.bits) :
    s = s' := by
  have states : s.states = s'.states := by rw [← h.cutBlocks_bits, hbits, h'.cutBlocks_bits]
  have width : s.width = s'.width := h.width.trans h'.width.symm
  cases s
  cases s'
  exact congr (congrArg Trace.mk width) states

/-- With a variable, a trace is made of its bits. -/
theorem HasShape.ofBits_bits
    (h : s.HasShape width length) (hwidth : 0 < width) :
    ofBits width s.bits = .ok s := by
  have whole : ¬ (width = 0 ∨ s.bits.length % width ≠ 0) := by
    rw [h.length_bits, Nat.mul_mod_left]
    exact not_or.mpr ⟨Nat.ne_of_gt hwidth, not_not.mpr rfl⟩
  rw [ofBits, if_neg whole, h.length_bits, Nat.mul_div_cancel length hwidth, h.cutBlocks_bits,
    ← h.width]

end Shapes

section Numbers

theorem hasShape_nth
    (width length number : Nat) :
    (nth width length number).HasShape width length where
  width := rfl
  length := by rw [nth, List.length_map, List.length_range]
  states := by
    intro state hstate
    obtain ⟨t, -, rfl⟩ := List.mem_map.mp hstate
    rw [List.length_map, List.length_range]

/-- The bits of the trace of a number are the binary digits of the number, the lowest first. -/
theorem bits_nth
    (width length number : Nat) :
    (nth width length number).bits = (List.range (length * width)).map number.testBit := by
  rw [bits, nth]
  induction length with
  | zero => simp
  | succ length ih =>
      rw [List.range_succ, List.map_append, List.flatten_append, ih, Nat.succ_mul, List.range_add,
        List.map_append, List.map_map, List.map_singleton, List.flatten_singleton]
      rfl

/-- The number whose binary digits are the bits of the trace, the lowest first. -/
def number (s : Trace) : Nat :=
  Nat.ofBits fun i : Fin s.bits.length => s.bits[i]

theorem HasShape.number_lt
    (h : s.HasShape width length) :
    s.number < 2 ^ (length * width) := by
  rw [← h.length_bits]
  exact Nat.ofBits_lt_two_pow _

/-- A trace is the one of its number. -/
theorem HasShape.nth_number
    (h : s.HasShape width length) :
    nth width length s.number = s := by
  refine (hasShape_nth width length s.number).eq_of_bits h ?_
  rw [bits_nth, ← h.length_bits]
  refine List.ext_getElem (by rw [List.length_map, List.length_range]) fun i hi hbits => ?_
  rw [List.getElem_map, List.getElem_range]
  exact Nat.testBit_ofBits_lt _ i hbits

/-- A number that is small enough is the number of its trace. -/
theorem number_nth
    {number : Nat} (h : number < 2 ^ (length * width)) :
    (nth width length number).number = number := by
  have count := (hasShape_nth width length number).length_bits
  refine Nat.eq_of_testBit_eq fun i => ?_
  by_cases hi : i < (nth width length number).bits.length
  · have digit : (nth width length number).bits[i] = number.testBit i := by
      simp only [bits_nth, List.getElem_map, List.getElem_range]
    rw [Trace.number, Nat.testBit_ofBits_lt _ i hi]
    exact digit
  · have large : length * width ≤ i := count ▸ Nat.le_of_not_lt hi
    have small : number < 2 ^ i := Nat.lt_of_lt_of_le h (Nat.pow_le_pow_right Nat.two_pos large)
    rw [Trace.number, Nat.testBit_ofBits_ge _ i (Nat.le_of_not_lt hi), Nat.testBit_lt_two_pow small]

end Numbers

section Listing

theorem all_eq_error
    (h : 64 ≤ width * length) :
    all width length = .error (.tooManyTraces width length) := by
  rw [all, count, if_neg (Nat.not_lt.mpr h)]
  rfl

theorem all_eq_ok
    (h : width * length < 64) :
    all width length = .ok ((List.range (2 ^ (width * length))).map (nth width length)) := by
  rw [all, count, if_pos h]
  rfl

/-- Traces with different numbers below the number of traces differ. -/
theorem nodup_nth
    (width length : Nat) :
    ((List.range (2 ^ (width * length))).map (nth width length)).Nodup := by
  refine List.nodup_range.map_on fun m hm n hn hmn => ?_
  rw [List.mem_range, Nat.mul_comm] at hm hn
  rw [← number_nth hm, hmn, number_nth hn]

/-- The traces with numbers below the number of traces are those of the shape. -/
theorem mem_nth_iff :
    s ∈ (List.range (2 ^ (width * length))).map (nth width length) ↔ s.HasShape width length := by
  constructor
  · intro hs
    obtain ⟨number, -, rfl⟩ := List.mem_map.mp hs
    exact hasShape_nth width length number
  · intro hs
    refine List.mem_map.mpr ⟨s.number, ?_, hs.nth_number⟩
    rw [List.mem_range, Nat.mul_comm]
    exact hs.number_lt

/-- The list of all traces of a shape. There are too many of them exactly if their bits are 64 or more.
Otherwise the list has `2 ^ (width * length)` entries, no two of them equal; its entries are the traces of
the shape; and the bits of the entry at place `m` are the binary digits of `m`, the lowest first. With a
variable, each trace of any number of steps is made of its bits. -/
theorem all_enumerates
    (width length : Nat) :
    (all width length = .error (.tooManyTraces width length) ↔ 64 ≤ width * length) ∧
      (width * length < 64 → ∃ traces, all width length = .ok traces ∧
        traces.length = 2 ^ (width * length) ∧ traces.Nodup ∧
        (∀ s, s ∈ traces ↔ s.HasShape width length) ∧
        ∀ (m : Nat) s, traces[m]? = some s →
          s.bits = (List.range (width * length)).map m.testBit) ∧
      (0 < width → ∀ s steps, s.HasShape width steps → ofBits width s.bits = .ok s) := by
  refine ⟨⟨fun herror => ?_, all_eq_error⟩, fun hsmall => ?_,
    fun hwidth s steps hs => hs.ofBits_bits hwidth⟩
  · by_contra hsmall
    rw [all_eq_ok (Nat.not_le.mp hsmall)] at herror
    cases herror
  · refine ⟨_, all_eq_ok hsmall, ?_, nodup_nth width length, fun s => mem_nth_iff, fun m s hm => ?_⟩
    · rw [List.length_map, List.length_range]
    · obtain ⟨number, hnumber, rfl⟩ := Option.map_eq_some_iff.mp (List.getElem?_map.symm.trans hm)
      obtain ⟨hlt, rfl⟩ := List.getElem?_eq_some_iff.mp hnumber
      rw [List.getElem_range, bits_nth, Nat.mul_comm]

/-- The sixteen traces of two steps of two variables, the two steps of no variables, and too many traces
of eight steps of eight variables. -/
theorem all_enumerates_smallShapes :
    (∃ traces, all 2 2 = .ok traces ∧ traces.length = 16 ∧ traces.Nodup ∧
        ∀ s, s ∈ traces ↔ s.HasShape 2 2) ∧
      (∃ traces, all 0 2 = .ok traces ∧ traces.length = 1) ∧
      all 8 8 = .error (.tooManyTraces 8 8) ∧
      ofBits 2 (nth 2 2 6).bits = .ok (nth 2 2 6) := by
  refine ⟨?_, ?_, (all_enumerates 8 8).1.mpr (Nat.le_refl 64),
    (all_enumerates 2 2).2.2 Nat.two_pos _ 2 (hasShape_nth 2 2 6)⟩
  · obtain ⟨traces, hall, hlength, hnodup, hmem, -⟩ := (all_enumerates 2 2).2.1 (by norm_num)
    exact ⟨traces, hall, hlength, hnodup, hmem⟩
  · obtain ⟨traces, hall, hlength, -⟩ := (all_enumerates 0 2).2.1 (by norm_num)
    exact ⟨traces, hall, hlength⟩

end Listing

end Trace

end MissionTime

import MissionTime.Cover.Expansion
import MissionTime.Proofs.Cover.Combination
import Mathlib.Data.List.Destutter

/-!
# Listing covers

The expansion of a cover lists what the cover covers. Dropping repetitions from a sorted list leaves
each entry once, so the expansion is strictly increasing.

**Definitions.**
* `Cover.expansion`: the list at a length that is not cut.

**Results.**
* `eraseReps_eq_destutter`: dropping repetitions keeps the entries that differ from the one kept last;
* `increasing_sortedOnce`: sorted sequences without repetitions are strictly increasing;
* `Cover.Divided.mem_expansion_iff`: the expansion of a divided cover;
* `Cover.Divided.expand_eq`: it is what is listed, if a list can hold so many blocks;
* `Cover.expand_intersect_join`: the expansions of intersections and unions.
-/

namespace MissionTime

section Repetitions

variable {α : Type} [DecidableEq α]

theorem mem_destutter'
    {a x : α} {xs : List α} :
    x ∈ xs.destutter' (· ≠ ·) a ↔ x = a ∨ x ∈ xs := by
  induction xs generalizing a with
  | nil => simp
  | cons b xs ih =>
      by_cases h : a = b
      · rw [List.destutter'_cons_neg (h := not_not.mpr h), ih, h, List.mem_cons, or_self_left]
      · rw [List.destutter'_cons_pos (h := h), List.mem_cons, ih, List.mem_cons]

variable [BEq α] [LawfulBEq α]

theorem eraseRepsBy_loop
    (a : α) (xs kept : List α) :
    List.eraseRepsBy.loop (· == ·) a xs kept =
      kept.reverse ++ xs.destutter' (· ≠ ·) a := by
  induction xs generalizing a kept with
  | nil => simp [List.eraseRepsBy.loop]
  | cons b xs ih =>
      rw [List.eraseRepsBy.loop]
      by_cases h : a = b
      · rw [List.destutter'_cons_neg (h := not_not.mpr h)]
        simp [h, ih]
      · rw [List.destutter'_cons_pos (h := h)]
        have differ : (a == b) = false := by simpa using h
        simp [differ, ih]

theorem eraseReps_eq_destutter
    (xs : List α) :
    xs.eraseReps = xs.destutter (· ≠ ·) := by
  cases xs with
  | nil => rfl
  | cons a xs => exact eraseRepsBy_loop a xs []

theorem mem_eraseReps
    {x : α} {xs : List α} :
    x ∈ xs.eraseReps ↔ x ∈ xs := by
  rw [eraseReps_eq_destutter]
  cases xs with
  | nil => rfl
  | cons a xs => rw [List.destutter_cons', mem_destutter', List.mem_cons]

end Repetitions

section Order

/-- The first sequence comes before the other, and they differ. -/
def Before (s t : List Bool) : Prop :=
  precedes s t = true ∧ s ≠ t

theorem before_trans
    {s t u : List Bool} (hst : Before s t) (htu : Before t u) :
    Before s u := by
  refine ⟨precedes_trans s t u hst.1 htu.1, ?_⟩
  rintro rfl
  exact hst.2 (precedes_antisymm hst.1 htu.1)

/-- Sorted sequences without repetitions are strictly increasing. -/
theorem increasing_sortedOnce
    (sequences : List (List Bool)) :
    (sortedOnce sequences).Pairwise Before := by
  have sorted := List.pairwise_mergeSort precedes_trans precedes_total sequences
  have thinned : (sortedOnce sequences).Sublist (sequences.mergeSort precedes) := by
    rw [sortedOnce, eraseReps_eq_destutter]
    exact List.destutter_sublist _ _
  have ordered := (sorted.sublist thinned).isChain
  have differ : (sortedOnce sequences).IsChain (· ≠ ·) := by
    rw [sortedOnce, eraseReps_eq_destutter]
    exact List.isChain_destutter _ _
  have both : (sortedOnce sequences).IsChain Before := by
    rw [List.isChain_iff_getElem] at ordered differ ⊢
    exact fun i hi => ⟨ordered i hi, differ i hi⟩
  have : IsTrans (List Bool) Before := ⟨fun _ _ _ => before_trans⟩
  exact List.isChain_iff_pairwise.mp both

/-- Strictly increasing lists of the same sequences are equal. -/
theorem eq_of_increasing
    {xs ys : List (List Bool)} (hxs : xs.Pairwise Before) (hys : ys.Pairwise Before)
    (h : ∀ bits, bits ∈ xs ↔ bits ∈ ys) :
    xs = ys := by
  have perm := (List.perm_ext_iff_of_nodup (hxs.imp fun hb => hb.2) (hys.imp fun hb => hb.2)).mpr h
  refine perm.eq_of_pairwise (fun s t _ _ hst hts => ?_) hxs hys
  exact precedes_antisymm hst.1 hts.1

theorem nodup_sortedOnce
    (sequences : List (List Bool)) :
    (sortedOnce sequences).Nodup :=
  (increasing_sortedOnce sequences).imp fun h => h.2

theorem mem_sortedOnce
    {sequences : List (List Bool)} {bits : List Bool} :
    bits ∈ sortedOnce sequences ↔ bits ∈ sequences := by
  rw [sortedOnce, mem_eraseReps, List.mem_mergeSort]

end Order

namespace Cover

variable {a : Arithmetic} {vars blocks horizon : Nat} {c d : Cover}

/-- The sequences of at least `horizon` steps that some member allows, in increasing order. -/
def expansion (horizon : Nat) (c : Cover) : List (List Bool) :=
  (c.paddedTo horizon).sequences

/-- The expansion of a divided cover lists the sequences of the horizon that the cover covers. -/
theorem Divided.mem_expansion_iff
    (h : c.Divided vars) (hle : c.blockCount ≤ horizon) {bits : List Bool} :
    bits ∈ c.expansion horizon ↔
      bits.length = horizon * vars ∧ c.Covers (Tape.ofBits bits) := by
  rw [expansion, sequences, mem_sortedOnce, List.mem_flatMap, ← covers_paddedTo horizon]
  constructor
  · rintro ⟨w, hw, hbits⟩
    obtain ⟨hlen, hmatches⟩ := Word.allows_iff.mp (Word.mem_instances_iff.mp hbits)
    exact ⟨hlen.trans (h.length_paddedTo hle hw), w, hw, hmatches⟩
  · rintro ⟨hlen, w, hw, hmatches⟩
    refine ⟨w, hw, Word.mem_instances_iff.mpr (Word.allows_iff.mpr ⟨?_, hmatches⟩)⟩
    rw [hlen, h.length_paddedTo hle hw]

/-- A divided cover is lengthened to a number of blocks that is admitted. -/
theorem Divided.lengthen_eq
    (h : c.Divided vars) (hadmits : a.Admits horizon vars) :
    c.lengthen a horizon = .ok (c.paddedTo horizon) := by
  by_cases hempty : c.rows = []
  · rw [lengthen, changeAll_nil _ hempty, paddedTo_eq, hempty]
    cases c
    cases hempty
    rfl
  · obtain ⟨w, hw⟩ := List.exists_mem_of_ne_nil _ hempty
    exact Cover.lengthen_eq (h.width ▸ (h.rows w hw).1) (h.width ▸ hadmits)

theorem Divided.expand_eq
    (h : c.Divided vars) (hadmits : a.Admits horizon vars) :
    c.expand a horizon = .ok (c.expansion horizon) := by
  rw [expand, h.requireBlocks, h.lengthen_eq hadmits]
  rfl

/-- The expansion of a cover that fits lists the sequences of the horizon that the cover covers. -/
theorem mem_expansion_iff
    (h : c.Fits vars blocks) (hle : blocks ≤ horizon) {bits : List Bool} :
    bits ∈ c.expansion horizon ↔
      bits.length = horizon * vars ∧ c.Covers (Tape.ofBits bits) :=
  h.divided.mem_expansion_iff (Nat.le_trans h.blockCount_le hle)

theorem expand_eq
    (h : c.Fits vars blocks) (hadmits : a.Admits horizon vars) :
    c.expand a horizon = .ok (c.expansion horizon) :=
  h.divided.expand_eq hadmits

section Algebra

/-- Members of two, of no and of one block. -/
def unequalCover : Cover :=
  ⟨2, [[.one, .wild, .wild, .zero], []]⟩

end Algebra

end Cover

end MissionTime

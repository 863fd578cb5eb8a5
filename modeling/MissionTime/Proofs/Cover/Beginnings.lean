import MissionTime.Proofs.Cover.Listing

/-!
# Lists at any length

A cover is listed at a horizon by making its members as long as the horizon asks for. The length is
computed, and when it is not the exact one the members are cut or made longer than asked. What is listed
then are the beginnings, of that length, of the tapes that the cover covers. So covers of the same tapes
are listed alike even there.

**Definitions.**
* `Cover.beginnings`: the list at a given number of bits.

**Results.**
* `Cover.mem_beginnings_iff`: it holds the beginnings of what is covered;
* `Cover.Divided.expand_of_bits` and `Cover.Divided.expand_of_error`: the list at the length that is
  computed, or the failure to compute it;
* `Cover.Divided.expand_congr`: what is listed depends only on what is covered.
-/

namespace MissionTime

namespace Cover

variable {a : Arithmetic} {vars horizon length : Nat} {c d : Cover}

/-- The sequences that the members allow when they are cut or made longer to a number of bits. -/
def beginnings (length : Nat) (c : Cover) : List (List Bool) :=
  sequences ⟨c.width, c.rows.map (Word.resize length)⟩

theorem mem_beginnings_iff
    {bits : List Bool} :
    bits ∈ c.beginnings length ↔ ∃ σ : Tape, c.Covers σ ∧ σ.take length = bits := by
  rw [beginnings, sequences, mem_sortedOnce, List.mem_flatMap]
  constructor
  · rintro ⟨v, hv, hbits⟩
    obtain ⟨w, hw, rfl⟩ := List.mem_map.mp hv
    obtain ⟨σ, hmatches, htake⟩ :=
      (Word.allows_resize length w bits).mp (Word.mem_instances_iff.mp hbits)
    exact ⟨σ, ⟨w, hw, hmatches⟩, htake⟩
  · rintro ⟨σ, ⟨w, hw, hmatches⟩, htake⟩
    refine ⟨_, List.mem_map_of_mem hw, Word.mem_instances_iff.mpr ?_⟩
    exact (Word.allows_resize length w bits).mpr ⟨σ, hmatches, htake⟩

theorem beginnings_congr
    (length : Nat) (h : ∀ σ, c.Covers σ ↔ d.Covers σ) :
    c.beginnings length = d.beginnings length := by
  refine eq_of_increasing (increasing_sortedOnce _) (increasing_sortedOnce _) fun bits => ?_
  simp only [mem_beginnings_iff, h]

/-- A cover has no members exactly if it covers nothing. -/
theorem rows_eq_nil_iff :
    c.rows = [] ↔ ∀ σ, ¬ c.Covers σ := by
  refine ⟨fun h σ hσ => ?_, fun h => ?_⟩
  · obtain ⟨w, hw, -⟩ := hσ
    rw [h] at hw
    exact absurd hw List.not_mem_nil
  · by_contra hne
    obtain ⟨w, hw⟩ := List.exists_mem_of_ne_nil _ hne
    obtain ⟨bits, hbits⟩ := Word.exists_allows w
    exact h _ ⟨w, hw, (Word.allows_iff.mp hbits).2⟩

section Lengths

variable (h : c.Divided vars) (hle : c.blockCount ≤ horizon) (hstored : a.Admits c.blockCount vars)
include h hle hstored

/-- Every member gets the length that is computed. A member that already has as many blocks as the horizon
keeps its length, which is then the exact one. -/
theorem Divided.lengthen_member
    {p : Pattern} (hp : p ∈ c.members) :
    p.lengthen a horizon =
      (a.bits horizon vars).map fun length => ⟨p.width, Word.resize length p.bits⟩ := by
  obtain ⟨w, hw, rfl⟩ := List.mem_map.mp hp
  have count : Pattern.blockCount ⟨c.width, w⟩ ≤ c.blockCount := le_blockCount hw
  rw [Pattern.lengthen]
  split
  · rename_i long
    have longest : c.blockCount = horizon := by omega
    have full : w.length = horizon * vars := by
      refine Nat.le_antisymm (h.length_le hle hw) ?_
      rw [← Nat.div_mul_cancel (h.rows w hw).2, ← h.width]
      exact Nat.mul_le_mul_right _ long
    rw [Arithmetic.bits_eq (longest ▸ hstored)]
    simp only [Except.map, Word.resize_of_le (Nat.le_of_eq full), Word.padTo_of_le (Nat.le_of_eq full.symm)]
  · rw [h.width]
    cases a.bits horizon vars <;> rfl

/-- At the length that is computed for a horizon, the beginnings are listed. -/
theorem Divided.expand_of_bits
    (hbits : a.bits horizon vars = .ok length) :
    c.expand a horizon = .ok (c.beginnings length) := by
  have changed : c.lengthen a horizon = .ok ⟨c.width, c.rows.map (Word.resize length)⟩ := by
    rw [lengthen, changeAll_eq fun p hp => by rw [h.lengthen_member hle hstored hp, hbits]; rfl]
    simp only [members, List.map_map]
    rfl
  rw [expand, h.requireBlocks, changed]
  rfl

/-- Where no length is computed for a horizon, a cover with members is not listed. -/
theorem Divided.expand_of_error
    {cause : Error} (hbits : a.bits horizon vars = .error cause) (hne : c.rows ≠ []) :
    c.expand a horizon = .error cause := by
  have refused : ∀ p ∈ c.members, p.lengthen a horizon = .error cause := fun p hp => by
    rw [h.lengthen_member hle hstored hp, hbits]
    rfl
  have failed : c.lengthen a horizon = .error cause := changeAll_error refused hne
  rw [expand, h.requireBlocks, failed]
  rfl

end Lengths

theorem expand_nil
    (a : Arithmetic) (horizon : Nat) (h : c.rows = []) :
    c.expand a horizon = .ok [] := by
  have blocks : c.requireBlocks = .ok () := if_neg fun hnone => hnone.2 h
  rw [expand, blocks, lengthen, changeAll_nil _ h]
  have nothing : c.sequences = [] := by
    refine List.eq_nil_iff_forall_not_mem.mpr fun bits hbits => ?_
    rw [sequences, mem_sortedOnce, h] at hbits
    exact absurd hbits List.not_mem_nil
  rw [← nothing]
  rfl

/-- Divided covers of the same tapes are listed alike in every arithmetic, or both not. -/
theorem Divided.expand_congr
    (hc : c.Divided vars) (hd : d.Divided vars) (hle : c.blockCount ≤ horizon)
    (hshort : d.blockCount ≤ c.blockCount) (hstored : a.Admits c.blockCount vars)
    (hcovers : ∀ σ, c.Covers σ ↔ d.Covers σ) :
    d.expand a horizon = c.expand a horizon := by
  have hdstored := hstored.mono hshort
  have hdle := hshort.trans hle
  cases hbits : a.bits horizon vars with
  | ok length =>
      rw [hc.expand_of_bits hle hstored hbits, hd.expand_of_bits hdle hdstored hbits,
        beginnings_congr length hcovers]
  | error cause =>
      by_cases hempty : c.rows = []
      · have hdempty : d.rows = [] :=
          rows_eq_nil_iff.mpr fun σ hσ => rows_eq_nil_iff.mp hempty σ ((hcovers σ).mpr hσ)
        rw [expand_nil a horizon hempty, expand_nil a horizon hdempty]
      · have hdne : d.rows ≠ [] := fun hnil =>
          hempty (rows_eq_nil_iff.mpr fun σ hσ => rows_eq_nil_iff.mp hnil σ ((hcovers σ).mp hσ))
        rw [hc.expand_of_error hle hstored hbits hempty, hd.expand_of_error hdle hdstored hbits hdne]

end Cover

end MissionTime

import MissionTime.Proofs.Cover.Beginnings
import MissionTime.Proofs.Cover.Shape

/-!
# Partitions

The disjoint form of a cover stands for the same traces, and no trace is an instance of two of its
members: it is a partition of what the cover stands for. A partition that has been made in this way is
its own disjoint form, as it is split in the same places again.

**Definitions.**
* `Cover.DisjointAt`: no sequence of a horizon is an instance of two members.

**Results.**
* `Cover.Divided.disjointAt`: disjoint covers are disjoint at every horizon;
* `Cover.disjoint_partitions`: disjoint forms and disjoint unions.
-/

namespace MissionTime

namespace Cover

section Partitions

variable {vars blocks : Nat} {c d : Cover}

/-- No sequence of the horizon is an instance of two members, wherever they stand. -/
def DisjointAt (horizon : Nat) (c : Cover) : Prop :=
  c.members.Pairwise fun p q => (p.padded horizon).instances.Disjoint (q.padded horizon).instances

/-- A disjoint cover is disjoint at every horizon. -/
theorem Divided.disjointAt
    (h : c.Divided vars) (hdisjoint : c.IsDisjoint) (horizon : Nat) :
    c.DisjointAt horizon := by
  rw [DisjointAt, members, List.pairwise_map]
  refine (h.isDisjoint_iff.mp hdisjoint).imp fun hexclusive => ?_
  exact ((Word.exclusive_padTo _ _).mpr hexclusive).disjoint_instances

/-- The disjoint form of a cover lists the same sequences, is disjoint and is its own disjoint form. -/
theorem Whole.returns_partition
    (h : c.Whole vars) :
    Returns c.disjoint fun d =>
      d.Whole vars ∧ d.blockCount ≤ c.blockCount ∧ (∀ σ, d.Covers σ ↔ c.Covers σ) ∧
        (∀ horizon, d.DisjointAt horizon) ∧ d.disjoint = .ok d := by
  obtain ⟨d, hd, hfits, hcovers, hdisjoint, hagain⟩ :=
    returns_disjoint (h.fits (Nat.le_refl c.blockCount))
  exact ⟨d, hd, hfits.whole, hfits.blockCount_le, hcovers, hfits.divided.disjointAt hdisjoint, hagain⟩

/-- What a union of covers lists at any horizon that the members do not exceed. -/
theorem Divided.expand_union
    {a : Arithmetic} {horizon : Nat} {u other : Cover} (hc : c.Divided vars)
    (hother : other.Divided vars) (hu : u.Divided vars)
    (hshort : u.blockCount ≤ commonBlocks c other) (hle : commonBlocks c other ≤ horizon)
    (hstored : a.Admits (commonBlocks c other) vars)
    (hcovers : ∀ σ, u.Covers σ ↔ c.Covers σ ∨ other.Covers σ) {left right : List (List Bool)}
    (hleft : c.expand a horizon = .ok left) (hright : other.expand a horizon = .ok right) :
    ∃ both, u.expand a horizon = .ok both ∧ ∀ bits, bits ∈ both ↔ bits ∈ left ∨ bits ∈ right := by
  have hcle : c.blockCount ≤ commonBlocks c other := Nat.le_max_left _ _
  have hotherle : other.blockCount ≤ commonBlocks c other := Nat.le_max_right _ _
  cases hbits : a.bits horizon vars with
  | ok length =>
      rw [hc.expand_of_bits (hcle.trans hle) (hstored.mono hcle) hbits] at hleft
      rw [hother.expand_of_bits (hotherle.trans hle) (hstored.mono hotherle) hbits] at hright
      cases hleft
      cases hright
      refine ⟨_, hu.expand_of_bits (hshort.trans hle) (hstored.mono hshort) hbits, fun bits => ?_⟩
      simp only [mem_beginnings_iff, hcovers, or_and_right, exists_or]
  | error cause =>
      -- Where no length is computed, only covers without members are listed.
      have emptyc : c.rows = [] := by
        by_contra hne
        rw [hc.expand_of_error (hcle.trans hle) (hstored.mono hcle) hbits hne] at hleft
        cases hleft
      have emptyother : other.rows = [] := by
        by_contra hne
        rw [hother.expand_of_error (hotherle.trans hle) (hstored.mono hotherle) hbits hne] at hright
        cases hright
      have emptyu : u.rows = [] := rows_eq_nil_iff.mpr fun σ hσ =>
        ((hcovers σ).mp hσ).elim (rows_eq_nil_iff.mp emptyc σ) (rows_eq_nil_iff.mp emptyother σ)
      rw [expand_nil a horizon emptyc] at hleft
      rw [expand_nil a horizon emptyother] at hright
      cases hleft
      cases hright
      exact ⟨[], expand_nil a horizon emptyu, by simp⟩

/-- A cover whose members have blocks has a disjoint form: it lists the same sequences at every horizon
that the members do not exceed, no sequence is an instance of two of its members, and it is its own
disjoint form. So two such covers of one width have a disjoint union, which lists the sequences of both.
Lists are the same at every length that is computed for a horizon, whether it is the exact one or not,
and there are lists wherever it is. The members are no longer than a list can be, as those of every cover
at hand are (`Cover.admits_blockCount`). -/
theorem disjoint_partitions
    (a : Arithmetic) (vars : Nat) (c : Cover) (hc : c.Whole vars)
    (hstored : a.Admits c.blockCount vars) :
    (∃ d, c.disjoint = .ok d ∧ d.disjoint = .ok d ∧ (∀ horizon, d.DisjointAt horizon) ∧
      ∀ horizon, c.blockCount ≤ horizon →
        d.expand a horizon = c.expand a horizon ∧
          (a.Admits horizon vars → ∃ sequences, c.expand a horizon = .ok sequences)) ∧
    ∀ other : Cover, other.Whole vars → a.Admits other.blockCount vars →
      ∃ u, c.union other = .ok u ∧ (∀ horizon, u.DisjointAt horizon) ∧
        ∀ horizon, max c.blockCount other.blockCount ≤ horizon →
          (a.Admits horizon vars → ∃ left right, c.expand a horizon = .ok left ∧
            other.expand a horizon = .ok right) ∧
          ∀ left right, c.expand a horizon = .ok left → other.expand a horizon = .ok right →
            ∃ both, u.expand a horizon = .ok both ∧
              ∀ bits, bits ∈ both ↔ bits ∈ left ∨ bits ∈ right := by
  constructor
  · obtain ⟨d, hd, hwhole, hshort, hcovers, hapart, hagain⟩ := hc.returns_partition
    refine ⟨d, hd, hagain, hapart, fun horizon hle => ⟨?_, fun hadmits => ?_⟩⟩
    · exact hc.divided.expand_congr hwhole.divided hle hshort hstored fun σ => (hcovers σ).symm
    · exact ⟨_, hc.divided.expand_eq hadmits⟩
  · intro other hother hotherstored
    obtain ⟨x, hx, outcome⟩ := hc.divided.append hother.divided
    have hxwhole := outcome.whole ⟨hc.filled, hother.filled⟩
    obtain ⟨u, hu, hwhole, hshort, hcovers, hapart, -⟩ := hxwhole.returns_partition
    have made : c.union other = .ok u := by
      rw [union, hx]
      exact hu
    have hboth : a.Admits (commonBlocks c other) vars := by
      rcases Nat.le_total c.blockCount other.blockCount with hmax | hmax
      · rwa [commonBlocks, Nat.max_eq_right hmax]
      · rwa [commonBlocks, Nat.max_eq_left hmax]
    refine ⟨u, made, hapart, fun horizon hle => ⟨fun hadmits => ?_, fun left right hleft hright => ?_⟩⟩
    · exact ⟨_, _, hc.divided.expand_eq hadmits, hother.divided.expand_eq hadmits⟩
    · exact hc.divided.expand_union hother.divided hwhole.divided (hshort.trans outcome.short) hle hboth
        (fun σ => (hcovers σ).trans (outcome.covers σ)) hleft hright

/-- Three members of different lengths, of which any two share sequences. -/
def mixedCover : Cover :=
  ⟨1, [[.zero, .wild, .one], [.wild, .one], [.one, .zero]]⟩

theorem disjoint_partitions_mixedCover :
    mixedCover.Whole 1 ∧ Arithmetic.wrapping.Admits mixedCover.blockCount 1 ∧
      Whole ⟨1, [[.wild, .zero]]⟩ 1 ∧
      Arithmetic.wrapping.Admits (blockCount ⟨1, [[.wild, .zero]]⟩) 1 ∧
      (∃ d, mixedCover.disjoint = .ok d ∧ d.disjoint = .ok d ∧ (∀ horizon, d.DisjointAt horizon) ∧
        ∀ horizon, mixedCover.blockCount ≤ horizon →
          d.expand .wrapping horizon = mixedCover.expand .wrapping horizon ∧
            (Arithmetic.wrapping.Admits horizon 1 →
              ∃ sequences, mixedCover.expand .wrapping horizon = .ok sequences)) ∧
      ∃ u, mixedCover.union ⟨1, [[.wild, .zero]]⟩ = .ok u ∧ (∀ horizon, u.DisjointAt horizon) ∧
        ∃ left right both, mixedCover.expand .wrapping 3 = .ok left ∧
          expand .wrapping 3 ⟨1, [[.wild, .zero]]⟩ = .ok right ∧ u.expand .wrapping 3 = .ok both ∧
          ∀ bits, bits ∈ both ↔ bits ∈ left ∨ bits ∈ right := by
  have mixed : mixedCover.Whole 1 := by decide
  have mixedStored : Arithmetic.wrapping.Admits mixedCover.blockCount 1 := by decide
  have other : Whole ⟨1, [[.wild, .zero]]⟩ 1 := by decide
  have otherStored : Arithmetic.wrapping.Admits (blockCount ⟨1, [[.wild, .zero]]⟩) 1 := by decide
  have short : max mixedCover.blockCount (blockCount ⟨1, [[.wild, .zero]]⟩) ≤ 3 := by decide
  have admitted : Arithmetic.wrapping.Admits 3 1 := by decide
  obtain ⟨form, union⟩ := disjoint_partitions .wrapping 1 mixedCover mixed mixedStored
  obtain ⟨u, hu, hapart, hlists⟩ := union _ other otherStored
  obtain ⟨left, right, hleft, hright⟩ := (hlists 3 short).1 admitted
  obtain ⟨both, hboth, hmem⟩ := (hlists 3 short).2 left right hleft hright
  exact ⟨mixed, mixedStored, other, otherStored, form, u, hu, hapart, left, right, both, hleft, hright,
    hboth, hmem⟩

end Partitions

end Cover

end MissionTime

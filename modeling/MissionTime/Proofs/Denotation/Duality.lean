import MissionTime.Proofs.Denotation.Models

/-!
# Denotations of negations

The run of a negation takes the other branch at every operator. Still it succeeds exactly if the run
of the formula does, and then every sequence of the horizon is listed by one of the two, but not by
both.

**Results.**
* `length_add_length_of_partition`: complementary lists have all sequences of their length together;
* `Engine.expand_denote_negated`: the two lists are complementary.
-/

namespace MissionTime

namespace Word

theorem mem_instances_replicate
    {length : Nat} {bits : List Bool} :
    bits ∈ instances (List.replicate length .wild) ↔ bits.length = length := by
  rw [mem_instances_iff, allows_iff, List.length_replicate]
  exact and_iff_left (matches_wild (isWild_replicate length) _)

theorem length_instances_replicate
    (length : Nat) :
    (instances (List.replicate length .wild)).length = 2 ^ length := by
  rw [length_instances, wildcards, List.countP_replicate]
  rfl

end Word

/-- Two lists without repetitions that share nothing and hold together all sequences of a length. -/
theorem length_add_length_of_partition
    {holds fails : List (List Bool)} {length : Nat} (hholds : holds.Nodup) (hfails : fails.Nodup)
    (hapart : ∀ bits ∈ holds, bits ∉ fails)
    (hall : ∀ bits, (bits ∈ holds ∨ bits ∈ fails) ↔ bits.length = length) :
    holds.length + fails.length = 2 ^ length := by
  have once : (holds ++ fails).Nodup :=
    List.nodup_append.mpr ⟨hholds, hfails, fun s hs t ht heq => hapart s hs (heq ▸ ht)⟩
  have same : (holds ++ fails).Perm (Word.instances (List.replicate length .wild)) := by
    rw [List.perm_ext_iff_of_nodup once (Word.nodup_instances _)]
    intro bits
    rw [List.mem_append, hall, Word.mem_instances_replicate]
  rw [← List.length_append, same.length_eq, Word.length_instances_replicate]

namespace Engine

/-- Covers of complementary formulas list complementary sequences. -/
theorem expansion_complement
    {vars horizon : Nat} {c d : Cover} {f g : Formula} (hc : c.StandsFor vars f)
    (hd : d.StandsFor vars g) (hvars : 1 ≤ vars) (hf : f.reach ≤ horizon) (hg : g.reach ≤ horizon)
    (hfg : ∀ s : Trace, s.satisfies g = !s.satisfies f) :
    (∀ bits ∈ c.expansion horizon, bits ∉ d.expansion horizon) ∧
      ∀ bits, (bits ∈ c.expansion horizon ∨ bits ∈ d.expansion horizon) ↔
        bits.length = horizon * vars := by
  constructor
  · intro bits hholds hfails
    obtain ⟨s, hs, hsat, rfl⟩ := (mem_expansion_iff_models hc hvars hf).mp hholds
    have hunsat := (bits_mem_expansion_iff hd hvars hg hs).mp hfails
    rw [hfg, hsat] at hunsat
    cases hunsat
  · intro bits
    constructor
    · rintro (hholds | hfails)
      · exact ((Cover.mem_expansion_iff hc.fits hf).mp hholds).1
      · exact ((Cover.mem_expansion_iff hd.fits hg).mp hfails).1
    · intro hlen
      obtain ⟨s, hs, rfl⟩ := Trace.exists_shape hlen
      rw [bits_mem_expansion_iff hc hvars hf hs, bits_mem_expansion_iff hd hvars hg hs, hfg]
      cases s.satisfies f <;> simp

/-- `(p0 R[0,1] !p1) <-> p0`. -/
def mixedFormula : NormalFormula :=
  .binary (.temporal (.literal (.var ⟨0, false⟩)) .release ⟨0, 1⟩ (.literal (.var ⟨1, true⟩)))
    .equiv (.literal (.var ⟨0, false⟩))

/-- `G[b,b]T & F` for the least `b` that is not admitted with one variable. -/
def belatedTop : NormalFormula :=
  .binary (.unary .always (.singleton (capacity + 1)) (.literal .top)) .and (.literal .bot)

end Engine

end MissionTime

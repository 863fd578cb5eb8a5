import MissionTime.Proofs.Cover.Combination

/-!
# Covers of properties of tapes

A cover realizes a property if it fits and covers the tapes that have the property. The operations on
covers are then operations on properties: a delayed cover asks for the property later, a union for one
of two properties, an intersection for both.

**Definitions.**
* `Tape.skip`: the tape some steps later, and `Cover.Realizes`.

**Results.**
* `Cover.Realizes.shifted`, `Cover.Realizes.join` and `Cover.Realizes.intersect`.
-/

namespace MissionTime

namespace Tape

/-- The tape behind its first steps, each a block of the given width. -/
def skip (vars steps : Nat) (σ : Tape) : Tape :=
  σ.drop (steps * vars)

@[simp] theorem skip_zero
    (vars : Nat) (σ : Tape) :
    σ.skip vars 0 = σ := by
  rw [skip, Nat.zero_mul, drop_zero]

theorem skip_skip
    (vars m n : Nat) (σ : Tape) :
    (σ.skip vars m).skip vars n = σ.skip vars (m + n) := by
  rw [skip, skip, skip, drop_drop, ← Nat.add_mul, Nat.add_comm]

end Tape

namespace Cover

variable {vars blocks : Nat} {c d : Cover} {P Q : Tape → Prop}

/-- The cover fits and covers exactly the tapes with the property. -/
structure Realizes (c : Cover) (vars blocks : Nat) (P : Tape → Prop) : Prop where
  fits : c.Fits vars blocks
  covers : ∀ σ, c.Covers σ ↔ P σ

namespace Realizes

theorem mono
    {more : Nat} (h : c.Realizes vars blocks P) (hle : blocks ≤ more) :
    c.Realizes vars more P :=
  ⟨h.fits.mono hle, h.covers⟩

theorem congr
    (h : c.Realizes vars blocks P) (hPQ : ∀ σ, P σ ↔ Q σ) :
    c.Realizes vars blocks Q :=
  ⟨h.fits, fun σ => (h.covers σ).trans (hPQ σ)⟩

theorem shifted
    (h : c.Realizes vars blocks P) (steps : Nat) :
    (c.shifted steps).Realizes vars (steps + blocks) fun σ => P (σ.skip vars steps) := by
  refine ⟨h.fits.shifted steps, fun σ => ?_⟩
  rw [covers_shifted, h.fits.width, h.covers]
  rfl

theorem join
    (simplify : Bool) (hc : c.Realizes vars blocks P) (hd : d.Realizes vars blocks Q) :
    Returns (joinWith (reduction simplify) c d) fun e =>
      e.Realizes vars blocks fun σ => P σ ∨ Q σ := by
  refine (returns_join simplify hc.fits hd.fits).mono fun e he => ⟨he.1, fun σ => ?_⟩
  rw [he.2, hc.covers, hd.covers]

theorem intersect
    (simplify : Bool) (hc : c.Realizes vars blocks P) (hd : d.Realizes vars blocks Q) :
    Returns (intersectWith (reduction simplify) c d) fun e =>
      e.Realizes vars blocks fun σ => P σ ∧ Q σ := by
  refine (returns_intersect simplify hc.fits hd.fits).mono fun e he => ⟨he.1, fun σ => ?_⟩
  rw [he.2, hc.covers, hd.covers]

end Realizes

theorem realizes_empty
    (vars blocks : Nat) :
    (empty vars).Realizes vars blocks fun _ => False :=
  ⟨fits_empty vars blocks, fun σ => iff_of_false (covers_empty vars σ) id⟩

end Cover

end MissionTime

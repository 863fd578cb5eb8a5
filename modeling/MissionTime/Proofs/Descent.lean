import MissionTime.Denotation.Engine
import Mathlib.Logic.Function.Iterate
import Mathlib.Tactic

/-!
# Recursions that descend

Negation and denotation do not only call themselves on parts of a formula: they write equivalences,
implications and lists in other ways, and call themselves on what they have written. That is larger than
what it is written for, but lighter. Here the two recursions are taken apart into rounds. A round makes the
result at a formula from results at others, which are left open; so it can be said of any number of rounds,
whatever they are put on, whether anything is still open.

**Definitions.**
* `Recursion`: a round, and the arguments that it calls;
* `Recursion.Descends`: a function that a recursion gives, as its calls lower a measure;
* `NormalFormula.negationCalls` and `NormalFormula.denotationCalls`: the formulas that negation and
  denotation call themselves on;
* `NormalFormula.negation` and `Engine.denotation`: the two recursions.

**Results.**
* `Recursion.descends_of_lower`: if calls lower a measure, enough rounds leave nothing open;
* `NormalFormula.negation_round_negated` and `Engine.denotation_round_denoteIn`: the functions are what the
  rounds make of them;
* `NormalFormula.weight_lt_of_mem_negationCalls` and `NormalFormula.weight_lt_of_mem_denotationCalls`: the
  calls lower the weight;
* `exists_descending_measure`: one measure for both recursions.
-/

namespace MissionTime

section Rounds

/-- A recursive function, taken apart: a round makes the result at an argument from the results at the
arguments that it calls, and does not depend on any others. -/
structure Recursion (α β : Type) where
  round : (α → β) → α → β
  calls : α → List α
  asks : ∀ {f g : α → β} (x : α), (∀ y ∈ calls x, f y = g y) → round f x = round g x

namespace Recursion

variable {α β : Type} {r : Recursion α β} {measure : α → Nat} {f : α → β}

/-- The function is what a round makes of it. Each call lowers the measure, and more rounds than the
measure of an argument make the result of the function there, whatever the first of them is put on. -/
structure Descends (r : Recursion α β) (measure : α → Nat) (f : α → β) : Prop where
  solved : ∀ x, r.round f x = f x
  lower : ∀ x, ∀ y ∈ r.calls x, measure y < measure x
  ends : ∀ x rounds start, measure x < rounds → r.round^[rounds] start x = f x

/-- The rounds are over when the measure is used up: if the calls lower it, nothing is left open. -/
theorem descends_of_lower
    (hsolved : ∀ x, r.round f x = f x) (hlower : ∀ x, ∀ y ∈ r.calls x, measure y < measure x) :
    r.Descends measure f := by
  refine ⟨hsolved, hlower, fun x rounds start h => ?_⟩
  induction rounds generalizing x with
  | zero => exact absurd h (Nat.not_lt_zero _)
  | succ rounds ih =>
      rw [Function.iterate_succ_apply', ← hsolved]
      refine r.asks x fun y hy => ih y ?_
      exact Nat.lt_of_lt_of_le (hlower x y hy) (Nat.le_of_lt_succ h)

end Recursion

end Rounds

namespace NormalFormula

variable {x y lhs rhs : NormalFormula}

section Operands

theorem weight_lt_temporal
    {op : TemporalOp} {int : Interval} (h : y ∈ [lhs, rhs]) :
    weight y < weight (.temporal lhs op int rhs) := by
  rw [weight]
  rcases List.mem_pair.mp h with rfl | rfl
  · omega
  · omega

theorem weight_lt_binary
    {op : BinaryOp} (h : y ∈ [lhs, rhs]) :
    weight y < weight (.binary lhs op rhs) := by
  rw [weight]
  rcases List.mem_pair.mp h with rfl | rfl
  · exact joinWeight_lt_left op _ _
  · exact joinWeight_lt_right op _ _

end Operands

section Negation

/-- The formulas that negation calls itself on. -/
def negationCalls : NormalFormula → List NormalFormula
  | .literal _ => []
  | .unary _ _ sub => [sub]
  | .temporal lhs _ _ rhs => [lhs, rhs]
  | .binary lhs .or rhs => [lhs, rhs]
  | .binary lhs .and rhs => [lhs, rhs]
  | .binary lhs .equiv rhs => [lhs, rhs]
  | .binary _ .implies rhs => [rhs]
  | .list .or subs => subs
  | .list .and subs => subs
  | .list .equiv subs => [fold .equiv subs]

/-- The negation of a formula, made from the negations of others. -/
def negateWith (call : NormalFormula → NormalFormula) : NormalFormula → NormalFormula
  | .literal l => .literal l.complement
  | .unary op int sub => .unary op.dual int (call sub)
  | .temporal lhs op int rhs => .temporal (call lhs) op.dual int (call rhs)
  | .binary lhs .or rhs => .binary (call lhs) .and (call rhs)
  | .binary lhs .and rhs => .binary (call lhs) .or (call rhs)
  | .binary lhs .equiv rhs => .binary (.binary lhs .or rhs) .and (.binary (call lhs) .or (call rhs))
  | .binary lhs .implies rhs => .binary lhs .and (call rhs)
  | .list .or subs => .list .and (subs.map call)
  | .list .and subs => .list .or (subs.map call)
  | .list .equiv subs => call (fold .equiv subs)

theorem negateWith_congr
    {f g : NormalFormula → NormalFormula} (x : NormalFormula)
    (h : ∀ y ∈ x.negationCalls, f y = g y) :
    negateWith f x = negateWith g x := by
  cases x with
  | literal l => rfl
  | unary op int sub => rw [negateWith, negateWith, h sub List.mem_cons_self]
  | temporal lhs op int rhs =>
      obtain ⟨hl, hr⟩ := List.forall_mem_cons.mp h
      rw [negateWith, negateWith, hl, hr rhs List.mem_cons_self]
  | binary lhs op rhs =>
      cases op with
      | implies => rw [negateWith, negateWith, h rhs List.mem_cons_self]
      | _ =>
          obtain ⟨hl, hr⟩ := List.forall_mem_cons.mp h
          rw [negateWith, negateWith, hl, hr rhs List.mem_cons_self]
  | list op subs =>
      cases op with
      | or => exact congrArg (list .and) (List.map_congr_left h)
      | and => exact congrArg (list .or) (List.map_congr_left h)
      | equiv => exact h _ List.mem_cons_self

/-- The recursion of negation. -/
def negation : Recursion NormalFormula NormalFormula where
  round := negateWith
  calls := negationCalls
  asks := negateWith_congr

/-- Negation is what a round makes of negation. -/
theorem negation_round_negated
    (x : NormalFormula) :
    negation.round negated x = x.negated := by
  change negateWith negated x = x.negated
  cases x with
  | binary lhs op rhs => cases op <;> rw [negated, negateWith]
  | list op subs => cases op <;> rw [negated, negateWith]
  | _ => rw [negated, negateWith]

/-- Negation calls itself on lighter formulas. -/
theorem weight_lt_of_mem_negationCalls
    (h : y ∈ x.negationCalls) :
    weight y < weight x := by
  cases x with
  | literal l => exact absurd h List.not_mem_nil
  | unary op int sub =>
      obtain rfl := List.mem_singleton.mp h
      rw [weight]
      exact Nat.lt_succ_self _
  | temporal lhs op int rhs => exact weight_lt_temporal h
  | binary lhs op rhs =>
      cases op with
      | implies => exact weight_lt_binary (List.mem_cons_of_mem lhs h)
      | _ => exact weight_lt_binary h
  | list op subs =>
      cases op with
      | equiv =>
          obtain rfl := List.mem_singleton.mp h
          exact weight_fold_lt .equiv subs
      | _ => exact weight_lt_of_mem _ h

end Negation

section Denotation

/-- The formulas that denotation calls itself on. -/
def denotationCalls : NormalFormula → List NormalFormula
  | .literal _ => []
  | .unary _ int sub => if int.Vacuous then [] else [sub]
  | .temporal lhs _ int rhs => if int.Vacuous then [] else [lhs, rhs]
  | .binary lhs .or rhs => [lhs, rhs]
  | .binary lhs .and rhs => [lhs, rhs]
  | .binary lhs .equiv rhs =>
    [.binary (.binary lhs .and rhs) .or (.binary lhs.negated .and rhs.negated)]
  | .binary lhs .implies rhs => [.binary lhs.negated .or rhs]
  | .list op subs => [fold op subs]

/-- Denotation calls itself on lighter formulas. -/
theorem weight_lt_of_mem_denotationCalls
    (h : y ∈ x.denotationCalls) :
    weight y < weight x := by
  cases x with
  | literal l => exact absurd h List.not_mem_nil
  | unary op int sub =>
      obtain rfl := List.mem_singleton.mp (List.mem_ite_nil_left.mp h).2
      rw [weight]
      exact Nat.lt_succ_self _
  | temporal lhs op int rhs => exact weight_lt_temporal (List.mem_ite_nil_left.mp h).2
  | binary lhs op rhs =>
      -- A negation that is written into an expansion is no heavier than the operand itself.
      have left := weight_negated_le lhs
      have right := weight_negated_le rhs
      cases op with
      | equiv =>
          obtain rfl := List.mem_singleton.mp h
          simp only [weight, joinWeight]
          omega
      | implies =>
          obtain rfl := List.mem_singleton.mp h
          simp only [weight, joinWeight]
          omega
      | _ => exact weight_lt_binary h
  | list op subs =>
      obtain rfl := List.mem_singleton.mp h
      exact weight_fold_lt op subs

end Denotation

end NormalFormula

namespace Engine

section Denotation

variable {m : Type → Type} [Monad m] [MonadLiftT (Except Error) m]

/-- The cover of a formula, made from the covers of others. -/
def denoteWith (e : Engine) (host : Host m) (call : NormalFormula → m Cover) :
    NormalFormula → m Cover
  | .literal l => liftM (e.literal l)
  | .unary op int sub =>
    if int.Vacuous then return e.vacuousUnary op
    else do
      let c ← call sub
      match op with
      | .eventually => eventually host.arithmetic (e.reduce host) e.vars c int
      | .always => always host.arithmetic (e.reduce host) c int
  | .temporal lhs op int rhs =>
    if int.Vacuous then return e.vacuousTemporal op
    else do
      let c ← call lhs
      let d ← call rhs
      match op with
      | .until => untilWithin host.arithmetic (e.reduce host) c d int
      | .release => releaseWithin host.arithmetic (e.reduce host) c d int
  | .binary lhs .or rhs => do
    let c ← call lhs
    let d ← call rhs
    Cover.joinWith (e.reduce host) c d
  | .binary lhs .and rhs => do
    let c ← call lhs
    let d ← call rhs
    Cover.intersectWith (e.reduce host) c d
  | .binary lhs .equiv rhs =>
    call (.binary (.binary lhs .and rhs) .or (.binary lhs.negated .and rhs.negated))
  | .binary lhs .implies rhs => call (.binary lhs.negated .or rhs)
  | .list op subs => call (NormalFormula.fold op subs)

theorem denoteWith_congr
    (e : Engine) (host : Host m) {f g : NormalFormula → m Cover} (x : NormalFormula)
    (h : ∀ y ∈ x.denotationCalls, f y = g y) :
    e.denoteWith host f x = e.denoteWith host g x := by
  cases x with
  | literal l => rfl
  | unary op int sub =>
      by_cases hint : int.Vacuous
      · rw [denoteWith, denoteWith, if_pos hint, if_pos hint]
      · rw [NormalFormula.denotationCalls, if_neg hint] at h
        rw [denoteWith, denoteWith, if_neg hint, if_neg hint, h sub List.mem_cons_self]
  | temporal lhs op int rhs =>
      by_cases hint : int.Vacuous
      · rw [denoteWith, denoteWith, if_pos hint, if_pos hint]
      · rw [NormalFormula.denotationCalls, if_neg hint] at h
        obtain ⟨hl, hr⟩ := List.forall_mem_cons.mp h
        rw [denoteWith, denoteWith, if_neg hint, if_neg hint, hl, hr rhs List.mem_cons_self]
  | binary lhs op rhs =>
      cases op with
      | equiv => exact h _ List.mem_cons_self
      | implies => exact h _ List.mem_cons_self
      | _ =>
          obtain ⟨hl, hr⟩ := List.forall_mem_cons.mp h
          rw [denoteWith, denoteWith, hl, hr rhs List.mem_cons_self]
  | list op subs => exact h _ List.mem_cons_self

/-- The recursion of denotation. A round looks the formula up before it makes its cover. -/
def denotation (e : Engine) (host : Host m) : Recursion NormalFormula (m Cover) where
  round call x := remember host x (e.denoteWith host call x)
  calls := NormalFormula.denotationCalls
  asks x h := congrArg (remember host x) (e.denoteWith_congr host x h)

/-- Denotation is what a round makes of denotation. -/
theorem denotation_round_denoteIn
    (e : Engine) (host : Host m) (x : NormalFormula) :
    (e.denotation host).round (e.denoteIn host) x = e.denoteIn host x := by
  symm
  change e.denoteIn host x = remember host x (e.denoteWith host (e.denoteIn host) x)
  cases x with
  | binary lhs op rhs =>
      cases op with
      | equiv => exact e.denoteIn_equiv host lhs rhs
      | implies => exact e.denoteIn_implies host lhs rhs
      | _ => exact denoteIn.eq_def ..
  | list op subs => exact e.denoteIn_list host op subs
  | _ => exact denoteIn.eq_def ..

end Denotation

end Engine

/-- Negation and denotation end on every formula. One measure of formulas does for both: negation does
not raise it, and each of the two, denotation for every host, calls itself only on formulas of smaller
measure, so that no more rounds than one above the measure of a formula are needed there. -/
theorem exists_descending_measure :
    ∃ measure : NormalFormula → Nat,
      (∀ x, measure x.negated ≤ measure x) ∧
      NormalFormula.negation.Descends measure NormalFormula.negated ∧
      ∀ {m : Type → Type} [Monad m] [MonadLiftT (Except Error) m] (e : Engine) (host : Host m),
        (e.denotation host).Descends measure (e.denoteIn host) := by
  refine ⟨NormalFormula.weight, NormalFormula.weight_negated_le, ?_, ?_⟩
  · exact Recursion.descends_of_lower NormalFormula.negation_round_negated
      fun x y => NormalFormula.weight_lt_of_mem_negationCalls
  · intro m _ _ e host
    exact Recursion.descends_of_lower (e.denotation_round_denoteIn host)
      fun x y => NormalFormula.weight_lt_of_mem_denotationCalls

/-- `((=[(p0=p1),p2])=(p0>(=[])))`: equivalences inside equivalences, one of them in front of nothing. -/
def nestedEquivalences : NormalFormula :=
  .binary (.list .equiv [.binary (.var 0) .equiv (.var 1), .var 2]) .equiv
    (.binary (.var 0) .implies (.list .equiv []))

/-- The expansion of the formula has a smaller measure than the formula, and enough rounds on top of a
failure make its cover over three variables. -/
theorem exists_descending_measure_nestedEquivalences :
    ∃ measure : NormalFormula → Nat,
      (∀ y ∈ nestedEquivalences.denotationCalls, measure y < measure nestedEquivalences) ∧
      (Engine.denotation ⟨3, {}⟩ (Host.plain .wrapping)).round^[measure nestedEquivalences + 1]
          (fun _ => .error .noBlocks) nestedEquivalences =
        Engine.denoteIn ⟨3, {}⟩ (Host.plain .wrapping) nestedEquivalences := by
  obtain ⟨measure, -, -, hdenotation⟩ := exists_descending_measure
  have descends := hdenotation ⟨3, {}⟩ (Host.plain .wrapping)
  exact ⟨measure, descends.lower nestedEquivalences,
    descends.ends nestedEquivalences _ _ (Nat.lt_succ_self _)⟩

end MissionTime

import MissionTime.Denotation.Engine
import MissionTime.Proofs.Cover.Delay
import Mathlib.Tactic

/-!
# Runs without log and memory

Without a log and a memory the recursion is an ordinary recursion over the formula, in which only
failures are left of what surrounds a run. Where numbers keep all their digits, delays do not fail either.

**Results.**
* `Engine.eventually_unbounded` and the like: the windows of operators, with exact delays;
* `Engine.remember_plain`, `Engine.reduce_plain`: the host that keeps nothing does nothing;
* `Engine.denoteIn_unary` and the like: one equation for each operator;
* `Engine.denoteIn_congr`: making the last cover disjoint is no part of the recursion;
* `Engine.denote_eq`: it comes behind it.
-/

namespace MissionTime

namespace Engine

open Cover

section Windows

variable (reduce : Cover → Except Error Cover)

theorem eventually_unbounded
    (vars : Nat) (c : Cover) (int : Interval) :
    eventually .unbounded reduce vars c int = (do
      let body ← (List.range (int.width + 1)).foldlM
        (fun body i => joinWith reduce body (c.shifted i)) (empty vars)
      return body.shifted int.lower) := by
  simp only [eventually, shift_unbounded]
  rfl

theorem always_unbounded
    (c : Cover) (int : Interval) :
    always .unbounded reduce c int = (do
      let body ← (List.range' 1 int.width).foldlM
        (fun body i => intersectWith reduce body (c.shifted i)) c
      return body.shifted int.lower) := by
  simp only [always, shift_unbounded]
  rfl

theorem unrollStep_unbounded
    (hold goal : Cover) (delay upper : Nat) (cover window : Cover) (i : Nat) :
    unrollStep .unbounded reduce hold goal delay upper (cover, window) i = (do
      let step ← intersectWith reduce window (goal.shifted (i + delay))
      let cover ← joinWith reduce cover step
      if i + 1 < upper then
        let window ← intersectWith reduce window (hold.shifted (i + 1))
        return (cover, window)
      else
        return (cover, window)) := by
  simp only [unrollStep, shift_unbounded]
  rfl

theorem unroll_unbounded
    (hold goal : Cover) (delay : Nat) (int : Interval) (first : Cover) :
    unroll .unbounded reduce hold goal delay int first = (do
      let (cover, _) ← (List.range' int.lower int.width).foldlM
        (unrollStep .unbounded reduce hold goal delay int.upper) (first, hold.shifted int.lower)
      return cover) := by
  simp only [unroll, shift_unbounded]
  rfl

theorem untilWithin_unbounded
    (c d : Cover) (int : Interval) :
    untilWithin .unbounded reduce c d int =
      unroll .unbounded reduce c d 1 int (d.shifted int.lower) := by
  simp only [untilWithin, shift_unbounded]
  rfl

end Windows

section Equations

variable {a : Arithmetic} (e : Engine)

/-- Without a memory the cover is always made. -/
theorem remember_plain
    (x : NormalFormula) (make : Except Error Cover) :
    remember (Host.plain a) x make = make := by
  cases make <;> rfl

theorem reduce_plain :
    e.reduce (Host.plain a) = reduction e.config.simplify := by
  funext c
  rw [reduce, reduction]
  cases e.config.simplify with
  | false => rfl
  | true =>
      change (c.simplify >>= fun simplified => Except.ok simplified) = c.simplify
      cases c.simplify <;> rfl

theorem denoteIn_literal
    (l : Literal) :
    e.denoteIn (Host.plain a) (.literal l) = e.literal l := by
  rw [denoteIn, remember_plain]
  rfl

theorem denoteIn_vacuous_unary
    (op : UnaryOp) {int : Interval} (h : int.Vacuous) (sub : NormalFormula) :
    e.denoteIn (Host.plain a) (.unary op int sub) = .ok (e.vacuousUnary op) := by
  rw [denoteIn, remember_plain, if_pos h]
  rfl

theorem denoteIn_unary
    (op : UnaryOp) {int : Interval} (h : ¬ int.Vacuous) (sub : NormalFormula) :
    e.denoteIn (Host.plain a) (.unary op int sub) = (do
      let c ← e.denoteIn (Host.plain a) sub
      match op with
      | .eventually => eventually a (reduction e.config.simplify) e.vars c int
      | .always => always a (reduction e.config.simplify) c int) := by
  rw [denoteIn, remember_plain, ← reduce_plain]
  exact if_neg h

theorem denoteIn_vacuous_temporal
    (lhs : NormalFormula) (op : TemporalOp) {int : Interval} (h : int.Vacuous)
    (rhs : NormalFormula) :
    e.denoteIn (Host.plain a) (.temporal lhs op int rhs) = .ok (e.vacuousTemporal op) := by
  rw [denoteIn, remember_plain, if_pos h]
  rfl

theorem denoteIn_temporal
    (lhs : NormalFormula) (op : TemporalOp) {int : Interval} (h : ¬ int.Vacuous)
    (rhs : NormalFormula) :
    e.denoteIn (Host.plain a) (.temporal lhs op int rhs) = (do
      let c ← e.denoteIn (Host.plain a) lhs
      let d ← e.denoteIn (Host.plain a) rhs
      match op with
      | .until => untilWithin a (reduction e.config.simplify) c d int
      | .release => releaseWithin a (reduction e.config.simplify) c d int) := by
  rw [denoteIn, remember_plain, ← reduce_plain]
  exact if_neg h

theorem denoteIn_or
    (lhs rhs : NormalFormula) :
    e.denoteIn (Host.plain a) (.binary lhs .or rhs) = (do
      let c ← e.denoteIn (Host.plain a) lhs
      let d ← e.denoteIn (Host.plain a) rhs
      joinWith (reduction e.config.simplify) c d) := by
  rw [denoteIn, remember_plain, reduce_plain]

theorem denoteIn_and
    (lhs rhs : NormalFormula) :
    e.denoteIn (Host.plain a) (.binary lhs .and rhs) = (do
      let c ← e.denoteIn (Host.plain a) lhs
      let d ← e.denoteIn (Host.plain a) rhs
      intersectWith (reduction e.config.simplify) c d) := by
  rw [denoteIn, remember_plain, reduce_plain]

end Equations

section Configurations

/-- Whether the last cover is made disjoint does not matter to the recursion. -/
theorem denoteIn_congr
    (a : Arithmetic) (e e' : Engine) (hvars : e.vars = e'.vars)
    (hsimplify : e.config.simplify = e'.config.simplify) (x : NormalFormula) :
    e.denoteIn (Host.plain a) x = e'.denoteIn (Host.plain a) x := by
  induction x using denoteIn.induct with
  | case1 l =>
      rw [denoteIn_literal, denoteIn_literal]
      cases l <;> simp only [literal, hvars]
  | case2 op int sub ih =>
      by_cases hint : int.Vacuous
      · rw [denoteIn_vacuous_unary _ op hint, denoteIn_vacuous_unary _ op hint]
        cases op <;> simp only [vacuousUnary, hvars]
      · rw [denoteIn_unary _ op hint, denoteIn_unary _ op hint, ih, hvars, hsimplify]
  | case3 lhs op int rhs ihl ihr =>
      by_cases hint : int.Vacuous
      · rw [denoteIn_vacuous_temporal _ lhs op hint, denoteIn_vacuous_temporal _ lhs op hint]
        cases op <;> simp only [vacuousTemporal, hvars]
      · rw [denoteIn_temporal _ lhs op hint, denoteIn_temporal _ lhs op hint, ihl, ihr, hsimplify]
  | case4 lhs rhs ihl ihr => rw [denoteIn_or, denoteIn_or, ihl, ihr, hsimplify]
  | case5 lhs rhs ihl ihr => rw [denoteIn_and, denoteIn_and, ihl, ihr, hsimplify]
  | case6 lhs rhs ih => rw [denoteIn_equiv, denoteIn_equiv, remember_plain, remember_plain, ih]
  | case7 lhs rhs ih => rw [denoteIn_implies, denoteIn_implies, remember_plain, remember_plain, ih]
  | case8 op subs ih => rw [denoteIn_list, denoteIn_list, remember_plain, remember_plain, ih]

theorem denote_eq
    (a : Arithmetic) (e : Engine) (x : NormalFormula) :
    e.denote a x = (do
      let c ← e.denoteIn (Host.plain a) x
      if e.config.disjoint then c.disjoint else .ok c) := by
  rw [denote, denoteOn]
  change (e.denoteIn (Host.plain a) x >>= _) = _
  cases e.denoteIn (Host.plain a) x with
  | error cause => rfl
  | ok c =>
      cases hdisjoint : e.config.disjoint with
      | false => rfl
      | true =>
          change (c.disjoint >>= fun result => Except.ok result) = c.disjoint
          cases c.disjoint <;> rfl

end Configurations

end Engine

end MissionTime

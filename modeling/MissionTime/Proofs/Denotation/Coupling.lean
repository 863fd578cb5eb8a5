import MissionTime.Denotation.Engine

/-!
# Runs side by side

The recursion is written once for all kinds of computations and all hosts. A relation between two kinds
of computations that is kept when computations follow one another therefore holds of two runs on one
formula as soon as it holds of what their hosts do.

**Definitions.**
* `Coupling`: such a relation, and `Coupling.Hosts`: what it asks of two hosts.

**Results.**
* `Coupling.remember`: a memory, operation by operation;
* `Coupling.denoteIn` and `Coupling.denoteOn`: the recursion and a whole run.
-/

namespace MissionTime

/-- A relation between computations of two kinds. It holds of what returns or fails without doing
anything else, and it is kept when computations follow one another. -/
structure Coupling (m m' : Type → Type) [Monad m] [Monad m'] [MonadLiftT (Except Error) m]
    [MonadLiftT (Except Error) m'] where
  Holds : {α : Type} → m α → m' α → Prop
  pure : ∀ {α : Type} (a : α), Holds (pure a) (pure a)
  lift : ∀ {α : Type} (result : Except Error α), Holds (liftM result) (liftM result)
  bind : ∀ {α β : Type} {run : m α} {run' : m' α} {next : α → m β} {next' : α → m' β},
    Holds run run' → (∀ a, Holds (next a) (next' a)) → Holds (run >>= next) (run' >>= next')

namespace Coupling

variable {m m' : Type → Type} [Monad m] [Monad m'] [MonadLiftT (Except Error) m]
  [MonadLiftT (Except Error) m'] (R : Coupling m m')

theorem foldlM
    {α β : Type} {step : β → α → m β} {step' : β → α → m' β}
    (h : ∀ state a, R.Holds (step state a) (step' state a)) (items : List α) (start : β) :
    R.Holds (items.foldlM step start) (items.foldlM step' start) := by
  induction items generalizing start with
  | nil => exact R.pure start
  | cons a items ih =>
      rw [List.foldlM_cons, List.foldlM_cons]
      exact R.bind (h start a) ih

section Operations

variable {reduce : Cover → m Cover} {reduce' : Cover → m' Cover}
  (h : ∀ c, R.Holds (reduce c) (reduce' c))
include h

theorem joinWith
    (c d : Cover) :
    R.Holds (Cover.joinWith reduce c d) (Cover.joinWith reduce' c d) :=
  R.bind (R.lift (c.append d)) h

theorem intersectWith
    (c d : Cover) :
    R.Holds (Cover.intersectWith reduce c d) (Cover.intersectWith reduce' c d) := by
  refine R.bind (R.lift (Cover.requireMeet c d)) fun _ => ?_
  by_cases hempty : c.rows = [] ∨ d.rows = []
  · rw [if_pos hempty, if_pos hempty]
    exact R.pure _
  · rw [if_neg hempty, if_neg hempty]
    exact h _

variable {a a' : Arithmetic}
  (delay : ∀ (c : Cover) (steps : Nat), R.Holds
    (liftM (c.shift a steps : Except Error Cover)) (liftM (c.shift a' steps : Except Error Cover)))
include delay

theorem eventually
    (vars : Nat) (c : Cover) (int : Interval) :
    R.Holds (Engine.eventually a reduce vars c int) (Engine.eventually a' reduce' vars c int) := by
  refine R.bind (R.foldlM (fun body i => ?_) _ _) fun body => delay body int.lower
  exact R.bind (delay c i) fun copy => R.joinWith h body copy

theorem always
    (c : Cover) (int : Interval) :
    R.Holds (Engine.always a reduce c int) (Engine.always a' reduce' c int) := by
  refine R.bind (R.foldlM (fun body i => ?_) _ _) fun body => delay body int.lower
  exact R.bind (delay c i) fun copy => R.intersectWith h body copy

theorem unrollStep
    (c d : Cover) (steps upper : Nat) (state : Cover × Cover) (i : Nat) :
    R.Holds (Engine.unrollStep a reduce c d steps upper state i)
      (Engine.unrollStep a' reduce' c d steps upper state i) := by
  rcases state with ⟨cover, window⟩
  refine R.bind (delay d (i + steps)) fun copy => ?_
  refine R.bind (R.intersectWith h window copy) fun step => ?_
  refine R.bind (R.joinWith h cover step) fun next => ?_
  by_cases hlast : i + 1 < upper
  · rw [if_pos hlast, if_pos hlast]
    refine R.bind (delay c (i + 1)) fun later => ?_
    exact R.bind (R.intersectWith h window later) fun extended => R.pure _
  · rw [if_neg hlast, if_neg hlast]
    exact R.pure _

theorem unroll
    (c d : Cover) (steps : Nat) (int : Interval) (first : Cover) :
    R.Holds (Engine.unroll a reduce c d steps int first)
      (Engine.unroll a' reduce' c d steps int first) := by
  refine R.bind (delay c int.lower) fun window => ?_
  refine R.bind (R.foldlM (fun state i => ?_) _ _) fun state => R.pure _
  exact R.unrollStep h delay c d steps int.upper state i

theorem untilWithin
    (c d : Cover) (int : Interval) :
    R.Holds (Engine.untilWithin a reduce c d int) (Engine.untilWithin a' reduce' c d int) :=
  R.bind (delay d int.lower) fun first => R.unroll h delay c d 1 int first

theorem releaseWithin
    (c d : Cover) (int : Interval) :
    R.Holds (Engine.releaseWithin a reduce c d int) (Engine.releaseWithin a' reduce' c d int) :=
  R.bind (R.always h delay d int) fun held => R.unroll h delay d c 0 int held

end Operations

section Hosts

variable {e : Engine} {host : Host m} {host' : Host m'}

/-- What two hosts do is related, and so are the delays of covers. Of what they remember, it may be used
that the second run makes just this of the formula. -/
structure Hosts (e : Engine) (host : Host m) (host' : Host m') : Prop where
  emit : ∀ event, R.Holds (host.emit event) (host'.emit event)
  shift : ∀ (c : Cover) (steps : Nat), R.Holds
    (liftM (c.shift host.arithmetic steps : Except Error Cover))
    (liftM (c.shift host'.arithmetic steps : Except Error Cover))
  remember : ∀ x {make : m Cover} {make' : m' Cover}, R.Holds make make' →
    e.denoteIn host' x = Engine.remember host' x make' →
      R.Holds (Engine.remember host x make) (Engine.remember host' x make')

/-- Memories whose operations are related are related. -/
theorem remember
    (x : NormalFormula) {make : m Cover} {make' : m' Cover}
    (emit : ∀ event, R.Holds (host.emit event) (host'.emit event))
    (retrieve : R.Holds (host.retrieve x) (host'.retrieve x))
    (store : ∀ c, R.Holds (host.store x c) (host'.store x c)) (h : R.Holds make make') :
    R.Holds (Engine.remember host x make) (Engine.remember host' x make') := by
  refine R.bind retrieve fun found => ?_
  cases found with
  | some c => exact R.bind (emit _) fun _ => R.pure c
  | none =>
      refine R.bind h fun c => ?_
      exact R.bind (emit _) fun _ => R.bind (store c) fun _ => R.pure c

variable {R} (hosts : R.Hosts e host host')
include hosts

theorem Hosts.reduce
    (c : Cover) :
    R.Holds (e.reduce host c) (e.reduce host' c) := by
  rw [Engine.reduce, Engine.reduce]
  cases e.config.simplify with
  | false => exact R.pure c
  | true =>
      refine R.bind (R.lift c.simplify) fun simplified => ?_
      exact R.bind (hosts.emit _) fun _ => R.pure simplified

/-- It is enough that what both runs make of a formula is related. -/
theorem Hosts.made
    {x : NormalFormula} {make : m Cover} {make' : m' Cover}
    (heq : e.denoteIn host x = Engine.remember host x make)
    (heq' : e.denoteIn host' x = Engine.remember host' x make') (h : R.Holds make make') :
    R.Holds (e.denoteIn host x) (e.denoteIn host' x) := by
  rw [heq, heq']
  exact hosts.remember x h heq'

/-- The recursion with related hosts. -/
theorem denoteIn
    (x : NormalFormula) :
    R.Holds (e.denoteIn host x) (e.denoteIn host' x) := by
  have reduces := hosts.reduce
  have delays := hosts.shift
  induction x using Engine.denoteIn.induct with
  | case1 l =>
      exact hosts.made (Engine.denoteIn.eq_def ..) (Engine.denoteIn.eq_def ..) (R.lift _)
  | case2 op int sub ih =>
      refine hosts.made (Engine.denoteIn.eq_def ..) (Engine.denoteIn.eq_def ..) ?_
      by_cases hint : int.Vacuous
      · rw [if_pos hint, if_pos hint]
        exact R.pure _
      · rw [if_neg hint, if_neg hint]
        refine R.bind ih fun c => ?_
        cases op with
        | eventually => exact R.eventually reduces delays e.vars c int
        | always => exact R.always reduces delays c int
  | case3 lhs op int rhs ihl ihr =>
      refine hosts.made (Engine.denoteIn.eq_def ..) (Engine.denoteIn.eq_def ..) ?_
      by_cases hint : int.Vacuous
      · rw [if_pos hint, if_pos hint]
        exact R.pure _
      · rw [if_neg hint, if_neg hint]
        refine R.bind ihl fun c => R.bind ihr fun d => ?_
        cases op with
        | «until» => exact R.untilWithin reduces delays c d int
        | release => exact R.releaseWithin reduces delays c d int
  | case4 lhs rhs ihl ihr =>
      refine hosts.made (Engine.denoteIn.eq_def ..) (Engine.denoteIn.eq_def ..) ?_
      exact R.bind ihl fun c => R.bind ihr fun d => R.joinWith reduces c d
  | case5 lhs rhs ihl ihr =>
      refine hosts.made (Engine.denoteIn.eq_def ..) (Engine.denoteIn.eq_def ..) ?_
      exact R.bind ihl fun c => R.bind ihr fun d => R.intersectWith reduces c d
  | case6 lhs rhs ih =>
      exact hosts.made (e.denoteIn_equiv host lhs rhs) (e.denoteIn_equiv host' lhs rhs) ih
  | case7 lhs rhs ih =>
      exact hosts.made (e.denoteIn_implies host lhs rhs) (e.denoteIn_implies host' lhs rhs) ih
  | case8 op subs ih =>
      exact hosts.made (e.denoteIn_list host op subs) (e.denoteIn_list host' op subs) ih

/-- A whole run with related hosts. -/
theorem denoteOn
    (x : NormalFormula) :
    R.Holds (e.denoteOn host x) (e.denoteOn host' x) := by
  rw [Engine.denoteOn, Engine.denoteOn]
  refine R.bind (hosts.emit _) fun _ => R.bind (denoteIn hosts x) fun c => ?_
  cases e.config.disjoint with
  | false => exact R.bind (R.pure c) fun result => R.bind (hosts.emit _) fun _ => R.pure result
  | true =>
      refine R.bind (R.lift c.disjoint) fun result => ?_
      exact R.bind (hosts.emit _) fun _ => R.pure result

end Hosts

end Coupling

end MissionTime

import MissionTime.Cover.Expansion
import MissionTime.NormalFormula.Canonical

/-!
# Denotations

The cover of the traces that satisfy a formula in negation normal form.

**Algorithm.** The cover of a formula is made of the covers of its operands. `F` joins and `G`
intersects shifted copies; `U` and `R` join intersections of a growing window of one operand with one
copy of the other. An equivalence, an implication and a list are first expanded into disjunctions
and conjunctions.

**Definitions.**
* `Config` and `Engine`, the choices of a run;
* `Host`, what surrounds a run: the way to multiply, and a log and a memory of covers, both possibly
  absent;
* `Engine.denoteIn`, the recursion, and `Engine.denoteOn`, a whole run;
* `Engine.denote`, a run without log and memory.
-/

namespace MissionTime

/-- Whether covers are simplified as they arise, and whether the last one is made disjoint. -/
structure Config where
  simplify : Bool := true
  disjoint : Bool := false
deriving DecidableEq, Repr

/-- A number of variables and the choices of a run. -/
structure Engine where
  vars : Nat
  config : Config := {}
deriving DecidableEq, Repr

/-- Something that a run reports. -/
inductive Event
  | began (x : NormalFormula)
  | recalled (x : NormalFormula)
  | denoted (x : NormalFormula) (size : Nat)
  | simplified (before after : Nat)
  | finished (x : NormalFormula) (vars size : Nat)
  | cleared (entries hits : Nat)
deriving DecidableEq, Repr

/-- What surrounds a run: lengths are computed, events are emitted, covers are recalled and stored. -/
structure Host (m : Type → Type) where
  arithmetic : Arithmetic
  emit : Event → m Unit
  retrieve : NormalFormula → m (Option Cover)
  store : NormalFormula → Cover → m Unit

/-- The host that keeps nothing. -/
def Host.plain (a : Arithmetic) : Host (Except Error) where
  arithmetic := a
  emit _ := .ok ()
  retrieve _ := .ok none
  store _ _ := .ok ()

namespace Engine

section Windows

variable {m : Type → Type} [Monad m] [MonadLiftT (Except Error) m]

/-- Joins the copies of a cover shifted by each step of the interval. -/
def eventually (a : Arithmetic) (reduce : Cover → m Cover) (vars : Nat) (c : Cover)
    (int : Interval) : m Cover := do
  let body ← (List.range (int.width + 1)).foldlM
    (fun body i => do
      let copy ← (c.shift a i : Except Error Cover)
      Cover.joinWith reduce body copy)
    (Cover.empty vars)
  (body.shift a int.lower : Except Error Cover)

/-- Intersects the copies of a cover shifted by each step of the interval. -/
def always (a : Arithmetic) (reduce : Cover → m Cover) (c : Cover) (int : Interval) : m Cover := do
  let body ← (List.range' 1 int.width).foldlM
    (fun body i => do
      let copy ← (c.shift a i : Except Error Cover)
      Cover.intersectWith reduce body copy)
    c
  (body.shift a int.lower : Except Error Cover)

/-- Joins a window of `hold` up to a step, intersected with `goal` `delay` steps later, and extends the
window to the next step if there is one below the upper bound. -/
def unrollStep (a : Arithmetic) (reduce : Cover → m Cover) (hold goal : Cover) (delay upper : Nat) :
    Cover × Cover → Nat → m (Cover × Cover)
  | (cover, window), i => do
    let copy ← (goal.shift a (i + delay) : Except Error Cover)
    let step ← Cover.intersectWith reduce window copy
    let cover ← Cover.joinWith reduce cover step
    if i + 1 < upper then
      let next ← (hold.shift a (i + 1) : Except Error Cover)
      let window ← Cover.intersectWith reduce window next
      return (cover, window)
    else
      return (cover, window)

/-- For each step but the last, joins the window of `hold` up to this step, intersected with `goal`
`delay` steps later. The window is not extended behind the last of these steps. -/
def unroll (a : Arithmetic) (reduce : Cover → m Cover) (hold goal : Cover) (delay : Nat)
    (int : Interval) (first : Cover) : m Cover := do
  let window ← (hold.shift a int.lower : Except Error Cover)
  let (cover, _) ← (List.range' int.lower int.width).foldlM
    (unrollStep a reduce hold goal delay int.upper) (first, window)
  return cover

/-- The right operand at the first step, or at a later one after the left operand up to there. -/
def untilWithin (a : Arithmetic) (reduce : Cover → m Cover) (c d : Cover) (int : Interval) :
    m Cover := do
  let first ← (d.shift a int.lower : Except Error Cover)
  unroll a reduce c d 1 int first

/-- The right operand at all steps, or up to a step at which the left operand holds. -/
def releaseWithin (a : Arithmetic) (reduce : Cover → m Cover) (c d : Cover) (int : Interval) :
    m Cover := do
  let held ← always a reduce d int
  unroll a reduce d c 0 int held

end Windows

/-- The cover of a literal over the variables of the engine. -/
def literal (e : Engine) : Literal → Except Error Cover
  | .top => .ok (Cover.top e.vars)
  | .bot => .ok (Cover.empty e.vars)
  | .var x =>
    if x.index < e.vars then .ok ⟨e.vars, [(Pattern.fixing e.vars x).bits]⟩
    else .error (.variableOutOfRange x e.vars)

/-- The cover of an operator over a vacuous interval: with `F` nothing, with `G` everything. -/
def vacuousUnary (e : Engine) : UnaryOp → Cover
  | .eventually => Cover.empty e.vars
  | .always => Cover.top e.vars

/-- The cover of an operator over a vacuous interval: with `U` nothing, with `R` everything. -/
def vacuousTemporal (e : Engine) : TemporalOp → Cover
  | .until => Cover.empty e.vars
  | .release => Cover.top e.vars

section Run

variable {m : Type → Type} [Monad m] [MonadLiftT (Except Error) m]

/-- Simplifies a cover and reports it, if the engine simplifies. -/
def reduce (e : Engine) (host : Host m) (c : Cover) : m Cover :=
  if e.config.simplify then do
    let simplified ← (c.simplify : Except Error Cover)
    host.emit (.simplified c.size simplified.size)
    return simplified
  else
    return c

/-- Looks up the cover of a formula, or makes it, reports it and stores it. -/
def remember (host : Host m) (x : NormalFormula) (make : m Cover) : m Cover := do
  match ← host.retrieve x with
  | some c =>
    host.emit (.recalled x)
    return c
  | none =>
    let c ← make
    host.emit (.denoted x c.size)
    host.store x c
    return c

/-- The cover of a formula, before its members are made disjoint. -/
def denoteIn (e : Engine) (host : Host m) : NormalFormula → m Cover
  | .literal l => remember host (.literal l) (liftM (e.literal l))
  | .unary op int sub =>
    remember host (.unary op int sub)
      (if int.Vacuous then return e.vacuousUnary op
      else do
        let c ← denoteIn e host sub
        match op with
        | .eventually => eventually host.arithmetic (e.reduce host) e.vars c int
        | .always => always host.arithmetic (e.reduce host) c int)
  | .temporal lhs op int rhs =>
    remember host (.temporal lhs op int rhs)
      (if int.Vacuous then return e.vacuousTemporal op
      else do
        let c ← denoteIn e host lhs
        let d ← denoteIn e host rhs
        match op with
        | .until => untilWithin host.arithmetic (e.reduce host) c d int
        | .release => releaseWithin host.arithmetic (e.reduce host) c d int)
  | .binary lhs .or rhs =>
    remember host (.binary lhs .or rhs) (do
      let c ← denoteIn e host lhs
      let d ← denoteIn e host rhs
      Cover.joinWith (e.reduce host) c d)
  | .binary lhs .and rhs =>
    remember host (.binary lhs .and rhs) (do
      let c ← denoteIn e host lhs
      let d ← denoteIn e host rhs
      Cover.intersectWith (e.reduce host) c d)
  | .binary lhs .equiv rhs =>
    remember host (.binary lhs .equiv rhs)
      (denoteIn e host
        (.binary (.binary lhs .and rhs) .or (.binary lhs.negated .and rhs.negated)))
  | .binary lhs .implies rhs =>
    remember host (.binary lhs .implies rhs) (denoteIn e host (.binary lhs.negated .or rhs))
  | .list op subs =>
    remember host (.list op subs) (denoteIn e host (NormalFormula.fold op subs))
termination_by x => x.weight
decreasing_by
  all_goals simp only [NormalFormula.weight, NormalFormula.joinWeight]
  all_goals first
    | omega
    | exact NormalFormula.weight_fold_lt _ _
    | have := NormalFormula.weight_negated_le lhs
      have := NormalFormula.weight_negated_le rhs
      omega

/-- An equivalence is expanded into a disjunction of conjunctions. -/
theorem denoteIn_equiv
    (e : Engine) (host : Host m) (lhs rhs : NormalFormula) :
    e.denoteIn host (.binary lhs .equiv rhs) = remember host (.binary lhs .equiv rhs)
      (e.denoteIn host
        (.binary (.binary lhs .and rhs) .or (.binary lhs.negated .and rhs.negated))) := by
  conv =>
    lhs
    rw [denoteIn]

theorem denoteIn_implies
    (e : Engine) (host : Host m) (lhs rhs : NormalFormula) :
    e.denoteIn host (.binary lhs .implies rhs) = remember host (.binary lhs .implies rhs)
      (e.denoteIn host (.binary lhs.negated .or rhs)) := by
  conv =>
    lhs
    rw [denoteIn]

theorem denoteIn_list
    (e : Engine) (host : Host m) (op : ListOp) (subs : List NormalFormula) :
    e.denoteIn host (.list op subs) = remember host (.list op subs)
      (e.denoteIn host (NormalFormula.fold op subs)) := by
  conv =>
    lhs
    rw [denoteIn]

/-- A whole run: reports its begin and its end, and makes the members disjoint if told to. -/
def denoteOn (e : Engine) (host : Host m) (x : NormalFormula) : m Cover := do
  host.emit (.began x)
  let c ← denoteIn e host x
  let result ←
    if e.config.disjoint then (liftM (c.disjoint : Except Error Cover) : m Cover) else pure c
  host.emit (.finished x e.vars result.size)
  return result

end Run

/-- The cover of a formula, without log and memory. -/
def denote (a : Arithmetic) (e : Engine) (x : NormalFormula) : Except Error Cover :=
  denoteOn e (Host.plain a) x

end Engine

end MissionTime

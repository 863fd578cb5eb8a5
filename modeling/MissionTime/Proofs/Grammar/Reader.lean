import MissionTime.Formula.Basic
import MissionTime.Proofs.Grammar.Bounds

/-!
# A machine for formulas

A machine with which the rule of formulas is compared. A stack holds what encloses the place that is
read, the innermost first, and a phase tells how far the formula at this place has come.

**Input.** Formulas without blanks: `p` and a number; `T`; `F` or `!`; `~` and a formula; `F` or `G`,
an interval and a formula; in parentheses a connective and a bracketed list of formulas, or two
formulas around a connective, or around `U` or `R` and an interval.

**Definitions.**
* `Reader.Frame`, `Reader.Phase` and `Reader.State`;
* `Reader.machine`, which accepts the numbers that `fits` accepts.

An `F` is the operator exactly if a bracket follows it. A number ends where its digits end.
-/

namespace MissionTime

namespace Reader

/-- Something begun whose next formula is being read. Members of a list are kept latest first. -/
inductive Frame
  | neg
  | unary (op : UnaryOp) (int : Interval)
  | list (op : ListOp) (members : List Formula)
  | left
  | right (lhs : Formula) (op : BinaryOp)
  | rightTemporal (lhs : Formula) (op : TemporalOp) (int : Interval)

/-- The operator whose interval is being read. -/
inductive Owner
  | unary (op : UnaryOp)
  | temporal (lhs : Formula) (op : TemporalOp)

/-- How far the formula at the place that is read has come. -/
inductive Phase
  | start
  | opened
  | index (digits : Option Nat)
  | letterF
  | bounds (owner : Owner) (b : Bounds)
  | listHead (op : ListOp)
  | listTail (f : Formula)
  | ended (f : Formula)

/-- The enclosing frames, the innermost first, and the phase. -/
structure State where
  stack : List Frame
  phase : Phase

/-- A formula has ended: the operators right before it end with it. -/
def finish : List Frame → Formula → State
  | .neg :: stack, f => finish stack (.neg f)
  | .unary op int :: stack, f => finish stack (.unary op int f)
  | stack, f => ⟨stack, .ended f⟩

/-- The connective of a list. -/
def listOp? (c : Char) : Option ListOp :=
  if c = 'v' then some .or
  else if c = '&' then some .and
  else if c = '=' then some .equiv
  else none

/-- The connective between two formulas. -/
def binaryOp? (c : Char) : Option BinaryOp :=
  if c = 'v' then some .or
  else if c = '&' then some .and
  else if c = '=' then some .equiv
  else if c = '>' then some .implies
  else none

/-- The temporal operator between two formulas. -/
def temporalOp? (c : Char) : Option TemporalOp :=
  if c = 'U' then some .until
  else if c = 'R' then some .release
  else none

/-- Takes the first character of a formula. -/
def enter (stack : List Frame) (c : Char) : Option State :=
  if c = 'p' then some ⟨stack, .index none⟩
  else if c = 'T' then some (finish stack (.literal .top))
  else if c = '!' then some (finish stack (.literal .bot))
  else if c = 'F' then some ⟨stack, .letterF⟩
  else if c = 'G' then some ⟨stack, .bounds (.unary .always) .fresh⟩
  else if c = '~' then some ⟨.neg :: stack, .start⟩
  else if c = '(' then some ⟨stack, .opened⟩
  else none

/-- Takes the character after a formula that stands in the innermost frame. -/
def follow (f : Formula) : List Frame → Char → Option State
  | .list op members :: stack, c =>
    if c = ',' then some ⟨.list op (f :: members) :: stack, .start⟩
    else if c = ']' then some ⟨stack, .listTail (.list op (members.reverse ++ [f]))⟩
    else none
  | .left :: stack, c =>
    match binaryOp? c, temporalOp? c with
    | some op, _ => some ⟨.right f op :: stack, .start⟩
    | none, some op => some ⟨stack, .bounds (.temporal f op) .fresh⟩
    | none, none => none
  | .right lhs op :: stack, c =>
    if c = ')' then some (finish stack (.binary lhs op f)) else none
  | .rightTemporal lhs op int :: stack, c =>
    if c = ')' then some (finish stack (.temporal lhs op int f)) else none
  | _, _ => none

/-- Takes the character after a state in which a formula may have ended. -/
def followState (s : State) (c : Char) : Option State :=
  match s.phase with
  | .ended f => follow f s.stack c
  | _ => none

/-- An interval has advanced: its last bracket hands over to its operator. -/
def resume (stack : List Frame) : Owner → Bounds → State
  | .unary op, .closed int => ⟨.unary op int :: stack, .start⟩
  | .temporal lhs op, .closed int => ⟨.rightTemporal lhs op int :: stack, .start⟩
  | owner, b => ⟨stack, .bounds owner b⟩

/-- Takes one character. -/
def advance (fits : Nat → Bool) : State → Char → Option State
  | ⟨stack, .start⟩, c => enter stack c
  | ⟨stack, .opened⟩, c =>
    match listOp? c with
    | some op => some ⟨stack, .listHead op⟩
    | none => enter (.left :: stack) c
  | ⟨stack, .index digits⟩, c =>
    if c.isDigit then some ⟨stack, .index (some (appendDigit digits c))⟩
    else match digits with
      | some n => if fits n then followState (finish stack (.var n)) c else none
      | none => none
  | ⟨stack, .letterF⟩, c =>
    if c = '[' then some ⟨stack, .bounds (.unary .eventually) (.lower none)⟩
    else followState (finish stack (.literal .bot)) c
  | ⟨stack, .bounds owner b⟩, c => (b.advance fits c).map (resume stack owner)
  | ⟨stack, .listHead op⟩, c =>
    if c = '[' then some ⟨.list op [] :: stack, .start⟩ else none
  | ⟨stack, .listTail f⟩, c => if c = ')' then some (finish stack f) else none
  | ⟨stack, .ended f⟩, c => follow f stack c

/-- The first symbols of formulas. -/
def starters : List Expectation :=
  [.symbol '!', .symbol '(', .symbol 'F', .symbol 'G', .symbol 'T', .symbol 'p', .symbol '~']

/-- What may follow a formula that stands in the innermost frame. -/
def expectedAfter : List Frame → List Expectation
  | [] => [.endOfText]
  | .list .. :: _ => [.symbol ',', .symbol ']']
  | .left :: _ =>
    [.symbol '&', .symbol '=', .symbol '>', .symbol 'R', .symbol 'U', .symbol 'v']
  | .right .. :: _ => [.symbol ')']
  | .rightTemporal .. :: _ => [.symbol ')']
  | _ => []

/-- What may follow. A bracket behind a lone `F` goes unmentioned. -/
def expected (fits : Nat → Bool) : State → List Expectation
  | ⟨_, .start⟩ => starters
  | ⟨_, .opened⟩ => [.symbol '&', .symbol '=', .symbol 'v'] ++ starters
  | ⟨stack, .index digits⟩ =>
    Bounds.expectedAfterDigits fits
      (expectedAfter (finish stack (.literal .top)).stack) digits
  | ⟨stack, .letterF⟩ => expectedAfter (finish stack (.literal .bot)).stack
  | ⟨_, .bounds _ b⟩ => b.expected fits
  | ⟨_, .listHead _⟩ => [.symbol '[']
  | ⟨_, .listTail _⟩ => [.symbol ')']
  | ⟨stack, .ended _⟩ => expectedAfter stack

/-- The formula of a state in which nothing encloses it. -/
def whole? : State → Option Formula
  | ⟨[], .ended f⟩ => some f
  | _ => none

/-- The formula, if the text may end here. -/
def result? (fits : Nat → Bool) : State → Option Formula
  | ⟨stack, .index (some n)⟩ => if fits n then whole? (finish stack (.var n)) else none
  | ⟨stack, .letterF⟩ => whole? (finish stack (.literal .bot))
  | s => whole? s

/-- Reads a formula whose numbers fit. -/
def machine (fits : Nat → Bool) : Machine State Formula where
  start := ⟨[], .start⟩
  advance := advance fits
  result? := result? fits
  expected := expected fits

end Reader

end MissionTime

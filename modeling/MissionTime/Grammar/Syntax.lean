import MissionTime.Capped
import MissionTime.Formula.Basic
import MissionTime.Grammar.Rule

/-!
# The grammar of formulas

The rules of written formulas, one for each form, with the alternatives in the order in which they are
tried. The rule of formulas calls itself behind the first character of a text. Its attempts at the ends
of a text are recorded, so each is made once.

**Definitions.**
* `Rule.number`, `Rule.interval`, `Rule.variableName`, `Rule.constant`, `Rule.literal`, and `Rule.letter`,
  the `F` that is a constant;
* `Rule.unary`, `Rule.list`, `Rule.binary`, `Rule.temporal` and `Rule.alternatives`, over a rule for the
  formulas inside;
* `Rule.record`, the attempts at all ends of a text, `Rule.recording`, a rule with these for the formulas
  inside, and `Rule.formula`.

A number in a text is at most `largest`. An `F` is a constant if no bracket follows it.
-/

namespace MissionTime

/-- Whether a number may stand in a text. -/
def isReadable (n : Nat) : Bool :=
  decide (n ≤ largest)

namespace Rule

/-- A number, leading zeros allowed. It is known to be too large only when its digits have ended. -/
def number : Rule Nat := do
  let run ← digits
  let n := Nat.ofDigitChars 10 run 0
  ensure (isReadable n) .smallNumber
  return n

/-- An interval `[a,b]`. -/
def interval : Rule Interval := do
  char '['
  let lower ← number
  char ','
  let upper ← number
  char ']'
  return ⟨lower, upper⟩

/-- A variable: `p` and its index. -/
def variableName : Rule Variable := do
  char 'p'
  let index ← number
  return ⟨index, false⟩

/-- The letter `F`, if it opens no interval. -/
def letter : Rule Unit := do
  char 'F'
  unlessAhead (char '[')

/-- A constant. -/
def constant : Rule Literal :=
  choice [
    oneOf [('T', .top)],
    do
      choice [char '!', letter]
      return .bot]

theorem value?_letter_eq_some
    {text rest : List Char} {u : Unit} :
    (letter text).value? = some (u, rest) ↔ text = 'F' :: rest ∧ '[' ∉ rest.head? := by
  have ahead : (char '[' rest).value? = none ↔ '[' ∉ rest.head? := by
    cases rest with
    | nil => simp [char]
    | cons c rest => by_cases h : c = '[' <;> simp [char, h]
  rw [letter, value?_bind, Option.bind_eq_some_iff]
  constructor
  · rintro ⟨⟨u, last⟩, hF, h⟩
    obtain ⟨rfl, hnone⟩ := value?_unlessAhead_eq_some.mp h
    exact ⟨value?_char_eq_some.mp hF, ahead.mp hnone⟩
  · rintro ⟨rfl, h⟩
    exact ⟨((), rest), value?_char_eq_some.mpr rfl, value?_unlessAhead_eq_some.mpr ⟨rfl, ahead.mpr h⟩⟩

/-- The texts that begin with a constant. -/
theorem value?_constant_eq_some
    {text rest : List Char} {l : Literal} :
    (constant text).value? = some (l, rest) ↔
      text = 'T' :: rest ∧ l = .top ∨
        (text = '!' :: rest ∨ text = 'F' :: rest ∧ '[' ∉ rest.head?) ∧ l = .bot := by
  have mark : (choice [char '!', letter] text).value? = some ((), rest) ↔
      text = '!' :: rest ∨ text = 'F' :: rest ∧ '[' ∉ rest.head? := by
    rw [value?_choice_cons, value?_choice_cons, value?_choice_nil, Option.or_none,
      Option.or_eq_some_iff, value?_char_eq_some, value?_letter_eq_some]
    refine or_congr_right ⟨And.right, fun h => ⟨?_, h⟩⟩
    rw [h.1]
    rfl
  rw [constant, value?_choice_cons, value?_choice_cons, value?_choice_nil, Option.or_none,
    Option.or_eq_some_iff, value?_oneOf_singleton_eq_some, value?_bind, Option.bind_eq_some_iff]
  refine or_congr_right ⟨?_, fun ⟨h, hl⟩ => ⟨?_, ((), rest), mark.mpr h, by rw [hl]; rfl⟩⟩
  · rintro ⟨-, ⟨u, last⟩, hlast, ⟨⟩⟩
    exact ⟨mark.mp hlast, rfl⟩
  · rcases h with rfl | ⟨rfl, -⟩ <;> rfl

/-- A literal standing alone. -/
def literal : Rule Literal :=
  choice [
    do
      let x ← variableName
      return .var x,
    do
      char '~'
      let x ← variableName
      return .var x.flip,
    constant]

/-- The temporal operators on one formula. -/
def unaryOp : Rule UnaryOp :=
  oneOf [('F', .eventually), ('G', .always)]

/-- The temporal operators on two formulas. -/
def temporalOp : Rule TemporalOp :=
  oneOf [('U', .until), ('R', .release)]

/-- The connectives between two formulas. -/
def binaryOp : Rule BinaryOp :=
  oneOf [('v', .or), ('&', .and), ('=', .equiv), ('>', .implies)]

/-- The connectives in front of a list. -/
def listOp : Rule ListOp :=
  oneOf [('v', .or), ('&', .and), ('=', .equiv)]

section Forms

variable (inner : Rule Formula)

/-- A negation. -/
def negation : Rule Formula := do
  char '~'
  let sub ← inner
  return .neg sub

/-- A temporal operator in front of a formula. -/
def unary : Rule Formula := do
  let op ← unaryOp
  let int ← interval
  let sub ← inner
  return .unary op int sub

/-- A connective in front of a list. -/
def list : Rule Formula := do
  char '('
  let op ← listOp
  char '['
  let subs ← separated inner (char ',')
  char ']'
  char ')'
  return .list op subs

/-- A connective between two formulas. -/
def binary : Rule Formula := do
  char '('
  let lhs ← inner
  let op ← binaryOp
  let rhs ← inner
  char ')'
  return .binary lhs op rhs

/-- A temporal operator between two formulas. -/
def temporal : Rule Formula := do
  char '('
  let lhs ← inner
  let op ← temporalOp
  let int ← interval
  let rhs ← inner
  char ')'
  return .temporal lhs op int rhs

/-- The forms of formulas in the order in which they are tried. -/
def alternatives : Rule Formula :=
  choice [
    do
      let x ← variableName
      return .literal (.var x),
    do
      let l ← constant
      return .literal l,
    negation inner,
    unary inner,
    list inner,
    binary inner,
    temporal inner]

end Forms

section Record

/-- The recorded attempt at a text, which is found by the length of the text. -/
def lookup (known : Array (Attempt Formula)) : Rule Formula :=
  fun text => known[text.length]?.getD ⟨none, []⟩

/-- The attempts at all ends of a text, the shortest end first. -/
def record : List Char → Array (Attempt Formula)
  | [] => #[alternatives (lookup #[]) []]
  | c :: rest =>
    let known := record rest
    known.push (alternatives (lookup known) (c :: rest))

/-- A rule that looks up the formulas inside. -/
def recording {α : Type} (form : Rule Formula → Rule α) : Rule α :=
  fun text => form (lookup (record text)) text

/-- A formula. -/
def formula : Rule Formula :=
  recording id

end Record

end Rule

end MissionTime

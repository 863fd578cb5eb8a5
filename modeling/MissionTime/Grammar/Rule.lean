import MissionTime.Grammar.Expectation
import MissionTime.Text

/-!
# Rules of a written grammar

A rule reads a beginning of a text. Alternatives are ordered: the first that succeeds is taken, and what
an abandoned one has read is given back. An attempt also tells which terminals were tried in vain at
the furthest place that any alternative got to, so that a failure of the whole text can be located.

**Definitions.**
* `Miss`, a terminal tried in vain, and `furthest`, the misses that count;
* `Attempt` and `Rule`;
* `Rule.char`, `Rule.digits`, `Rule.ensure`, `Rule.endOfText`: the rules that miss;
* `Rule.choice`, `Rule.unlessAhead`, `Rule.separated`: ordered choice, lookahead, lists;
* `Rule.parse`, which reads a whole text, and `Rejection`, the place and the cause of a failure.

A lookahead misses nothing. A separator behind which no member follows is given back.
-/

namespace MissionTime

/-- A terminal that was tried in vain, and the number of characters that were left there. -/
structure Miss where
  left : Nat
  expected : Expectation
deriving DecidableEq, Repr

/-- The misses at the furthest place, each once. -/
def furthest (misses : List Miss) : List Miss :=
  (misses.filter fun m => misses.all fun n => decide (m.left ≤ n.left)).eraseDups

theorem mem_furthest
    {misses : List Miss} {m : Miss} :
    m ∈ furthest misses ↔ m ∈ misses ∧ ∀ n ∈ misses, m.left ≤ n.left := by
  simp [furthest, List.mem_eraseDups]

/-- What became of a rule at a place: the value and the rest of the text, if it succeeded, and the
misses on the way. -/
structure Attempt (α : Type) where
  value? : Option (α × List Char)
  misses : List Miss

/-- A rule of a grammar, with the values of what it reads. -/
def Rule (α : Type) : Type :=
  List Char → Attempt α

namespace Rule

variable {α β : Type}

/-- What a rule comes to behind other attempts, given what these have missed. -/
def behind (misses : List Miss) (attempt : Attempt α) : Attempt α :=
  ⟨attempt.value?, furthest (misses ++ attempt.misses)⟩

instance : Monad Rule where
  pure a := fun text => ⟨some (a, text), []⟩
  bind r next := fun text =>
    match r text with
    | ⟨some (a, rest), misses⟩ => behind misses (next a rest)
    | ⟨none, misses⟩ => ⟨none, misses⟩

section Sequence

variable {r : Rule α} {next : α → Rule β} {text rest : List Char} {a : α}

theorem bind_of_some
    (h : (r text).value? = some (a, rest)) :
    (r >>= next) text = behind (r text).misses (next a rest) := by
  change (match r text with
    | ⟨some (a, rest), misses⟩ => behind misses (next a rest)
    | ⟨none, misses⟩ => ⟨none, misses⟩) = _
  generalize r text = attempt at h ⊢
  obtain ⟨value?, misses⟩ := attempt
  subst h
  rfl

theorem bind_of_none
    (h : (r text).value? = none) :
    (r >>= next) text = ⟨none, (r text).misses⟩ := by
  change (match r text with
    | ⟨some (a, rest), misses⟩ => behind misses (next a rest)
    | ⟨none, misses⟩ => ⟨none, misses⟩) = _
  generalize r text = attempt at h ⊢
  obtain ⟨value?, misses⟩ := attempt
  subst h
  rfl

end Sequence

/-- Misses a terminal here. -/
def miss (e : Expectation) : Rule α :=
  fun text => ⟨none, [⟨text.length, e⟩]⟩

/-- One character. -/
def char (c : Char) : Rule Unit
  | [] => miss (.symbol c) []
  | d :: rest => if d = c then ⟨some ((), rest), []⟩ else miss (.symbol c) (d :: rest)

/-- The longest run of digits, which must not be empty. A further digit is missed behind it. -/
def digits : Rule (List Char) :=
  fun text =>
    let rest := text.dropWhile Char.isDigit
    match text.takeWhile Char.isDigit with
    | [] => miss .digit text
    | run => ⟨some (run, rest), [⟨rest.length, .digit⟩]⟩

/-- Goes on without reading if the condition holds. -/
def ensure (condition : Bool) (e : Expectation) : Rule Unit :=
  if condition then pure () else miss e

/-- The end of the text. -/
def endOfText : Rule Unit
  | [] => ⟨some ((), []), []⟩
  | text => miss .endOfText text

/-- The first alternative that succeeds. -/
def choice : List (Rule α) → Rule α
  | [] => fun _ => ⟨none, []⟩
  | r :: others => fun text =>
    match r text with
    | ⟨some result, misses⟩ => ⟨some result, misses⟩
    | ⟨none, misses⟩ => behind misses (choice others text)

section Choice

variable {r : Rule α} {others : List (Rule α)} {text : List Char}

theorem choice_of_some
    {result : α × List Char} (h : (r text).value? = some result) :
    choice (r :: others) text = r text := by
  rw [choice]
  dsimp only
  generalize r text = attempt at h ⊢
  obtain ⟨value?, misses⟩ := attempt
  subst h
  rfl

theorem choice_of_none
    (h : (r text).value? = none) :
    choice (r :: others) text = behind (r text).misses (choice others text) := by
  rw [choice]
  dsimp only
  generalize r text = attempt at h ⊢
  obtain ⟨value?, misses⟩ := attempt
  subst h
  rfl

end Choice

/-- One of several characters, with the value that stands beside it. -/
def oneOf (table : List (Char × α)) : Rule α :=
  choice (table.map fun entry => do
    char entry.1
    return entry.2)

/-- Goes on without reading if the rule would fail here; what it misses is forgotten. -/
def unlessAhead (r : Rule α) : Rule Unit :=
  fun text => ⟨if (r text).value?.isSome then none else some ((), text), []⟩

section Values

variable {text rest : List Char}

@[simp] theorem value?_pure
    (a : α) :
    ((pure a : Rule α) text).value? = some (a, text) := by
  rfl

@[simp] theorem misses_pure
    (a : α) :
    ((pure a : Rule α) text).misses = [] := by
  rfl

@[simp] theorem value?_miss
    (e : Expectation) :
    (miss e text : Attempt α).value? = none := by
  rfl

@[simp] theorem value?_behind
    (misses : List Miss) (attempt : Attempt α) :
    (behind misses attempt).value? = attempt.value? := by
  rfl

theorem value?_bind
    (r : Rule α) (next : α → Rule β) :
    ((r >>= next) text).value? = (r text).value?.bind fun result => (next result.1 result.2).value? := by
  cases h : (r text).value? with
  | none => rw [bind_of_none h, Option.bind_none]
  | some result => rw [bind_of_some h, Option.bind_some, value?_behind]

theorem value?_choice_cons
    (r : Rule α) (others : List (Rule α)) :
    (choice (r :: others) text).value? = (r text).value?.or (choice others text).value? := by
  cases h : (r text).value? with
  | none => rw [choice_of_none h, Option.none_or, value?_behind]
  | some result => rw [choice_of_some h, Option.some_or, h]

@[simp] theorem value?_choice_nil :
    (choice [] text : Attempt α).value? = none := by
  rfl

theorem value?_char_eq_some
    {c : Char} {u : Unit} :
    (char c text).value? = some (u, rest) ↔ text = c :: rest := by
  cases text with
  | nil => simp [char]
  | cons d text =>
      by_cases h : d = c <;> simp [char, h]

/-- One of several characters is read exactly if it stands first, with its value. -/
theorem value?_oneOf_cons
    (table : List (Char × α)) (c : Char) :
    (oneOf table (c :: rest)).value? = (table.lookup c).map fun a => (a, rest) := by
  induction table with
  | nil => rfl
  | cons entry table ih =>
      obtain ⟨d, a⟩ := entry
      rw [oneOf, List.map_cons, value?_choice_cons, ← oneOf, ih, value?_bind]
      by_cases h : c = d
      · simp [char, h]
      · have differ : (c == d) = false := by simpa using h
        simp [char, h, List.lookup_cons, differ]

@[simp] theorem value?_oneOf_nil
    (table : List (Char × α)) :
    (oneOf table []).value? = none := by
  induction table with
  | nil => rfl
  | cons entry table ih =>
      rw [oneOf, List.map_cons, value?_choice_cons, ← oneOf, ih, value?_bind]
      rfl

theorem value?_oneOf_eq_some
    {table : List (Char × α)} {a : α} :
    (oneOf table text).value? = some (a, rest) ↔ ∃ c, text = c :: rest ∧ table.lookup c = some a := by
  cases text with
  | nil => simp
  | cons c text =>
      rw [value?_oneOf_cons, Option.map_eq_some_iff]
      constructor
      · rintro ⟨b, hb, ⟨⟩⟩
        exact ⟨c, rfl, hb⟩
      · rintro ⟨d, ⟨⟩, ha⟩
        exact ⟨a, ha, rfl⟩

theorem value?_oneOf_singleton_eq_some
    {c : Char} {a b : α} :
    (oneOf [(c, a)] text).value? = some (b, rest) ↔ text = c :: rest ∧ b = a := by
  rw [value?_oneOf_eq_some]
  constructor
  · rintro ⟨d, rfl, h⟩
    cases hd : d == c with
    | false =>
        rw [List.lookup_cons, hd] at h
        cases h
    | true =>
        rw [List.lookup_cons, hd] at h
        exact ⟨by rw [eq_of_beq hd], (Option.some.inj h).symm⟩
  · rintro ⟨rfl, rfl⟩
    exact ⟨c, rfl, List.lookup_cons_self⟩

theorem value?_unlessAhead_eq_some
    {r : Rule α} {u : Unit} :
    (unlessAhead r text).value? = some (u, rest) ↔ text = rest ∧ (r text).value? = none := by
  cases h : (r text).value? <;> simp [unlessAhead, h]

end Values

/-- Further members of a list, for as long as a separator and a member follow, up to a number of
rounds. -/
def further (member : Rule α) (separator : Rule Unit) : Nat → Rule (List α)
  | 0 => pure []
  | rounds + 1 =>
    choice [
      do
        separator
        let a ← member
        let others ← further member separator rounds
        return a :: others,
      pure []]

/-- Members between separators, at least one. Every round reads a separator, so there are no more
rounds than characters. -/
def separated (member : Rule α) (separator : Rule Unit) : Rule (List α) :=
  fun text =>
    (do
      let first ← member
      let others ← further member separator (text.length + 1)
      return first :: others : Rule (List α)) text

/-- A rule for whole texts. -/
def whole (r : Rule α) : Rule α := do
  let a ← r
  endOfText
  return a

end Rule

/-- The byte position of a failure, and what could have stood there. -/
structure Rejection where
  position : Nat
  expected : List Expectation
deriving DecidableEq, Repr

/-- The place of the furthest misses, which is the same for all of them. -/
def Rejection.ofMisses (text : List Char) : List Miss → Rejection
  | [] => ⟨0, []⟩
  | m :: others =>
    ⟨byteLength (text.take (text.length - m.left)), (m :: others).map Miss.expected⟩

/-- Reads a whole text. -/
def Rule.parse {α : Type} (r : Rule α) (text : List Char) : Except Rejection α :=
  match r.whole text with
  | ⟨some (a, _), _⟩ => .ok a
  | ⟨none, misses⟩ => .error (.ofMisses text (furthest misses))

section Parse

variable {α : Type} {r : Rule α} {text rest : List Char} {a : α}

theorem Rule.parse_of_some
    (h : (r.whole text).value? = some (a, rest)) :
    r.parse text = .ok a := by
  rw [parse]
  generalize r.whole text = attempt at h ⊢
  obtain ⟨value?, misses⟩ := attempt
  subst h
  rfl

theorem Rule.parse_of_none
    (h : (r.whole text).value? = none) :
    r.parse text = .error (.ofMisses text (furthest (r.whole text).misses)) := by
  rw [parse]
  generalize r.whole text = attempt at h ⊢
  obtain ⟨value?, misses⟩ := attempt
  subst h
  rfl

/-- A text is read exactly if the rule succeeds and leaves nothing. -/
theorem Rule.parse_eq_ok_iff :
    r.parse text = .ok a ↔ (r text).value? = some (a, []) := by
  have value : (r.whole text).value? = (r text).value?.bind fun result =>
      ((endOfText >>= fun _ => pure result.1 : Rule α) result.2).value? :=
    value?_bind r _
  cases h : (r text).value? with
  | none =>
      rw [h] at value
      simp [parse_of_none value]
  | some result =>
      obtain ⟨b, rest⟩ := result
      rw [h] at value
      cases rest with
      | nil => simp [parse_of_some value]
      | cons c rest => simp [parse_of_none value]

end Parse

end MissionTime

import MissionTime.Proofs.Grammar.Derivation
import MissionTime.Proofs.Grammar.Reader

/-!
# Derivations and the reading machine

The reading machine follows the derivations of its text. It reads a derived text from any place at
which a formula may begin, and whatever it has read is a beginning of a derived text.

**Definitions.**
* `Reader.Reads`: the machine gets from one state to another over a text;
* `Reader.Closes`: a state in which a formula may end, and goes on as if it had;
* `Reader.Encloses`, `Bounds.Spells` and `Reader.Spells`: the text that a stack, the part of an
  interval, and a state stand for.

**Results.**
* `Reader.reads_derivation`: a derived text is read, inside any frames;
* `Reader.spells_reads`: what has been read is the text of the state.
-/

namespace MissionTime

/-- The number that a run of digits denotes, once it has begun. -/
def readDigits (digits : List Char) : Option Nat :=
  if digits = [] then none else some (Nat.ofDigitChars 10 digits 0)

theorem readDigits_concat
    (digits : List Char) (c : Char) :
    readDigits (digits ++ [c]) = some (appendDigit (readDigits digits) c) := by
  cases digits with
  | nil => rfl
  | cons d digits => simp [readDigits, appendDigit, Nat.ofDigitChars_append, Nat.ofDigitChars_cons]

theorem Numeral.readDigits_digits
    (n : Numeral) :
    readDigits n.digits = some n.value :=
  if_neg n.nonempty

theorem Numeral.isReadable_value
    (n : Numeral) :
    isReadable n.value = true :=
  decide_eq_true n.small

/-- A run of digits that has ended in a readable number is a numeral. -/
theorem exists_numeral
    {digits : List Char} (digital : ∀ c ∈ digits, c.isDigit = true) {n : Nat}
    (h : readDigits digits = some n) (hn : isReadable n = true) :
    ∃ m : Numeral, m.digits = digits ∧ m.value = n := by
  have nonempty : digits ≠ [] := by
    rintro rfl
    cases h
  obtain rfl := Option.some.inj ((if_neg nonempty).symm.trans h)
  exact ⟨⟨digits, nonempty, digital, of_decide_eq_true hn⟩, rfl, rfl⟩

theorem digital_concat
    {digits : List Char} (digital : ∀ d ∈ digits, d.isDigit = true) {c : Char}
    (hc : c.isDigit = true) :
    ∀ d ∈ digits ++ [c], d.isDigit = true := by
  intro d hd
  rcases List.mem_append.mp hd with h | h
  · exact digital d h
  · rwa [List.mem_singleton.mp h]

/-- A machine that collects digits has the number when the digits end. -/
theorem Machine.reach?_digits
    {State Result : Type} {m : Machine State Result} (collecting : Option Nat → State)
    (step : ∀ o c, c.isDigit = true →
      m.advance (collecting o) c = some (collecting (some (appendDigit o c))))
    {digits : List Char} (digital : ∀ c ∈ digits, c.isDigit = true) :
    m.reach? (collecting none) digits = some (collecting (readDigits digits)) := by
  induction digits using List.reverseRecOn with
  | nil => rfl
  | append_singleton digits c ih =>
      rw [reach?_append, ih fun d hd => digital d (List.mem_append_left _ hd), Option.bind_some,
        reach?_cons, step _ c (digital c (by simp)), readDigits_concat]
      rfl

namespace Bounds

/-- The text of the part of an interval that has been read. -/
inductive Spells : List Char → Bounds → Prop
  | fresh : Spells [] .fresh
  | lower {digits : List Char} (digital : ∀ c ∈ digits, c.isDigit = true) :
      Spells ('[' :: digits) (.lower (readDigits digits))
  | upper (n : Numeral) {digits : List Char} (digital : ∀ c ∈ digits, c.isDigit = true) :
      Spells ('[' :: (n.digits ++ ',' :: digits)) (.upper n.value (readDigits digits))
  | closed (w : Window) : Spells w.chars (.closed w.interval)

theorem spells_bracket :
    Spells ['['] (.lower none) :=
  @Spells.lower [] (by simp)

section Steps

variable {fits : Nat → Bool} {digits : Option Nat} {low : Nat} {b' : Bounds} {c : Char}

theorem lower_digit
    (hc : c.isDigit = true) :
    (Bounds.lower digits).advance fits c = some (.lower (some (appendDigit digits c))) :=
  if_pos hc

theorem upper_digit
    (hc : c.isDigit = true) :
    (Bounds.upper low digits).advance fits c = some (.upper low (some (appendDigit digits c))) :=
  if_pos hc

/-- Digits end before a certain character, behind a number that fits. -/
theorem digits_ended
    {next : Char} {ended : Nat → Bounds}
    (h : (match digits with
      | some n => if c = next ∧ fits n then some (ended n) else none
      | none => none) = some b') :
    ∃ n, digits = some n ∧ fits n = true ∧ c = next ∧ b' = ended n := by
  cases digits with
  | none => cases h
  | some n =>
      simp only [Option.ite_none_right_eq_some, Option.some.injEq] at h
      exact ⟨n, rfl, h.1.2, h.1.1, h.2.symm⟩

theorem lower_ended
    (hc : ¬ c.isDigit = true) (h : (Bounds.lower digits).advance fits c = some b') :
    ∃ n, digits = some n ∧ fits n = true ∧ c = ',' ∧ b' = .upper n none :=
  digits_ended ((if_neg hc).symm.trans h)

theorem upper_ended
    (hc : ¬ c.isDigit = true) (h : (Bounds.upper low digits).advance fits c = some b') :
    ∃ n, digits = some n ∧ fits n = true ∧ c = ']' ∧ b' = .closed ⟨low, n⟩ :=
  digits_ended ((if_neg hc).symm.trans h)

end Steps

/-- One character more keeps the text and the state together. -/
theorem spells_advance
    {u : List Char} {b b' : Bounds} {c : Char} (hb : Spells u b)
    (h : b.advance isReadable c = some b') :
    Spells (u ++ [c]) b' := by
  cases hb with
  | fresh =>
      simp only [advance, Option.ite_none_right_eq_some, Option.some.injEq] at h
      obtain ⟨rfl, rfl⟩ := h
      exact spells_bracket
  | @lower digits digital =>
      by_cases hc : c.isDigit = true
      · rw [lower_digit hc, ← readDigits_concat] at h
        obtain rfl := Option.some.inj h
        exact .lower (digital_concat digital hc)
      · obtain ⟨n, hread, hn, rfl, rfl⟩ := lower_ended hc h
        obtain ⟨m, rfl, rfl⟩ := exists_numeral digital hread hn
        exact .upper m (by simp)
  | @upper m digits digital =>
      by_cases hc : c.isDigit = true
      · rw [upper_digit hc, ← readDigits_concat] at h
        obtain rfl := Option.some.inj h
        simpa using Spells.upper m (digital_concat digital hc)
      · obtain ⟨n, hread, hn, rfl, rfl⟩ := upper_ended hc h
        obtain ⟨k, rfl, rfl⟩ := exists_numeral digital hread hn
        have text : Window.chars ⟨m, k⟩ = '[' :: (m.digits ++ ',' :: k.digits) ++ [']'] := by
          simp [Window.chars]
        rw [← text]
        exact .closed ⟨m, k⟩
  | closed w => simp [advance] at h

end Bounds

namespace Reader

section Runs

/-- The machine gets from `s` to `t` over the text `u`. -/
def Reads (s : State) (u : List Char) (t : State) : Prop :=
  (machine isReadable).reach? s u = some t

theorem reads_cons
    {s s' t : State} {c : Char} {u : List Char} (hc : advance isReadable s c = some s')
    (hu : Reads s' u t) :
    Reads s (c :: u) t := by
  have step : (machine isReadable).advance s c = some s' := hc
  rw [Reads, Machine.reach?_cons, step]
  exact hu

theorem Reads.append
    {s t r : State} {u v : List Char} (hu : Reads s u t) (hv : Reads t v r) :
    Reads s (u ++ v) r := by
  rw [Reads, Machine.reach?_append, hu]
  exact hv

theorem reads_nil
    (s : State) :
    Reads s [] s :=
  rfl

theorem reads_concat
    {s t r : State} {u : List Char} {c : Char} (hu : Reads s u t)
    (hc : advance isReadable t c = some r) :
    Reads s (u ++ [c]) r :=
  hu.append (reads_cons hc (reads_nil r))

end Runs

section Completeness

theorem reads_digits
    (stack : List Frame) {digits : List Char} (digital : ∀ c ∈ digits, c.isDigit = true) :
    Reads ⟨stack, .index none⟩ digits ⟨stack, .index (readDigits digits)⟩ :=
  Machine.reach?_digits (m := machine isReadable) (fun o => ⟨stack, .index o⟩)
    (fun _ _ hc => if_pos hc) digital

/-- An interval that has begun stays with its operator until its last bracket. -/
theorem resume_of_open
    (stack : List Frame) (owner : Owner) {b : Bounds} (hb : b.result? = none) :
    resume stack owner b = ⟨stack, .bounds owner b⟩ := by
  cases b with
  | closed int => simp [Bounds.result?] at hb
  | _ => cases owner <;> rfl

theorem bounds_open_of_advance
    {b b' : Bounds} {c : Char} (h : b.advance isReadable c = some b') :
    b.result? = none := by
  cases b with
  | closed int => simp [Bounds.advance] at h
  | _ => rfl

/-- The reader of intervals runs inside the reader of formulas. -/
theorem reads_bounds
    (stack : List Frame) (owner : Owner) {b b' : Bounds} {u : List Char}
    (h : (Bounds.machine isReadable).reach? b u = some b') :
    Reads (resume stack owner b) u (resume stack owner b') := by
  induction u generalizing b with
  | nil =>
      obtain rfl := Option.some.inj h
      exact reads_nil _
  | cons c u ih =>
      simp only [Machine.reach?_cons, Option.bind_eq_some_iff] at h
      obtain ⟨next, hc, hu⟩ := h
      refine reads_cons ?_ (ih hu)
      rw [resume_of_open stack owner (bounds_open_of_advance hc)]
      exact congrArg (Option.map _) hc

theorem reach_window
    (w : Window) :
    (Bounds.machine isReadable).reach? .fresh w.chars = some (.closed w.interval) := by
  have lower := Machine.reach?_digits (m := Bounds.machine isReadable) Bounds.lower
    (fun _ _ hc => Bounds.lower_digit hc) w.lower.digital
  have comma : (Bounds.machine isReadable).advance (.lower (some w.lower.value)) ',' =
      some (.upper w.lower.value none) := by
    simp [Bounds.machine, Bounds.advance, Numeral.isReadable_value]
  have upper := Machine.reach?_digits (m := Bounds.machine isReadable)
    (Bounds.upper w.lower.value) (fun _ _ hc => Bounds.upper_digit hc) w.upper.digital
  have bracket : (Bounds.machine isReadable).advance
      (.upper w.lower.value (some w.upper.value)) ']' = some (.closed w.interval) := by
    simp [Bounds.machine, Bounds.advance, Numeral.isReadable_value, Window.interval]
  rw [Numeral.readDigits_digits] at lower upper
  rw [Window.chars, Machine.reach?_cons]
  change Machine.reach? _ (Bounds.lower none) _ = _
  rw [Machine.reach?_append, lower, Option.bind_some, Machine.reach?_cons, comma,
    Option.bind_some, Machine.reach?_append, upper, Option.bind_some, Machine.reach?_cons, bracket]
  rfl

theorem reads_window
    (stack : List Frame) (owner : Owner) (w : Window) :
    Reads ⟨stack, .bounds owner .fresh⟩ w.chars (resume stack owner (.closed w.interval)) := by
  have h := reads_bounds stack owner (reach_window w)
  rwa [resume_of_open stack owner rfl] at h

/-- In the state `t` the formula `f` may end: every character that stops it is taken as behind the
finished formula, and so is the end of the text. -/
structure Closes (t : State) (stack : List Frame) (f : Formula) : Prop where
  follows : ∀ c : Char, c.isDigit = false → c ≠ '[' →
    advance isReadable t c = followState (finish stack f) c
  result : result? isReadable t = whole? (finish stack f)

/-- A formula and the operators before it have ended together. -/
theorem finish_eq
    (stack : List Frame) (f : Formula) :
    ∃ rest g, finish stack f = ⟨rest, .ended g⟩ := by
  induction stack generalizing f with
  | nil => exact ⟨_, _, rfl⟩
  | cons frame stack ih =>
      cases frame with
      | neg => exact ih (.neg f)
      | unary op int => exact ih (.unary op int f)
      | _ => exact ⟨_, _, rfl⟩

/-- What encloses a formula that has ended does not depend on the formula. -/
theorem finish_stack
    (stack : List Frame) (f g : Formula) :
    (finish stack f).stack = (finish stack g).stack := by
  induction stack generalizing f g with
  | nil => rfl
  | cons frame stack ih =>
      cases frame with
      | neg => exact ih _ _
      | unary op int => exact ih _ _
      | _ => rfl

theorem closes_finish
    (stack : List Frame) (f : Formula) :
    Closes (finish stack f) stack f := by
  obtain ⟨rest, g, h⟩ := finish_eq stack f
  rw [h]
  exact ⟨fun c _ _ => by rw [h]; rfl, by rw [h]; rfl⟩

theorem closes_letter
    (stack : List Frame) :
    Closes ⟨stack, .letterF⟩ stack (.literal .bot) :=
  ⟨fun c _ hc => by rw [advance, if_neg hc], rfl⟩

theorem closes_index
    (stack : List Frame) (n : Numeral) :
    Closes ⟨stack, .index (some n.value)⟩ stack (.var n.value) :=
  ⟨fun c hc _ => by simp [advance, hc, n.isReadable_value], by simp [result?, n.isReadable_value]⟩

/-- Behind an opening parenthesis a formula is read as behind any other frame. -/
theorem reads_opened
    {stack : List Frame} {d : Derivation} {t : State} (h : Reads ⟨.left :: stack, .start⟩ d.chars t) :
    Reads ⟨stack, .opened⟩ d.chars t := by
  -- Only the first character matters: no formula begins with the connective of a list.
  obtain ⟨c, u, hd⟩ : ∃ c u, d.chars = c :: u := by
    cases d <;> exact ⟨_, _, rfl⟩
  have hc : listOp? c = none := by
    cases d with
    | unary op => cases op <;> obtain rfl := (List.cons.inj hd).1 <;> decide
    | _ => obtain rfl := (List.cons.inj hd).1; decide
  rw [hd, Reads, Machine.reach?_cons] at h ⊢
  change (advance isReadable ⟨stack, .opened⟩ c).bind _ = some t
  rw [advance, hc]
  exact h

/-- The text of a derivation is read inside any frames, and may end there. -/
def Readable (d : Derivation) : Prop :=
  ∀ stack, ∃ t, Reads ⟨stack, .start⟩ d.chars t ∧ Closes t stack d.formula

/-- Behind a formula in a frame, a character that stops it is taken. -/
theorem reads_behind
    {t s : State} {stack : List Frame} {f : Formula} {c : Char} (ht : Closes t stack f)
    (hdigit : c.isDigit = false) (hbracket : c ≠ '[')
    (h : followState (finish stack f) c = some s) :
    advance isReadable t c = some s :=
  (ht.follows c hdigit hbracket).trans h

/-- The further members of a list are read one after the other, up to the closing parenthesis. -/
theorem reads_members
    {op : ListOp} {stack : List Frame} {rest : List Derivation} (hrest : ∀ d ∈ rest, Readable d)
    {members : List Formula} {f : Formula} {t : State}
    (ht : Closes t (.list op members :: stack) f) :
    Reads t (Derivation.charsOfRest rest ++ [']', ')'])
      (finish stack (.list op (members.reverse ++ f :: rest.map Derivation.formula))) := by
  induction rest generalizing members f t with
  | nil =>
      refine reads_cons (reads_behind ht (by decide) (by decide) rfl) ?_
      exact reads_cons rfl (reads_nil _)
  | cons d rest ih =>
      obtain ⟨r, hr, closes⟩ := hrest d List.mem_cons_self (.list op (f :: members) :: stack)
      have tail := ih (fun e he => hrest e (List.mem_cons_of_mem d he)) closes
      rw [Derivation.charsOfRest, List.cons_append, List.append_assoc]
      refine reads_cons (reads_behind ht (by decide) (by decide) rfl) (hr.append ?_)
      simpa using tail

theorem listOp?_symbol
    (op : ListOp) :
    listOp? op.symbol = some op := by
  cases op <;> decide

theorem binaryOp?_symbol
    (op : BinaryOp) :
    binaryOp? op.symbol = some op := by
  cases op <;> decide

theorem temporalOp?_symbol
    (op : TemporalOp) :
    binaryOp? op.symbol = none ∧ temporalOp? op.symbol = some op := by
  cases op <;> decide

theorem follow_binary
    (f : Formula) (op : BinaryOp) (stack : List Frame) :
    follow f (.left :: stack) op.symbol = some ⟨.right f op :: stack, .start⟩ := by
  rw [follow, binaryOp?_symbol]

theorem follow_temporal
    (f : Formula) (op : TemporalOp) (stack : List Frame) :
    follow f (.left :: stack) op.symbol = some ⟨stack, .bounds (.temporal f op) .fresh⟩ := by
  rw [follow, (temporalOp?_symbol op).1, (temporalOp?_symbol op).2]

/-- An operator on one formula and its interval. The letter `F` is read as the operator with the
bracket behind it. -/
theorem reads_unary
    (op : UnaryOp) (stack : List Frame) (w : Window) :
    Reads ⟨stack, .start⟩ (op.symbol :: w.chars) ⟨.unary op w.interval :: stack, .start⟩ := by
  have window := reads_window stack (.unary op) w
  cases op with
  | always => exact reads_cons rfl window
  | eventually => exact reads_cons rfl window

/-- Every derived text is read, inside any frames. -/
theorem reads_derivation
    (d : Derivation) :
    Readable d := by
  intro stack
  induction d generalizing stack with
  | var index =>
      refine ⟨_, reads_cons rfl (reads_digits stack index.digital), ?_⟩
      rw [index.readDigits_digits]
      exact closes_index stack index
  | top => exact ⟨_, reads_cons rfl (reads_nil _), closes_finish stack _⟩
  | mark => exact ⟨_, reads_cons rfl (reads_nil _), closes_finish stack _⟩
  | letter => exact ⟨_, reads_cons rfl (reads_nil _), closes_letter stack⟩
  | neg sub ih =>
      -- `finish` takes the frames of prefix operators off, so the operand closes for both.
      obtain ⟨t, ht, closes⟩ := ih (.neg :: stack)
      exact ⟨t, reads_cons rfl ht, ⟨closes.follows, closes.result⟩⟩
  | unary op w sub ih =>
      obtain ⟨t, ht, closes⟩ := ih (.unary op w.interval :: stack)
      exact ⟨t, (reads_unary op stack w).append ht, ⟨closes.follows, closes.result⟩⟩
  | list op first rest ihf ihr =>
      obtain ⟨t, ht, closes⟩ := ihf (.list op [] :: stack)
      rw [Derivation.formula_list]
      refine ⟨_, ?_, closes_finish stack _⟩
      have connective : advance isReadable ⟨stack, .opened⟩ op.symbol =
          some ⟨stack, .listHead op⟩ := by
        rw [advance, listOp?_symbol]
      exact reads_cons rfl (reads_cons connective (reads_cons rfl
        (ht.append (reads_members ihr closes))))
  | binary lhs op rhs ihl ihr =>
      obtain ⟨t, ht, closes⟩ := ihl (.left :: stack)
      obtain ⟨r, hr, closesr⟩ := ihr (.right lhs.formula op :: stack)
      refine ⟨_, ?_, closes_finish stack _⟩
      have connective : advance isReadable t op.symbol =
          some ⟨.right lhs.formula op :: stack, .start⟩ :=
        reads_behind closes (by cases op <;> decide) (by cases op <;> decide)
          (follow_binary lhs.formula op stack)
      exact reads_cons rfl ((reads_opened ht).append (reads_cons connective
        (reads_concat hr (reads_behind closesr (by decide) (by decide) rfl))))
  | temporal lhs op w rhs ihl ihr =>
      obtain ⟨t, ht, closes⟩ := ihl (.left :: stack)
      obtain ⟨r, hr, closesr⟩ := ihr (.rightTemporal lhs.formula op w.interval :: stack)
      refine ⟨_, ?_, closes_finish stack _⟩
      have connective : advance isReadable t op.symbol =
          some ⟨stack, .bounds (.temporal lhs.formula op) .fresh⟩ :=
        reads_behind closes (by cases op <;> decide) (by cases op <;> decide)
          (follow_temporal lhs.formula op stack)
      exact reads_cons rfl ((reads_opened ht).append (reads_cons connective
        ((reads_window stack _ w).append
          (reads_concat hr (reads_behind closesr (by decide) (by decide) rfl)))))

end Completeness

section Soundness

/-- The text before the place that is read, by what encloses it. Each member of a list stands before
a comma. -/
inductive Encloses : List Frame → List Char → Prop
  | nil : Encloses [] []
  | neg {stack : List Frame} {u : List Char} (outer : Encloses stack u) :
      Encloses (.neg :: stack) (u ++ ['~'])
  | unary {stack : List Frame} {u : List Char} (outer : Encloses stack u) (op : UnaryOp)
      (w : Window) :
      Encloses (.unary op w.interval :: stack) (u ++ op.symbol :: w.chars)
  | list {stack : List Frame} {u : List Char} (outer : Encloses stack u) (op : ListOp)
      (members : List Derivation) :
      Encloses (.list op (members.map Derivation.formula).reverse :: stack)
        (u ++ '(' :: op.symbol :: '[' :: members.flatMap (·.chars ++ [',']))
  | left {stack : List Frame} {u : List Char} (outer : Encloses stack u) :
      Encloses (.left :: stack) (u ++ ['('])
  | right {stack : List Frame} {u : List Char} (outer : Encloses stack u) (lhs : Derivation)
      (op : BinaryOp) :
      Encloses (.right lhs.formula op :: stack) (u ++ '(' :: (lhs.chars ++ [op.symbol]))
  | rightTemporal {stack : List Frame} {u : List Char} (outer : Encloses stack u)
      (lhs : Derivation) (op : TemporalOp) (w : Window) :
      Encloses (.rightTemporal lhs.formula op w.interval :: stack)
        (u ++ '(' :: (lhs.chars ++ op.symbol :: w.chars))

/-- The text between the enclosing frames and the interval of an operator. -/
inductive Introduces : Owner → List Char → Prop
  | unary (op : UnaryOp) : Introduces (.unary op) [op.symbol]
  | temporal (lhs : Derivation) (op : TemporalOp) :
      Introduces (.temporal lhs.formula op) ('(' :: (lhs.chars ++ [op.symbol]))

/-- The text behind the enclosing frames, by how far the formula at this place has come. -/
inductive Begins : Phase → List Char → Prop
  | start : Begins .start []
  | opened : Begins .opened ['(']
  | index {digits : List Char} (digital : ∀ c ∈ digits, c.isDigit = true) :
      Begins (.index (readDigits digits)) ('p' :: digits)
  | letterF : Begins .letterF ['F']
  | bounds {owner : Owner} {u v : List Char} {b : Bounds} (intro : Introduces owner u)
      (spelled : Bounds.Spells v b) :
      Begins (.bounds owner b) (u ++ v)
  | listHead (op : ListOp) : Begins (.listHead op) ['(', op.symbol]
  | listTail (op : ListOp) (first : Derivation) (rest : List Derivation) :
      Begins (.listTail (.list op (first.formula :: rest.map Derivation.formula)))
        ('(' :: op.symbol :: '[' :: (first.chars ++ (Derivation.charsOfRest rest ++ [']'])))
  | ended (d : Derivation) : Begins (.ended d.formula) d.chars

/-- The text that the machine has read when it is in a state. -/
def Spells (text : List Char) (s : State) : Prop :=
  ∃ u v, Encloses s.stack u ∧ Begins s.phase v ∧ text = u ++ v

theorem Begins.spells
    {stack : List Frame} {phase : Phase} {u v : List Char} (hv : Begins phase v)
    (hu : Encloses stack u) :
    Spells (u ++ v) ⟨stack, phase⟩ :=
  ⟨u, v, hu, hv, rfl⟩

theorem Encloses.spells
    {stack : List Frame} {u : List Char} (hu : Encloses stack u) :
    Spells u ⟨stack, .start⟩ :=
  ⟨u, [], hu, .start, (List.append_nil u).symm⟩

/-- A finished formula extends to the operators before it. -/
theorem spells_finish
    {stack : List Frame} {u : List Char} (hu : Encloses stack u) (d : Derivation) :
    Spells (u ++ d.chars) (finish stack d.formula) := by
  induction hu generalizing d with
  | neg _ ih => simpa [Derivation.chars, Derivation.formula, finish] using ih (.neg d)
  | unary _ op w ih =>
      simpa [Derivation.chars, Derivation.formula, finish] using ih (.unary op w d)
  | nil => exact (Begins.ended d).spells .nil
  | list outer op members => exact (Begins.ended d).spells (.list outer op members)
  | left outer => exact (Begins.ended d).spells (.left outer)
  | right outer lhs op => exact (Begins.ended d).spells (.right outer lhs op)
  | rightTemporal outer lhs op w =>
      exact (Begins.ended d).spells (.rightTemporal outer lhs op w)

theorem spells_enter
    {stack : List Frame} {u : List Char} {c : Char} {s : State} (hu : Encloses stack u)
    (h : enter stack c = some s) :
    Spells (u ++ [c]) s := by
  unfold enter at h
  split_ifs at h with hp hT hm hF hG hn ho
  all_goals subst c; obtain rfl := Option.some.inj h
  · exact (@Begins.index [] (by simp)).spells hu
  · exact spells_finish hu .top
  · exact spells_finish hu .mark
  · exact Begins.letterF.spells hu
  · exact (Begins.bounds (.unary .always) .fresh).spells hu
  · exact (Encloses.neg hu).spells
  · exact Begins.opened.spells hu

theorem symbol_of_listOp?
    {c : Char} {op : ListOp} (h : listOp? c = some op) :
    c = op.symbol := by
  unfold listOp? at h
  split_ifs at h with h₁ h₂ h₃
  all_goals obtain rfl := Option.some.inj h; assumption

theorem symbol_of_binaryOp?
    {c : Char} {op : BinaryOp} (h : binaryOp? c = some op) :
    c = op.symbol := by
  unfold binaryOp? at h
  split_ifs at h with h₁ h₂ h₃ h₄
  all_goals obtain rfl := Option.some.inj h; assumption

theorem symbol_of_temporalOp?
    {c : Char} {op : TemporalOp} (h : temporalOp? c = some op) :
    c = op.symbol := by
  unfold temporalOp? at h
  split_ifs at h with h₁ h₂
  all_goals obtain rfl := Option.some.inj h; assumption

/-- The texts of members before commas, and of one more behind them. -/
theorem flatMap_append_chars
    (members : List Derivation) (d : Derivation) :
    ∃ first rest, members ++ [d] = first :: rest ∧
      members.flatMap (·.chars ++ [',']) ++ d.chars = first.chars ++ Derivation.charsOfRest rest := by
  have later : ∀ members : List Derivation,
      ',' :: (members.flatMap (·.chars ++ [',']) ++ d.chars) =
        Derivation.charsOfRest (members ++ [d]) := by
    intro members
    induction members with
    | nil => simp [Derivation.charsOfRest]
    | cons e members ih => simp [Derivation.charsOfRest, ← ih]
  cases members with
  | nil => exact ⟨d, [], rfl, by simp [Derivation.charsOfRest]⟩
  | cons e members => exact ⟨e, members ++ [d], rfl, by simp [← later]⟩

theorem spells_follow
    {stack : List Frame} {u : List Char} {d : Derivation} {c : Char} {s : State}
    (hu : Encloses stack u) (h : follow d.formula stack c = some s) :
    Spells (u ++ d.chars ++ [c]) s := by
  cases hu with
  | @list stack u outer op members =>
      simp only [follow] at h
      split_ifs at h with hcomma hbracket
      · obtain rfl := Option.some.inj h
        subst c
        simpa using (Encloses.list outer op (members ++ [d])).spells
      · obtain rfl := Option.some.inj h
        subst c
        obtain ⟨first, rest, hmembers, htext⟩ := flatMap_append_chars members d
        have formulas := congrArg (List.map Derivation.formula) hmembers
        simp only [List.map_append, List.map_cons, List.map_nil] at formulas
        rw [List.reverse_reverse, formulas]
        have text := (Begins.listTail op first rest).spells outer
        rw [← List.append_assoc first.chars, ← htext] at text
        simpa using text
  | @left stack u outer =>
      cases hb : binaryOp? c with
      | some op =>
          simp only [follow, hb, Option.some.injEq] at h
          obtain rfl := h
          obtain rfl := symbol_of_binaryOp? hb
          simpa using (Encloses.right outer d op).spells
      | none =>
          cases ht : temporalOp? c with
          | none => simp [follow, hb, ht] at h
          | some op =>
              simp only [follow, hb, ht, Option.some.injEq] at h
              obtain rfl := h
              obtain rfl := symbol_of_temporalOp? ht
              simpa using (Begins.bounds (.temporal d op) .fresh).spells outer
  | @right stack u outer lhs op =>
      simp only [follow, Option.ite_none_right_eq_some, Option.some.injEq] at h
      obtain ⟨rfl, rfl⟩ := h
      simpa [Derivation.chars, Derivation.formula] using spells_finish outer (.binary lhs op d)
  | @rightTemporal stack u outer lhs op w =>
      simp only [follow, Option.ite_none_right_eq_some, Option.some.injEq] at h
      obtain ⟨rfl, rfl⟩ := h
      simpa [Derivation.chars, Derivation.formula] using spells_finish outer (.temporal lhs op w d)
  | _ => simp [follow] at h

theorem spells_followState
    {text : List Char} {t s : State} {c : Char} (ht : Spells text t)
    (h : followState t c = some s) :
    Spells (text ++ [c]) s := by
  obtain ⟨u, v, hu, hv, rfl⟩ := ht
  obtain ⟨stack, phase⟩ := t
  cases hv with
  | ended d => exact spells_follow hu h
  | _ => simp [followState] at h

/-- An interval goes on, or its operator encloses what follows. -/
theorem spells_resume
    {stack : List Frame} {owner : Owner} {u v w : List Char} {b : Bounds} (hu : Encloses stack u)
    (hv : Introduces owner v) (hb : Bounds.Spells w b) :
    Spells (u ++ (v ++ w)) (resume stack owner b) := by
  cases hb with
  | closed w =>
      cases hv with
      | unary op => exact (Encloses.unary hu op w).spells
      | temporal lhs op => simpa [resume] using (Encloses.rightTemporal hu lhs op w).spells
  | _ =>
      rw [resume_of_open stack owner rfl]
      exact (Begins.bounds hv (by constructor <;> assumption)).spells hu

/-- One character more keeps the text and the state together. -/
theorem spells_advance
    {text : List Char} {s t : State} {c : Char} (hs : Spells text s)
    (h : advance isReadable s c = some t) :
    Spells (text ++ [c]) t := by
  obtain ⟨u, v, hu, hv, rfl⟩ := hs
  obtain ⟨stack, phase⟩ := s
  cases hv with
  | start => simpa using spells_enter hu h
  | opened =>
      cases hc : listOp? c with
      | some op =>
          simp only [advance, hc, Option.some.injEq] at h
          obtain rfl := h
          obtain rfl := symbol_of_listOp? hc
          simpa using (Begins.listHead op).spells hu
      | none =>
          simp only [advance, hc] at h
          exact spells_enter (.left hu) h
  | @index digits digital =>
      by_cases hc : c.isDigit = true
      · obtain rfl := Option.some.inj ((if_pos hc).symm.trans h)
        rw [← readDigits_concat, List.append_assoc]
        exact (Begins.index (digital_concat digital hc)).spells hu
      · replace h := (if_neg hc).symm.trans h
        cases hread : readDigits digits with
        | none => simp [hread] at h
        | some n =>
            simp only [hread, Option.ite_none_right_eq_some] at h
            obtain ⟨m, rfl, rfl⟩ := exists_numeral digital hread h.1
            exact spells_followState (spells_finish hu (.var m)) h.2
  | letterF =>
      by_cases hc : c = '['
      · obtain rfl := Option.some.inj ((if_pos hc).symm.trans h)
        subst c
        simpa [UnaryOp.symbol] using
          (Begins.bounds (.unary .eventually) Bounds.spells_bracket).spells hu
      · exact spells_followState (spells_finish hu .letter) ((if_neg hc).symm.trans h)
  | @bounds owner v w b intro spelled =>
      simp only [advance, Option.map_eq_some_iff] at h
      obtain ⟨b', hb, rfl⟩ := h
      simpa using spells_resume hu intro (Bounds.spells_advance spelled hb)
  | listHead op =>
      simp only [advance, Option.ite_none_right_eq_some, Option.some.injEq] at h
      obtain ⟨rfl, rfl⟩ := h
      simpa using (Encloses.list hu op []).spells
  | listTail op first rest =>
      simp only [advance, Option.ite_none_right_eq_some, Option.some.injEq] at h
      obtain ⟨rfl, rfl⟩ := h
      simpa [Derivation.chars] using spells_finish hu (.list op first rest)
  | ended d => exact spells_follow hu h

/-- What has been read is the text of the state. -/
theorem spells_reads
    {text u : List Char} {s t : State} (hs : Spells text s) (h : Reads s u t) :
    Spells (text ++ u) t := by
  induction u generalizing text s with
  | nil =>
      obtain rfl := Option.some.inj h
      rwa [List.append_nil]
  | cons c u ih =>
      rw [Reads, Machine.reach?_cons, Option.bind_eq_some_iff] at h
      obtain ⟨next, hc, hu⟩ := h
      have tail := ih (spells_advance hs hc) hu
      rwa [List.append_assoc] at tail

theorem derivation_of_whole
    {text : List Char} {s : State} {f : Formula} (hs : Spells text s) (h : whole? s = some f) :
    ∃ d : Derivation, d.chars = text ∧ d.formula = f := by
  obtain ⟨u, v, hu, hv, rfl⟩ := hs
  obtain ⟨stack, phase⟩ := s
  cases hu with
  | nil =>
      cases hv with
      | ended d => exact ⟨d, rfl, Option.some.inj h⟩
      | _ => simp [whole?] at h
  | _ => simp [whole?] at h

/-- Where the text may end, it is derived. -/
theorem derivation_of_result
    {text : List Char} {s : State} {f : Formula} (hs : Spells text s)
    (h : result? isReadable s = some f) :
    ∃ d : Derivation, d.chars = text ∧ d.formula = f := by
  -- A number or the letter `F` at the end of the text ends there; `hs` still serves the other phases.
  obtain ⟨u, v, hu, hv, rfl⟩ := id hs
  obtain ⟨stack, phase⟩ := s
  cases hv with
  | @index digits digital =>
      cases hread : readDigits digits with
      | none => simp [hread, result?, whole?] at h
      | some n =>
          simp only [hread, result?, Option.ite_none_right_eq_some] at h
          obtain ⟨m, rfl, rfl⟩ := exists_numeral digital hread h.1
          exact derivation_of_whole (spells_finish hu (.var m)) h.2
  | letterF => exact derivation_of_whole (spells_finish hu .letter) h
  | _ => exact derivation_of_whole hs (by simpa [result?] using h)

end Soundness

end Reader

end MissionTime

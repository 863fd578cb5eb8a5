import MissionTime.Proofs.Grammar.Following
import MissionTime.Proofs.Grammar.Reading

/-!
# Numbers, intervals and literals, and the machines

The reading machines follow the rules without a formula inside: the one of intervals follows the rule of
intervals, and the one of formulas follows the rules of variables and constants inside any frames.

**Definitions.**
* `Machine.Collects`: a machine collects digits;
* `Reader.Ended`: a state in which a formula has ended, before what follows it.

**Results.**
* `Machine.follows_number`: the number is known to be too large where its digits have ended;
* `Bounds.decides_interval`: the machine of intervals and the rule of intervals decide alike;
* `Reader.follows_variable`, `Reader.follows_constant` and `Reader.refuses_letter`: the letter `F` is the
  constant if no bracket follows.
-/

namespace MissionTime

namespace Machine

variable {State Result α : Type} {m : Machine State Result}

/-- The states in which a number is read. -/
structure Collects (m : Machine State Result) (collecting : Option Nat → State)
    (next : List Expectation) : Prop where
  digit : ∀ o c, c.isDigit = true →
    m.advance (collecting o) c = some (collecting (some (appendDigit o c)))
  unbegun : ∀ rest, (∀ c ∈ rest.head?, c.isDigit = false) → m.Stuck (collecting none) rest
  tooLarge : ∀ n rest, isReadable n = false → (∀ c ∈ rest.head?, c.isDigit = false) →
    m.Stuck (collecting (some n)) rest
  expected : ∀ o, m.expected (collecting o) = Bounds.expectedAfterDigits isReadable next o

theorem follows_ensure
    {given : List Expectation} {s : State} {text : List Char} {condition : Bool} {e : Expectation}
    {next : Unit → Rule α} {ends : Ending State α}
    (fails : condition = false → m.Stuck s text ∧ ∀ e', e' ∈ m.expected s ↔ e' ∈ given ∨ e' = e)
    (hnext : condition = true → m.Follows given s text (next ()) ends) :
    m.Follows given s text (Rule.ensure condition e >>= next) ends := by
  cases condition with
  | true =>
      have passes : m.Follows given s text (Rule.ensure true e)
          fun _ rest t E => rest = text ∧ t = s ∧ E = given :=
        follows_pure () ⟨rfl, rfl, rfl⟩
      refine passes.bind ?_
      rintro _ _ _ _ _ - ⟨rfl, rfl, rfl⟩
      exact hnext rfl
  | false =>
      obtain ⟨stuck, same⟩ := fails rfl
      have refuses : (Rule.ensure false e).Refuses text [e] := ⟨rfl, frontier_miss _ _⟩
      exact follows_refusing (refuses.bind next) (by simp) stuck fun e' => by rw [same, List.mem_singleton]

theorem not_isDigit_head?_dropWhile
    (text : List Char) :
    ∀ c ∈ (text.dropWhile Char.isDigit).head?, c.isDigit = false := by
  intro c hc
  have stopped := List.head?_dropWhile_not Char.isDigit text
  rw [Option.mem_def.mp hc] at stopped
  exact stopped

/-- The longest run of digits is collected. -/
theorem follows_digits
    {collecting : Option Nat → State} {next : List Expectation} (h : m.Collects collecting next)
    (text : List Char) :
    m.Follows [] (collecting none) text Rule.digits fun run rest t E =>
      t = collecting (some (Nat.ofDigitChars 10 run 0)) ∧ (∀ c ∈ rest.head?, c.isDigit = false) ∧
        E = [.digit] := by
  have stopped := not_isDigit_head?_dropWhile text
  have parts := List.takeWhile_append_dropWhile (p := Char.isDigit) (l := text)
  have digital : ∀ c ∈ text.takeWhile Char.isDigit, c.isDigit = true :=
    List.all_eq_true.mp List.all_takeWhile
  cases hrun : text.takeWhile Char.isDigit with
  | nil =>
      have attempt : Rule.digits text = Rule.miss .digit text := by simp only [Rule.digits, hrun]
      have here : text.dropWhile Char.isDigit = text := by rwa [hrun] at parts
      rw [here] at stopped
      refine follows_refusing (E := [.digit]) ⟨by rw [attempt]; rfl, ?_⟩ (by simp)
        (h.unbegun text stopped) ?_
      · rw [attempt]
        exact frontier_miss _ _
      · intro e
        rw [h.expected]
        simp [Bounds.expectedAfterDigits]
  | cons c run =>
      intro before hbefore
      have attempt : Rule.digits text = ⟨some (c :: run, text.dropWhile Char.isDigit),
          [⟨(text.dropWhile Char.isDigit).length, .digit⟩]⟩ := by simp only [Rule.digits, hrun]
      rw [attempt]
      rw [hrun] at parts digital
      have reached := reach?_digits collecting h.digit digital
      rw [readDigits, if_neg (List.cons_ne_nil c run)] at reached
      refine .succeeds parts.symm reached ⟨rfl, stopped, rfl⟩ ?_
      have shorter : (text.dropWhile Char.isDigit).length < text.length := by
        have := congrArg List.length parts
        simp only [List.length_append, List.length_cons] at this
        omega
      exact (hbefore.passed shorter).append (frontier_miss _ _)

/-- A number is followed by collecting its digits. A further digit is missed behind it. -/
theorem follows_number
    {collecting : Option Nat → State} {next : List Expectation} (h : m.Collects collecting next)
    (text : List Char) :
    m.Follows [] (collecting none) text Rule.number fun n rest t E =>
      t = collecting (some n) ∧ isReadable n = true ∧ (∀ c ∈ rest.head?, c.isDigit = false) ∧
        E = [.digit] := by
  refine (follows_digits h text).bind ?_
  rintro run _ rest _ _ - ⟨rfl, stopped, rfl⟩
  refine follows_ensure (fun hlarge => ⟨h.tooLarge _ rest hlarge stopped, fun e => ?_⟩) fun hsmall =>
    follows_pure _ ⟨rfl, hsmall, stopped, rfl⟩
  rw [h.expected]
  simp [Bounds.expectedAfterDigits, hlarge]

end Machine

namespace Bounds

theorem collects_lower :
    (machine isReadable).Collects .lower [.symbol ','] where
  digit := fun _ _ hc => lower_digit hc
  unbegun := fun rest hrest => ⟨rfl, fun c hc => by
    change (if c.isDigit then _ else _) = _
    rw [hrest c hc]
    rfl⟩
  tooLarge := fun n rest hn hrest => ⟨rfl, fun c hc => by
    change (if c.isDigit then _ else _) = _
    simp [hrest c hc, hn]⟩
  expected := fun _ => rfl

theorem collects_upper
    (low : Nat) :
    (machine isReadable).Collects (.upper low) [.symbol ']'] where
  digit := fun _ _ hc => upper_digit hc
  unbegun := fun rest hrest => ⟨rfl, fun c hc => by
    change (if c.isDigit then _ else _) = _
    rw [hrest c hc]
    rfl⟩
  tooLarge := fun n rest hn hrest => ⟨rfl, fun c hc => by
    change (if c.isDigit then _ else _) = _
    simp [hrest c hc, hn]⟩
  expected := fun _ => rfl

/-- Behind the opening bracket the bounds of an interval are followed. -/
theorem follows_bounds
    (text : List Char) :
    (machine isReadable).Follows [] (.lower none) text
      (do
        let lower ← Rule.number
        Rule.char ','
        let upper ← Rule.number
        Rule.char ']'
        return Interval.mk lower upper)
      fun int _ b E => b = .closed int ∧ E = [] := by
  refine (Machine.follows_number collects_lower text).bind ?_
  rintro low _ rest _ _ - ⟨rfl, hlow, hrest, rfl⟩
  refine Machine.follows_required ?_ (fun hcomma => ⟨rfl, fun c hc => ?_⟩) ?_
  · simp [machine, expected, expectedAfterDigits, hlow]
  · have hne : c ≠ ',' := fun h => hcomma (h ▸ hc)
    simp [machine, advance, hrest c hc, hne]
  · rintro rest rfl
    refine ⟨.upper low none, by simp [machine, advance, hlow], ?_⟩
    refine (Machine.follows_number (collects_upper low) rest).bind ?_
    rintro high _ last _ _ - ⟨rfl, hhigh, hlast, rfl⟩
    refine Machine.follows_required ?_ (fun hbracket => ⟨rfl, fun c hc => ?_⟩) ?_
    · simp [machine, expected, expectedAfterDigits, hhigh]
    · have hne : c ≠ ']' := fun h => hbracket (h ▸ hc)
      simp [machine, advance, hlast c hc, hne]
    · rintro last rfl
      exact ⟨.closed ⟨low, high⟩, by simp [machine, advance, hhigh],
        Machine.follows_pure _ ⟨rfl, rfl⟩⟩

theorem follows_interval
    (text : List Char) :
    (machine isReadable).Follows [] .fresh text Rule.interval
      fun int _ b E => b = .closed int ∧ E = [] := by
  refine Machine.follows_required ?_ (fun hbracket => ⟨rfl, fun c hc => ?_⟩) ?_
  · simp [machine, expected]
  · have hne : c ≠ '[' := fun h => hbracket (h ▸ hc)
    simp [machine, advance, hne]
  · rintro rest rfl
    exact ⟨.lower none, rfl, follows_bounds rest⟩

/-- The machine of intervals and the rule of intervals decide alike on whole texts. -/
theorem decides_interval
    (text : List Char) :
    (machine isReadable).Decides text (Rule.interval.parse text) := by
  refine (follows_interval text).decides ⟨?_, ?_, ?_⟩
  · rintro int rest b E ⟨rfl, rfl⟩
    rfl
  · rintro int rest b E ⟨rfl, rfl⟩ c -
    rfl
  · rintro int rest b E ⟨rfl, rfl⟩ e
    simp [machine, expected]

end Bounds

namespace Reader

section Parts

variable {α : Type} {given : List Expectation} {stack : List Frame} {text : List Char} {r : Rule α}

/-- A rule that is followed inside an interval is followed inside the interval of an operator. -/
theorem follows_inside
    (stack : List Frame) (owner : Owner) {b : Bounds} {ends : Machine.Ending Bounds α}
    (hb : b.result? = none) (h : (Bounds.machine isReadable).Follows given b text r ends) :
    (machine isReadable).Follows given ⟨stack, .bounds owner b⟩ text r fun a rest t E =>
      ∃ b', ends a rest b' E ∧ t = resume stack owner b' := by
  intro before hbefore
  generalize hattempt : r text = attempt
  cases hattempt ▸ h before hbefore with
  | @succeeds a u rest b' misses E parts reached ended frontier =>
      have reads := reads_bounds stack owner reached
      rw [resume_of_open stack owner hb] at reads
      exact .succeeds parts reads ⟨b', ended, rfl⟩ frontier
  | @fails u v b' misses parts reached stuck expects frontier =>
      have reads := reads_bounds stack owner reached
      rw [resume_of_open stack owner hb, resume_of_open stack owner stuck.unfinished] at reads
      refine .fails parts reads ⟨by simp [machine, result?, whole?], fun c hc => ?_⟩ expects frontier
      exact congrArg (Option.map (resume stack owner)) (stuck.refuses c hc)

theorem collects_index
    (stack : List Frame) :
    (machine isReadable).Collects (fun o => ⟨stack, .index o⟩)
      (expectedAfter (finish stack (.literal .top)).stack) where
  digit := fun _ _ hc => if_pos hc
  unbegun := fun rest hrest => ⟨by simp [machine, result?, whole?], fun c hc => by
    change (if c.isDigit then _ else _) = _
    rw [hrest c hc]
    rfl⟩
  tooLarge := fun n rest hn hrest => ⟨by simp [machine, result?, hn], fun c hc => by
    change (if c.isDigit then _ else _) = _
    simp [hrest c hc, hn]⟩
  expected := fun _ => rfl

/-- In the state `t` the formula `f` has ended before `rest`, where `E` was missed: what follows is taken
as behind the finished formula. -/
structure Ended (stack : List Frame) (f : Formula) (rest : List Char) (t : State)
    (E : List Expectation) : Prop where
  follows : ∀ c ∈ rest.head?, advance isReadable t c = followState (finish stack f) c
  result : result? isReadable t = whole? (finish stack f)
  expected : ∀ e, e ∈ expected isReadable t ↔ e ∈ E ∨ e ∈ expectedAfter (finish stack f).stack

theorem ended_finish
    (stack : List Frame) (f : Formula) (rest : List Char) :
    Ended stack f rest (finish stack f) [] := by
  have closes := closes_finish stack f
  obtain ⟨others, g, h⟩ := finish_eq stack f
  exact ⟨fun c _ => by rw [h]; rfl, closes.result, fun e => by rw [h]; simp [Reader.expected]⟩

theorem ended_variable
    (stack : List Frame) {n : Nat} (hn : isReadable n = true) {rest : List Char}
    (stopped : ∀ c ∈ rest.head?, c.isDigit = false) :
    Ended stack (.var n) rest ⟨stack, .index (some n)⟩ [.digit] where
  follows := fun c hc => by simp [advance, stopped c hc, hn]
  result := by simp [result?, hn]
  expected := fun e => by
    rw [finish_stack stack (.var n) (.literal .top)]
    simp [Reader.expected, Bounds.expectedAfterDigits, hn]

theorem ended_letter
    (stack : List Frame) {rest : List Char} (h : '[' ∉ rest.head?) :
    Ended stack (.literal .bot) rest ⟨stack, .letterF⟩ [] where
  follows := fun c hc => by
    have hne : c ≠ '[' := fun heq => h (heq ▸ hc)
    rw [advance, if_neg hne]
  result := rfl
  expected := fun e => by simp [Reader.expected]

end Parts

section Literals

variable {given : List Expectation} {stack : List Frame} {rest : List Char}

theorem follows_variable
    (stack : List Frame) (rest : List Char) :
    (machine isReadable).Follows given ⟨stack, .start⟩ ('p' :: rest)
      (Rule.variableName >>= fun x => pure (.literal (.var x))) (Ended stack) := by
  have name : (machine isReadable).Follows given ⟨stack, .start⟩ ('p' :: rest) Rule.variableName
      fun x last t E => Ended stack (.literal (.var x)) last t E := by
    refine Machine.follows_char_bind (t := ⟨stack, .index none⟩) rfl ?_
    refine (Machine.follows_number (collects_index stack) rest).bind ?_
    rintro n _ last _ _ - ⟨rfl, hn, stopped, rfl⟩
    exact Machine.follows_pure _ (ended_variable stack hn stopped)
  exact name.bind fun x _ _ _ _ _ ended => Machine.follows_pure _ ended

/-- The letter `F` is the constant if no bracket follows. -/
theorem follows_letter
    (h : '[' ∉ rest.head?) :
    (machine isReadable).Follows given ⟨stack, .start⟩ ('F' :: rest) Rule.letter
      fun _ last t E => Ended stack (.literal .bot) last t E := by
  refine Machine.follows_char_bind (t := ⟨stack, .letterF⟩) rfl fun before hbefore => ?_
  have attempt : Rule.unlessAhead (Rule.char '[') rest = ⟨some ((), rest), []⟩ := by
    rw [Rule.unlessAhead, (Rule.refuses_char h).fails]
    rfl
  rw [attempt]
  exact .succeeds (u := []) rfl rfl (ended_letter stack h) (by simpa using hbefore)

/-- Before a bracket it is none, and nothing is missed behind it. -/
theorem refuses_letter
    (rest : List Char) :
    Rule.letter.Refuses ('F' :: '[' :: rest) [] :=
  ⟨rfl, frontier_nil _⟩

theorem refuses_top
    {text : List Char} (h : 'T' ∉ text.head?) :
    (Rule.oneOf [('T', Literal.top)]).Refuses text [.symbol 'T'] :=
  Rule.refuses_oneOf (by simpa using h)

theorem refuses_constant
    {text : List Char} (hT : 'T' ∉ text.head?) (hm : '!' ∉ text.head?) {E : List Expectation}
    (h : Rule.letter.Refuses text E) :
    Rule.constant.Refuses text (.symbol 'T' :: .symbol '!' :: E) :=
  ((refuses_top hT).or ((((Rule.refuses_char hm).or (h.or (Rule.refuses_nothing _))).bind _).or
    (Rule.refuses_nothing _))).congr fun e => by simp

theorem follows_top
    (stack : List Frame) (rest : List Char) :
    (machine isReadable).Follows given ⟨stack, .start⟩ ('T' :: rest) Rule.constant
      fun l last t E => Ended stack (.literal l) last t E := by
  have top : (machine isReadable).Follows given ⟨stack, .start⟩ ('T' :: rest)
      (Rule.oneOf [('T', Literal.top)]) fun l last t E => Ended stack (.literal l) last t E := by
    refine (Machine.follows_oneOf (a := .top) rfl rfl).mono ?_
    rintro l last t E ⟨rfl, rfl, rfl, rfl⟩
    exact ended_finish stack _ _
  exact top.take_of_refuses rfl (((Rule.Refuses.or (Rule.refuses_char (by simp)) (((Rule.refuses_char
    (by simp)).bind _).or (Rule.refuses_nothing _))).bind _).or (Rule.refuses_nothing _))

/-- What is read as the letter or the mark is read as the constant. -/
theorem follows_bot
    {c : Char} (hT : c ≠ 'T') (taken : (advance isReadable ⟨stack, .start⟩ c).isSome)
    (h : ∀ given, (machine isReadable).Follows given ⟨stack, .start⟩ (c :: rest)
      (Rule.choice [Rule.char '!', Rule.letter])
      fun _ last t E => Ended stack (.literal .bot) last t E) :
    (machine isReadable).Follows given ⟨stack, .start⟩ (c :: rest) Rule.constant
      fun l last t E => Ended stack (.literal l) last t E := by
  refine Machine.Follows.skip (refuses_top (by simpa using hT)) (Machine.Follows.only ?_ taken)
  exact (h _).bind fun _ _ _ _ _ _ ended => Machine.follows_pure _ ended

theorem follows_constant
    {c : Char} (h : c = 'T' ∨ c = '!' ∨ c = 'F' ∧ '[' ∉ rest.head?) :
    (machine isReadable).Follows given ⟨stack, .start⟩ (c :: rest) Rule.constant
      fun l last t E => Ended stack (.literal l) last t E := by
  rcases h with rfl | rfl | ⟨rfl, hrest⟩
  · exact follows_top stack rest
  · refine follows_bot (by decide) rfl fun given => ?_
    have mark : (machine isReadable).Follows given ⟨stack, .start⟩ ('!' :: rest) (Rule.char '!')
        fun _ last t E => Ended stack (.literal .bot) last t E := by
      refine (Machine.follows_char rfl).mono ?_
      rintro _ last t E ⟨rfl, rfl, rfl⟩
      exact ended_finish stack _ _
    exact mark.take_of_refuses rfl (((Rule.refuses_char (by simp)).bind _).or
      (Rule.refuses_nothing _))
  · refine follows_bot (by decide) rfl fun given => ?_
    exact .skip (Rule.refuses_char (by simp)) ((follows_letter hrest).only rfl)

end Literals

end Reader

end MissionTime

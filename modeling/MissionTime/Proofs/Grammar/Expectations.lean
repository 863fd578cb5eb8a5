import MissionTime.Proofs.Grammar.Reading

/-!
# What the reader expects

The expectations of a state of the reading machine are compared with what the state takes.

**Definitions.**
* `Reader.Settled`: the state waits for no interval that is already closed.

**Results.**
* `Reader.advance_iff`: a state takes the characters it expects, and the bracket behind the letter `F`;
* `Reader.digit_expected_of_advance`: behind a digit another one is expected;
* `Reader.endOfText_expected_iff`: the end of the text is expected where the text may end.
-/

namespace MissionTime

/-- What is expected behind a number that has ended is expected if the number fits. -/
theorem Bounds.mem_expectedAfterDigits_iff
    {fits : Nat → Bool} {next : List Expectation} {digits : Option Nat} {e : Expectation}
    (hdigit : e ≠ .digit) (hsmall : e ≠ .smallNumber) :
    e ∈ expectedAfterDigits fits next digits ↔
      ∃ n, digits = some n ∧ fits n = true ∧ e ∈ next := by
  cases digits with
  | none => simp [expectedAfterDigits, hdigit]
  | some n => cases hn : fits n <;> simp [expectedAfterDigits, hn, hdigit, hsmall]

theorem Bounds.digit_mem_expectedAfterDigits
    (fits : Nat → Bool) (next : List Expectation) (digits : Option Nat) :
    Expectation.digit ∈ expectedAfterDigits fits next digits := by
  cases digits with
  | none => simp [expectedAfterDigits]
  | some n => cases hn : fits n <;> simp [expectedAfterDigits, hn]

section Symbols

variable {c : Char}

theorem Bounds.not_digit_of_expected
    {fits : Nat → Bool} {b : Bounds} (h : .symbol c ∈ b.expected fits) :
    c.isDigit = false := by
  cases b with
  | fresh =>
      obtain rfl : c = '[' := by simpa [Bounds.expected] using h
      decide
  | lower digits =>
      obtain ⟨n, -, -, h⟩ := (mem_expectedAfterDigits_iff (by simp) (by simp)).mp h
      obtain rfl : c = ',' := by simpa using h
      decide
  | upper low digits =>
      obtain ⟨n, -, -, h⟩ := (mem_expectedAfterDigits_iff (by simp) (by simp)).mp h
      obtain rfl : c = ']' := by simpa using h
      decide
  | closed int => simp [Bounds.expected] at h

/-- An interval takes the characters it expects. -/
theorem Bounds.advance_iff
    {fits : Nat → Bool} {b : Bounds} :
    (∃ b', b.advance fits c = some b') ↔
      .symbol c ∈ b.expected fits ∨ c.isDigit = true ∧ .digit ∈ b.expected fits := by
  have last : ∀ digits next, (∃ n, digits = some n ∧ c = next ∧ fits n = true) ↔
      .symbol c ∈ expectedAfterDigits fits [.symbol next] digits := by
    intro digits next
    rw [mem_expectedAfterDigits_iff (by simp) (by simp)]
    simp only [List.mem_singleton, Expectation.symbol.injEq, and_comm]
  cases b with
  | fresh => simp [advance, expected]
  | lower digits =>
      cases hc : c.isDigit with
      | true => simp [lower_digit hc, expected, digit_mem_expectedAfterDigits]
      | false => cases digits <;> simp [advance, hc, expected, ← last]
  | upper low digits =>
      cases hc : c.isDigit with
      | true => simp [upper_digit hc, expected, digit_mem_expectedAfterDigits]
      | false => cases digits <;> simp [advance, hc, expected, ← last]
  | closed int => simp [advance, expected]

/-- Behind a digit the interval goes on, and another digit is expected. -/
theorem Bounds.digit_expected_of_advance
    {fits : Nat → Bool} {b b' : Bounds} (hc : c.isDigit = true) (h : b.advance fits c = some b') :
    b'.result? = none ∧ .digit ∈ b'.expected fits := by
  cases b with
  | fresh =>
      simp only [advance, Option.ite_none_right_eq_some] at h
      obtain ⟨rfl, -⟩ := h
      exact absurd hc (by decide)
  | lower digits =>
      obtain rfl := Option.some.inj ((lower_digit hc).symm.trans h)
      refine ⟨rfl, ?_⟩
      rw [expected]
      exact digit_mem_expectedAfterDigits _ _ _
  | upper low digits =>
      obtain rfl := Option.some.inj ((upper_digit hc).symm.trans h)
      refine ⟨rfl, ?_⟩
      rw [expected]
      exact digit_mem_expectedAfterDigits _ _ _
  | closed int => simp [advance] at h

end Symbols

namespace Reader

section Symbols

variable {stack : List Frame} {f : Formula} {c : Char} {s t : State}

theorem enter_iff :
    (∃ s, enter stack c = some s) ↔ .symbol c ∈ starters := by
  unfold enter starters
  split_ifs <;> simp [*]

theorem not_digit_of_starter
    (h : .symbol c ∈ starters) :
    c.isDigit = false := by
  simp only [starters, List.mem_cons, Expectation.symbol.injEq, List.not_mem_nil, or_false] at h
  rcases h with rfl | rfl | rfl | rfl | rfl | rfl | rfl <;> decide

theorem binaryOp?_iff :
    (∃ op, binaryOp? c = some op) ↔ c = 'v' ∨ c = '&' ∨ c = '=' ∨ c = '>' := by
  unfold binaryOp?
  split_ifs <;> simp [*]

theorem temporalOp?_iff :
    (∃ op, temporalOp? c = some op) ↔ c = 'U' ∨ c = 'R' := by
  unfold temporalOp?
  split_ifs <;> simp [*]

theorem listOp?_iff :
    (∃ op, listOp? c = some op) ↔ c = 'v' ∨ c = '&' ∨ c = '=' := by
  unfold listOp?
  split_ifs <;> simp [*]

theorem digit_not_mem_starters :
    Expectation.digit ∉ starters := by
  decide

theorem follow_left_iff :
    (∃ s, follow f (.left :: stack) c = some s) ↔
      (∃ op, binaryOp? c = some op) ∨ ∃ op, temporalOp? c = some op := by
  cases hb : binaryOp? c <;> cases ht : temporalOp? c <;> simp [follow, hb, ht]

theorem follow_iff :
    (∃ s, follow f stack c = some s) ↔ .symbol c ∈ expectedAfter stack := by
  cases stack with
  | nil => simp [follow, expectedAfter]
  | cons frame stack =>
      cases frame with
      | left =>
          rw [follow_left_iff, binaryOp?_iff, temporalOp?_iff]
          simp only [expectedAfter, List.mem_cons, Expectation.symbol.injEq, List.not_mem_nil,
            or_false]
          tauto
      | list op members =>
          simp only [follow]
          split_ifs <;> simp [expectedAfter, *]
      | _ => simp [follow, expectedAfter]

theorem not_digit_of_expectedAfter
    (h : .symbol c ∈ expectedAfter stack) :
    c.isDigit = false := by
  cases stack with
  | nil => simp [expectedAfter] at h
  | cons frame stack =>
      cases frame <;>
        simp only [expectedAfter, List.mem_cons, Expectation.symbol.injEq, List.not_mem_nil,
          or_false] at h
      all_goals
        rcases h with rfl | rfl | rfl | rfl | rfl | rfl <;> decide

theorem followState_finish_iff
    (stack : List Frame) (f g : Formula) :
    (∃ s, followState (finish stack f) c = some s) ↔
      .symbol c ∈ expectedAfter (finish stack g).stack := by
  rw [finish_stack stack g f]
  obtain ⟨rest, h, hfinish⟩ := finish_eq stack f
  rw [hfinish]
  exact follow_iff

/-- A digit is never expected as a symbol. -/
theorem not_digit_of_expected
    {fits : Nat → Bool} (h : .symbol c ∈ expected fits s) :
    c.isDigit = false := by
  obtain ⟨stack, phase⟩ := s
  cases phase with
  | start => exact not_digit_of_starter h
  | opened =>
      rcases List.mem_append.mp h with h | h
      · simp only [List.mem_cons, Expectation.symbol.injEq, List.not_mem_nil, or_false] at h
        rcases h with rfl | rfl | rfl <;> decide
      · exact not_digit_of_starter h
  | index digits =>
      obtain ⟨n, -, -, h⟩ := (Bounds.mem_expectedAfterDigits_iff (by simp) (by simp)).mp h
      exact not_digit_of_expectedAfter h
  | letterF => exact not_digit_of_expectedAfter h
  | bounds owner b => exact Bounds.not_digit_of_expected h
  | listHead op =>
      obtain rfl : c = '[' := by simpa [expected] using h
      decide
  | listTail f =>
      obtain rfl : c = ')' := by simpa [expected] using h
      decide
  | ended f => exact not_digit_of_expectedAfter h

theorem digit_not_mem_expectedAfter
    (stack : List Frame) :
    Expectation.digit ∉ expectedAfter stack := by
  cases stack with
  | nil => simp [expectedAfter]
  | cons frame stack => cases frame <;> simp [expectedAfter]

theorem opened_iff
    {fits : Nat → Bool} :
    (∃ t, advance fits ⟨stack, .opened⟩ c = some t) ↔
      (∃ op, listOp? c = some op) ∨ .symbol c ∈ starters := by
  cases hc : listOp? c with
  | some op => simp [advance, hc]
  | none => simp [advance, hc, enter_iff]

/-- A state takes the characters it expects, and the bracket behind the letter `F`. -/
theorem advance_iff
    {fits : Nat → Bool} :
    (∃ t, advance fits s c = some t) ↔
      .symbol c ∈ expected fits s ∨ (c.isDigit = true ∧ .digit ∈ expected fits s) ∨
        (s.phase = .letterF ∧ c = '[') := by
  obtain ⟨stack, phase⟩ := s
  cases phase with
  | start =>
      rw [advance, enter_iff]
      simp [expected, digit_not_mem_starters]
  | opened =>
      rw [opened_iff, listOp?_iff]
      simp only [expected, List.mem_append, List.mem_cons, Expectation.symbol.injEq, List.not_mem_nil,
        digit_not_mem_starters, reduceCtorEq]
      tauto
  | index digits =>
      cases hc : c.isDigit with
      | true => simp [advance, hc, expected, Bounds.digit_mem_expectedAfterDigits]
      | false =>
          rw [expected, Bounds.mem_expectedAfterDigits_iff (by simp) (by simp)]
          cases digits with
          | none => simp [advance, hc]
          | some n =>
              cases hn : fits n with
              | false => simp [advance, hc, hn]
              | true =>
                  simpa [advance, hc, hn] using
                    followState_finish_iff stack (.var n) (.literal .top)
  | letterF =>
      by_cases hc : c = '['
      · simp [advance, hc]
      · simpa [advance, hc, expected, digit_not_mem_expectedAfter] using
          followState_finish_iff stack (.literal .bot) (.literal .bot)
  | bounds owner b => simp [advance, expected, ← Bounds.advance_iff]
  | listHead op => simp [advance, expected]
  | listTail f => simp [advance, expected]
  | ended f => simp [advance, expected, follow_iff, digit_not_mem_expectedAfter]

/-- A digit is taken where one is expected. -/
theorem digit_expected_of_taken
    {fits : Nat → Bool} (hc : c.isDigit = true) (h : ∃ t, advance fits s c = some t) :
    .digit ∈ expected fits s := by
  rcases advance_iff.mp h with hsymbol | ⟨-, hdigit⟩ | ⟨-, rfl⟩
  · rw [not_digit_of_expected hsymbol] at hc
    cases hc
  · exact hdigit
  · exact absurd hc (by decide)

/-- Behind a digit another one is expected. -/
theorem digit_expected_of_advance
    {fits : Nat → Bool} (hc : c.isDigit = true) (h : advance fits s c = some t) :
    .digit ∈ expected fits t := by
  have taken := digit_expected_of_taken hc ⟨t, h⟩
  -- Only in numbers is a digit expected.
  obtain ⟨stack, phase⟩ := s
  cases phase with
  | index digits =>
      obtain rfl := Option.some.inj ((if_pos hc).symm.trans h)
      rw [expected]
      exact Bounds.digit_mem_expectedAfterDigits _ _ _
  | bounds owner b =>
      obtain ⟨b', hb, rfl⟩ := Option.map_eq_some_iff.mp h
      obtain ⟨running, digit⟩ := Bounds.digit_expected_of_advance hc hb
      rw [resume_of_open stack owner running]
      exact digit
  | _ => simp [expected, digit_not_mem_starters, digit_not_mem_expectedAfter] at taken

end Symbols

section Ends

variable {stack : List Frame} {f : Formula} {c : Char} {s t : State} {u : List Char}

/-- The state waits for no interval that is already closed. -/
def Settled (s : State) : Prop :=
  ∀ owner int, s.phase ≠ .bounds owner (.closed int)

theorem settled_finish
    (stack : List Frame) (f : Formula) :
    Settled (finish stack f) := by
  obtain ⟨rest, g, h⟩ := finish_eq stack f
  rw [h]
  exact fun _ _ => Phase.noConfusion

theorem settled_enter
    (h : enter stack c = some t) :
    Settled t := by
  unfold enter at h
  split_ifs at h
  all_goals obtain rfl := Option.some.inj h
  all_goals first | exact settled_finish _ _ | simp [Settled]

theorem settled_follow
    (h : follow f stack c = some t) :
    Settled t := by
  unfold follow at h
  split at h
  · split_ifs at h
    all_goals obtain rfl := Option.some.inj h; simp [Settled]
  · split at h
    all_goals cases h; try simp [Settled]
  · split_ifs at h
    obtain rfl := Option.some.inj h
    exact settled_finish _ _
  · split_ifs at h
    obtain rfl := Option.some.inj h
    exact settled_finish _ _
  · cases h

theorem settled_resume
    (stack : List Frame) (owner : Owner) (b : Bounds) :
    Settled (resume stack owner b) := by
  cases b <;> cases owner <;> simp [resume, Settled]

theorem settled_followState
    (h : followState s c = some t) :
    Settled t := by
  unfold followState at h
  split at h
  · exact settled_follow h
  · cases h

theorem settled_advance
    {fits : Nat → Bool} (h : advance fits s c = some t) :
    Settled t := by
  obtain ⟨stack, phase⟩ := s
  cases phase with
  | start => exact settled_enter h
  | opened =>
      cases hc : listOp? c with
      | some op =>
          simp only [advance, hc, Option.some.injEq] at h
          subst h
          simp [Settled]
      | none =>
          simp only [advance, hc] at h
          exact settled_enter h
  | index digits =>
      simp only [advance] at h
      split_ifs at h
      · obtain rfl := Option.some.inj h
        simp [Settled]
      · cases digits with
        | none => cases h
        | some n =>
            simp only [Option.ite_none_right_eq_some] at h
            exact settled_followState h.2
  | letterF =>
      simp only [advance] at h
      split_ifs at h
      · obtain rfl := Option.some.inj h
        simp [Settled]
      · exact settled_followState h
  | bounds owner b =>
      obtain ⟨b', -, rfl⟩ := Option.map_eq_some_iff.mp h
      exact settled_resume stack owner b'
  | listHead op =>
      simp only [advance, Option.ite_none_right_eq_some, Option.some.injEq] at h
      obtain ⟨-, rfl⟩ := h
      simp [Settled]
  | listTail f =>
      simp only [advance, Option.ite_none_right_eq_some, Option.some.injEq] at h
      obtain ⟨-, rfl⟩ := h
      exact settled_finish stack f
  | ended f => exact settled_follow h

theorem settled_reads
    (hs : Settled s) (h : Reads s u t) :
    Settled t := by
  induction u generalizing s with
  | nil =>
      obtain rfl := Option.some.inj h
      exact hs
  | cons c u ih =>
      rw [Reads, Machine.reach?_cons, Option.bind_eq_some_iff] at h
      obtain ⟨next, hc, hu⟩ := h
      exact ih (settled_advance hc) hu

theorem whole?_iff
    (stack : List Frame) (f : Formula) :
    .endOfText ∈ expectedAfter stack ↔ ∃ g, whole? ⟨stack, .ended f⟩ = some g := by
  cases stack with
  | nil => simp [expectedAfter, whole?]
  | cons frame stack => cases frame <;> simp [expectedAfter, whole?]

theorem whole?_finish_iff
    (stack : List Frame) (f g : Formula) :
    .endOfText ∈ expectedAfter (finish stack f).stack ↔
      ∃ h, whole? (finish stack g) = some h := by
  rw [finish_stack stack f g]
  obtain ⟨rest, h, hfinish⟩ := finish_eq stack g
  rw [hfinish]
  exact whole?_iff rest h

/-- The end of the text is expected where the text may end. -/
theorem endOfText_expected_iff
    {fits : Nat → Bool} (hs : Settled s) :
    .endOfText ∈ expected fits s ↔ ∃ f, result? fits s = some f := by
  obtain ⟨stack, phase⟩ := s
  cases phase with
  | start => simp [expected, starters, result?, whole?]
  | opened => simp [expected, starters, result?, whole?]
  | index digits =>
      rw [expected, Bounds.mem_expectedAfterDigits_iff (by simp) (by simp)]
      cases digits with
      | none => simp [result?, whole?]
      | some n =>
          cases hn : fits n with
          | false => simp [result?, hn]
          | true => simpa [result?, hn] using whole?_finish_iff stack (.literal .top) (.var n)
  | letterF => exact whole?_finish_iff stack _ _
  | bounds owner b =>
      have running : .endOfText ∉ b.expected fits := by
        cases b with
        | fresh => simp [Bounds.expected]
        | closed int => exact absurd rfl (hs owner int)
        | _ => simp [Bounds.expected, Bounds.mem_expectedAfterDigits_iff]
      simp [expected, result?, whole?, running]
  | listHead op => simp [expected, result?, whole?]
  | listTail f => simp [expected, result?, whole?]
  | ended f => exact whole?_iff stack f

end Ends

end Reader

end MissionTime

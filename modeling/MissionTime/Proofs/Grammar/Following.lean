import MissionTime.Proofs.Grammar.Machine
import MissionTime.Proofs.Grammar.Frontier

/-!
# Rules and machines

A rule tries one alternative after the other and gives back what an abandoned one has read; a machine
goes through the text once. The machine follows the rule if it goes as far as the furthest of the tried
alternatives and no further: where the rule succeeds it stands at the end of what was read, and where
the rule fails it is stuck at the furthest miss, expecting exactly what was missed there.

**Definitions.**
* `Machine.Tracks` and `Machine.Follows`: a machine follows an attempt, and a rule at a text;
* `Machine.Decides`: a machine and the outcome of a rule at a whole text.

**Results.**
* `Machine.Follows.bind`: rules in a row are followed one after the other;
* `Machine.Follows.skip` and `Machine.Follows.take`: an alternative that refuses the text leaves its
  misses to the next one, and an alternative that goes on decides when the others refuse;
* `Machine.Follows.take_bind`: an alternative that goes on decides against giving back what it has read,
  if the rule behind the choice refuses the text;
* `Machine.Follows.decides`: a whole text is refused where the machine is stuck.
-/

namespace MissionTime

namespace Machine

/-- What is said of a rule that has succeeded: of its value, the rest of the text, the state of the machine,
and the misses at this place. -/
def Ending (State α : Type) : Type :=
  α → List Char → State → List Expectation → Prop

variable {State Result α β : Type} {m : Machine State Result}

/-- The machine follows an attempt at a text from a state, after other misses: where the rule succeeds,
the machine has taken what was read, and else it is stuck where the misses are. -/
inductive Tracks (m : Machine State Result) (s : State) (before : List Miss) (text : List Char)
    (ends : Ending State α) : Attempt α → Prop
  | succeeds {a : α} {u rest : List Char} {t : State} {misses : List Miss} {E : List Expectation}
      (parts : text = u ++ rest) (reached : m.reach? s u = some t) (ended : ends a rest t E)
      (frontier : Frontier (before ++ misses) rest.length E) :
      Tracks m s before text ends ⟨some (a, rest), misses⟩
  | fails {u v : List Char} {t : State} {misses : List Miss}
      (parts : text = u ++ v) (reached : m.reach? s u = some t) (stuck : m.Stuck t v)
      (expects : m.expected t ≠ []) (frontier : Frontier (before ++ misses) v.length (m.expected t)) :
      Tracks m s before text ends ⟨none, misses⟩

/-- The machine follows a rule at a text, whatever was missed before, if the misses at this place are
the given ones. -/
def Follows (m : Machine State Result) (given : List Expectation) (s : State) (text : List Char)
    (r : Rule α) (ends : Ending State α) : Prop :=
  ∀ before, Frontier before text.length given → m.Tracks s before text ends (r text)

variable {given E : List Expectation} {s t : State} {text rest : List Char} {before : List Miss}
  {r : Rule α} {ends : Ending State α}

section Tracking

/-- Only the value and the frontier of an attempt matter. -/
theorem Tracks.congr
    {attempt attempt' : Attempt α} (h : m.Tracks s before text ends attempt)
    (alike : Rule.Alike attempt attempt') :
    m.Tracks s before text ends attempt' := by
  obtain ⟨value?, others⟩ := attempt'
  obtain ⟨value, misses⟩ := alike
  cases h with
  | succeeds parts reached ended frontier =>
      subst value
      exact .succeeds parts reached ended ((misses before _ _).mp frontier)
  | fails parts reached stuck expects frontier =>
      subst value
      exact .fails parts reached stuck expects ((misses before _ _).mp frontier)

/-- An attempt further on in the text is followed behind what was taken. -/
theorem Tracks.behind
    {u : List Char} {misses : List Miss} {attempt : Attempt α}
    (parts : text = u ++ rest) (reached : m.reach? s u = some t)
    (h : m.Tracks t (before ++ misses) rest ends attempt) :
    m.Tracks s before text ends (Rule.behind misses attempt) := by
  have joined : ∀ others left E, Frontier (before ++ misses ++ others) left E →
      Frontier (before ++ furthest (misses ++ others)) left E := by
    intro others left E hf
    rw [List.append_assoc] at hf
    exact (sameFrontier_furthest _ before left E).mpr hf
  cases h with
  | @succeeds a v last t' others E parts' reached' ended frontier =>
      refine .succeeds (u := u ++ v) ?_ ?_ ended (joined _ _ _ frontier)
      · rw [parts, parts', List.append_assoc]
      · rw [reach?_append, reached, Option.bind_some, reached']
  | @fails v w t' others parts' reached' stuck expects frontier =>
      refine .fails (u := u ++ v) ?_ ?_ stuck expects (joined _ _ _ frontier)
      · rw [parts, parts', List.append_assoc]
      · rw [reach?_append, reached, Option.bind_some, reached']

end Tracking

section Combining

theorem Follows.mono
    {ends' : Ending State α} (h : m.Follows given s text r ends)
    (himp : ∀ a rest t E, ends a rest t E → ends' a rest t E) :
    m.Follows given s text r ends' := by
  intro before hbefore
  generalize hattempt : r text = attempt
  cases hattempt ▸ h before hbefore with
  | succeeds parts reached ended frontier =>
      exact .succeeds parts reached (himp _ _ _ _ ended) frontier
  | fails parts reached stuck expects frontier => exact .fails parts reached stuck expects frontier

theorem follows_pure
    (a : α) (h : ends a text s given) :
    m.Follows given s text (pure a) ends :=
  fun before hbefore => .succeeds (u := []) rfl rfl h (by simpa using hbefore)

/-- A rule that refuses the text is followed by a machine that is stuck there. -/
theorem follows_refusing
    (h : r.Refuses text E) (some : E ≠ []) (stuck : m.Stuck s text)
    (same : ∀ e, e ∈ m.expected s ↔ e ∈ given ∨ e ∈ E) :
    m.Follows given s text r ends := by
  intro before hbefore
  generalize hattempt : r text = attempt
  obtain ⟨fails, frontier⟩ := h
  rw [hattempt] at fails frontier
  obtain ⟨value?, misses⟩ := attempt
  subst fails
  have expects : m.expected s ≠ [] := by
    obtain ⟨e, he⟩ := List.exists_mem_of_ne_nil E some
    exact List.ne_nil_of_mem ((same e).mpr (.inr he))
  refine .fails (u := []) rfl rfl stuck expects ((hbefore.append frontier).congr fun e => ?_)
  rw [List.mem_append, same]

/-- Rules in a row are followed one after the other. -/
theorem Follows.bind
    {next : α → Rule β} {ends' : Ending State β} (h : m.Follows given s text r ends)
    (hnext : ∀ a u rest t E, text = u ++ rest → ends a rest t E →
      m.Follows E t rest (next a) ends') :
    m.Follows given s text (r >>= next) ends' := by
  intro before hbefore
  have first := h before hbefore
  cases hvalue : (r text).value? with
  | none =>
      rw [Rule.bind_of_none hvalue]
      generalize r text = attempt at first hvalue
      cases first with
      | succeeds => cases hvalue
      | fails parts reached stuck expects frontier => exact .fails parts reached stuck expects frontier
  | some result =>
      rw [Rule.bind_of_some hvalue]
      generalize r text = attempt at first hvalue
      cases first with
      | succeeds parts reached ended frontier =>
          obtain rfl := Option.some.inj hvalue
          exact .behind parts reached (hnext _ _ _ _ _ parts ended _ frontier)
      | fails => cases hvalue

/-- An alternative that refuses the text leaves its misses to the next one. -/
theorem Follows.skip
    {others : List (Rule α)} (h : r.Refuses text E)
    (hothers : m.Follows (given ++ E) s text (Rule.choice others) ends) :
    m.Follows given s text (Rule.choice (r :: others)) ends := by
  intro before hbefore
  rw [Rule.choice_of_none h.fails]
  exact .behind (u := []) rfl rfl (hothers _ (hbefore.append h.frontier))

/-- A machine that is stuck has taken what it can take. -/
theorem Stuck.length_le
    {u v p q : List Char} (stuck : m.Stuck t v) (reached : m.reach? s u = some t)
    (taken : (m.reach? s p).isSome) (parts : u ++ v = p ++ q) :
    v.length ≤ q.length := by
  by_contra hlong
  have shorter : u.length < p.length := by
    have := congrArg List.length parts
    rw [List.length_append, List.length_append] at this
    omega
  obtain ⟨w, rfl⟩ := List.prefix_of_prefix_length_le ⟨v, parts⟩ ⟨q, rfl⟩ shorter.le
  cases w with
  | nil => simp at shorter
  | cons c w =>
      have head : c ∈ v.head? := by
        rw [List.append_assoc, List.append_cancel_left_eq] at parts
        rw [parts]
        rfl
      rw [reach?_append, reached, Option.bind_some, reach?_cons, stuck.refuses c head] at taken
      cases taken

/-- An alternative that succeeds is taken. -/
theorem Follows.succeed
    {others : List (Rule α)} {result : α × List Char} (h : m.Follows given s text r ends)
    (hvalue : (r text).value? = some result) :
    m.Follows given s text (Rule.choice (r :: others)) ends := by
  intro before hbefore
  rw [Rule.choice_of_some hvalue]
  exact h before hbefore

/-- An alternative that goes on decides, if the others miss nothing as far as that. -/
theorem Follows.take
    {others : List (Rule α)} {p q : List Char} (h : m.Follows given s text r ends)
    (parts : text = p ++ q) (taken : (m.reach? s p).isSome)
    (fails : (Rule.choice others text).value? = none)
    (missed : ∀ n ∈ (Rule.choice others text).misses, q.length < n.left) :
    m.Follows given s text (Rule.choice (r :: others)) ends := by
  intro before hbefore
  have first := h before hbefore
  cases hvalue : (r text).value? with
  | some result => rwa [Rule.choice_of_some hvalue]
  | none =>
      rw [Rule.choice_of_none hvalue]
      generalize r text = attempt at first hvalue
      cases first with
      | succeeds => cases hvalue
      | @fails u v t misses parts' reached stuck expects frontier =>
          have short := stuck.length_le reached taken (parts'.symm.trans parts)
          have late : Frontier (Rule.choice others text).misses v.length [] :=
            frontier_of_lt fun n hn => short.trans_lt (missed n hn)
          generalize Rule.choice others text = attempt at fails late
          obtain ⟨value?, others⟩ := attempt
          subst fails
          refine .fails parts' reached stuck expects ((sameFrontier_furthest _ before _ _).mpr ?_)
          have both := frontier.append late
          rwa [List.append_nil, List.append_assoc] at both

/-- An alternative that takes a character decides, if the others refuse the text. -/
theorem Follows.take_of_refuses
    {others : List (Rule α)} {c : Char} (h : m.Follows given s (c :: rest) r ends)
    (taken : (m.advance s c).isSome) (hothers : (Rule.choice others).Refuses (c :: rest) E) :
    m.Follows given s (c :: rest) (Rule.choice (r :: others)) ends := by
  refine h.take (p := [c]) (q := rest) rfl ?_ hothers.fails fun n hn => ?_
  · obtain ⟨t, ht⟩ := Option.isSome_iff_exists.mp taken
    simp [ht]
  · exact hothers.frontier.bound n hn

/-- A last alternative that takes a character decides. -/
theorem Follows.only
    {c : Char} (h : m.Follows given s (c :: rest) r ends) (taken : (m.advance s c).isSome) :
    m.Follows given s (c :: rest) (Rule.choice [r]) ends :=
  h.take_of_refuses taken (Rule.refuses_nothing _)

theorem Follows.congr
    {r' : Rule α} (h : m.Follows given s text r ends) (alike : Rule.Alike (r text) (r' text)) :
    m.Follows given s text r' ends :=
  fun before hbefore => (h before hbefore).congr alike

/-- An alternative that takes a character decides, also against an empty one: if it fails, the rule behind
the choice refuses the text. -/
theorem Follows.take_bind
    {a : α} {c : Char} {next : α → Rule β} {ends : Ending State β}
    (h : m.Follows given s (c :: rest) (r >>= next) ends) (taken : (m.advance s c).isSome)
    (refuses : (next a).Refuses (c :: rest) E) :
    m.Follows given s (c :: rest) (Rule.choice [r, pure a] >>= next) ends := by
  intro before hbefore
  have tracked := h before hbefore
  cases hr : (r (c :: rest)).value? with
  | some result => rwa [Rule.bind_congr_left (Rule.choice_of_some hr)]
  | none =>
      have empty : Rule.choice [pure a] (c :: rest) = (pure a : Rule α) (c :: rest) :=
        Rule.choice_of_some rfl
      have value : (Rule.choice [r, pure a] (c :: rest)).value? = some (a, c :: rest) := by
        rw [Rule.choice_of_none hr, empty]
        rfl
      rw [Rule.bind_of_some value, Rule.choice_of_none hr, empty]
      rw [Rule.bind_of_none hr] at tracked
      cases tracked with
      | @fails u v t misses parts reached stuck expects frontier =>
          have short : v.length ≤ rest.length := by
            obtain ⟨t', ht'⟩ := Option.isSome_iff_exists.mp taken
            exact stuck.length_le (p := [c]) reached (by simp [ht']) parts.symm
          have late : Frontier (next a (c :: rest)).misses v.length [] :=
            refuses.frontier.passed (Nat.lt_succ_of_le short)
          have fails := refuses.fails
          generalize next a (c :: rest) = attempt at fails late
          obtain ⟨value?, others⟩ := attempt
          subst fails
          refine .fails parts reached stuck expects ?_
          have same := ((Rule.sameFrontier_behind (r (c :: rest)).misses
            ((pure a : Rule α) (c :: rest))).append_right others) before v.length (m.expected t)
          refine (sameFrontier_furthest _ before _ _).mpr (same.mpr ?_)
          have both := frontier.append late
          rw [List.append_nil, List.append_assoc] at both
          simpa using both

end Combining

section Terminals

variable {c : Char} {ends : Ending State β} {next : Unit → Rule β}

/-- A character that stands first is taken. -/
theorem follows_char
    (h : m.advance s c = some t) :
    m.Follows given s (c :: rest) (Rule.char c)
      fun _ last t' E => last = rest ∧ t' = t ∧ E = [] := by
  intro before hbefore
  have attempt : Rule.char c (c :: rest) = ⟨some ((), rest), []⟩ := if_pos rfl
  rw [attempt]
  refine .succeeds (u := [c]) rfl (by simp [h]) ⟨rfl, rfl, rfl⟩ ?_
  rw [List.append_nil]
  exact hbefore.passed (Nat.lt_succ_self _)

theorem follows_char_bind
    (h : m.advance s c = some t) (hnext : m.Follows [] t rest (next ()) ends) :
    m.Follows given s (c :: rest) (Rule.char c >>= next) ends := by
  refine (follows_char h).bind ?_
  rintro _ _ _ _ _ - ⟨rfl, rfl, rfl⟩
  exact hnext

/-- Without an alternative, the character is taken or the machine is stuck. -/
theorem follows_required
    (same : ∀ e, e ∈ m.expected s ↔ e ∈ given ∨ e = .symbol c)
    (stuck : c ∉ text.head? → m.Stuck s text)
    (taken : ∀ rest, text = c :: rest →
      ∃ t, m.advance s c = some t ∧ m.Follows [] t rest (next ()) ends) :
    m.Follows given s text (Rule.char c >>= next) ends := by
  by_cases h : c ∈ text.head?
  · obtain ⟨rest, rfl⟩ := List.head?_eq_some_iff.mp h
    obtain ⟨t, ht, hnext⟩ := taken rest rfl
    exact follows_char_bind ht hnext
  · refine follows_refusing ((Rule.refuses_char h).bind next) (by simp) (stuck h) fun e => ?_
    rw [same, List.mem_singleton]

/-- One of several characters is taken with its value. -/
theorem follows_oneOf
    {table : List (Char × α)} {a : α} (ha : table.lookup c = some a)
    (h : m.advance s c = some t) :
    m.Follows given s (c :: rest) (Rule.oneOf table)
      fun b last t' E => b = a ∧ last = rest ∧ t' = t ∧ E = [] := by
  intro before hbefore
  have value : (Rule.oneOf table (c :: rest)).value? = _ := Rule.value?_oneOf_cons table c
  have late : Frontier (Rule.oneOf table (c :: rest)).misses rest.length [] :=
    frontier_of_lt fun n hn => by rw [Rule.left_of_mem_oneOf hn]; exact Nat.lt_succ_self _
  rw [ha, Option.map_some] at value
  generalize Rule.oneOf table (c :: rest) = attempt at value late
  obtain ⟨value?, misses⟩ := attempt
  subst value
  refine .succeeds (u := [c]) rfl (by simp [h]) ⟨rfl, rfl, rfl, rfl⟩ ?_
  simpa using (hbefore.passed (Nat.lt_succ_self _)).append late

theorem follows_oneOf_bind
    {table : List (Char × α)} {a : α} {next : α → Rule β} (ha : table.lookup c = some a)
    (h : m.advance s c = some t) (hnext : m.Follows [] t rest (next a) ends) :
    m.Follows given s (c :: rest) (Rule.oneOf table >>= next) ends := by
  refine (follows_oneOf ha h).bind ?_
  rintro _ _ _ _ _ - ⟨rfl, rfl, rfl, rfl⟩
  exact hnext

end Terminals

section Whole

/-- The place of a failure and what was missed there. -/
theorem position_ofMisses
    (text : List Char) {misses : List Miss} {left : Nat} (h : Frontier misses left E) (some : E ≠ []) :
    (Rejection.ofMisses text (furthest misses)).position =
        byteLength (text.take (text.length - left)) ∧
      ∀ e, e ∈ (Rejection.ofMisses text (furthest misses)).expected ↔ e ∈ E := by
  obtain ⟨e, he⟩ := List.exists_mem_of_ne_nil E some
  have here := (h.here e).mpr he
  have least : ∀ n ∈ furthest misses, n.left = left := by
    intro n hn
    obtain ⟨hmem, hle⟩ := mem_furthest.mp hn
    exact le_antisymm (hle _ here) (h.bound n hmem)
  have members : ∀ e, e ∈ (furthest misses).map Miss.expected ↔ e ∈ E := by
    intro e
    rw [List.mem_map, ← h.here]
    constructor
    · rintro ⟨n, hn, rfl⟩
      rw [← least n hn]
      exact (mem_furthest.mp hn).1
    · exact fun hmem => ⟨_, mem_furthest.mpr ⟨hmem, h.bound⟩, rfl⟩
  cases hmisses : furthest misses with
  | nil =>
      have first := (members e).mpr he
      rw [hmisses] at first
      cases first
  | cons n others =>
      rw [hmisses] at least members
      refine ⟨?_, members⟩
      rw [Rejection.ofMisses, least n List.mem_cons_self]

/-- The machine and the outcome of a rule at a whole text: both accept it with the same result, or the
machine cannot go on at the place of the failure, expecting what could have stood there. -/
inductive Decides (m : Machine State Result) (text : List Char) : Except Rejection Result → Prop
  | accepts {a : Result} (h : (m.reach? m.start text).bind m.result? = some a) :
      Decides m text (.ok a)
  | rejects {u v : List Char} {t : State} {rejection : Rejection} (parts : text = u ++ v)
      (reached : m.reach? m.start u = some t) (refuses : ∀ c ∈ v.head?, m.advance t c = none)
      (unfinished : v = [] → m.result? t = none) (position : rejection.position = byteLength u)
      (expected : ∀ e, e ∈ rejection.expected ↔ e ∈ m.expected t) :
      Decides m text (.error rejection)

/-- A rule has ended where the machine has its value as the result and only the end of the text may
follow. -/
structure Concludes (m : Machine State Result) (ends : Ending State Result) : Prop where
  result : ∀ {a rest t E}, ends a rest t E → m.result? t = some a
  refuses : ∀ {a rest t E}, ends a rest t E → ∀ c ∈ rest.head?, m.advance t c = none
  expected : ∀ {a rest t E}, ends a rest t E → ∀ e, e ∈ m.expected t ↔ e ∈ E ∨ e = .endOfText

/-- A rule that the machine follows decides on whole texts as the machine does. -/
theorem Follows.decides
    {r : Rule Result} {ends : Ending State Result} (h : m.Follows [] m.start text r ends)
    (concludes : m.Concludes ends) :
    m.Decides text (r.parse text) := by
  have tracked := h [] (frontier_nil _)
  have taken : ∀ u v : List Char, text = u ++ v →
      byteLength (text.take (text.length - v.length)) = byteLength u := by
    rintro u v rfl
    rw [List.length_append, Nat.add_sub_cancel, List.take_left']
    rfl
  cases hvalue : (r text).value? with
  | none =>
      have attempt : r.whole text = ⟨none, (r text).misses⟩ := Rule.bind_of_none hvalue
      rw [Rule.parse, attempt]
      generalize r text = attempt at tracked hvalue
      cases tracked with
      | succeeds => cases hvalue
      | @fails u v t misses parts reached stuck expects frontier =>
          obtain ⟨position, expected⟩ := position_ofMisses text frontier expects
          exact .rejects parts reached stuck.refuses (fun _ => stuck.unfinished)
            (position.trans (taken u v parts)) expected
  | some result =>
      obtain ⟨a, rest⟩ := result
      have attempt : r.whole text = _ := Rule.bind_of_some hvalue
      generalize r text = first at tracked hvalue attempt
      cases tracked with
      | fails => cases hvalue
      | @succeeds a u rest t misses E parts reached ended frontier =>
          obtain ⟨rfl, rfl⟩ := Prod.mk.inj (Option.some.inj hvalue)
          cases rest with
          | nil =>
              rw [Rule.parse_of_some (by rw [attempt]; rfl)]
              refine .accepts ?_
              rw [parts, List.append_nil, reached, Option.bind_some, concludes.result ended]
          | cons c rest =>
              have fails : (r.whole text).value? = none := by rw [attempt]; rfl
              rw [Rule.parse_of_none fails, attempt]
              have both := (sameFrontier_furthest _ [] _ _).mpr
                (frontier.append (frontier_miss (c :: rest).length .endOfText))
              obtain ⟨position, expected⟩ := position_ofMisses text both (by simp)
              refine .rejects parts reached (concludes.refuses ended)
                (fun hnil => absurd hnil (List.cons_ne_nil c rest))
                (position.trans (taken u _ parts)) fun e => ?_
              rw [concludes.expected ended, ← List.mem_singleton, ← List.mem_append]
              exact expected e

theorem Decides.accepts_iff
    {outcome : Except Rejection Result} (h : m.Decides text outcome) {a : Result} :
    outcome = .ok a ↔ (m.reach? m.start text).bind m.result? = some a := by
  cases h with
  | accepts h => simp [h]
  | @rejects u v t rejection parts reached refuses unfinished =>
      refine ⟨nofun, fun haccepts => ?_⟩
      rw [parts, reach?_append, reached, Option.bind_some] at haccepts
      cases v with
      | nil =>
          rw [reach?_nil, Option.bind_some, unfinished rfl] at haccepts
          cases haccepts
      | cons c v =>
          rw [reach?_cons, refuses c rfl] at haccepts
          cases haccepts

end Whole

end Machine

end MissionTime

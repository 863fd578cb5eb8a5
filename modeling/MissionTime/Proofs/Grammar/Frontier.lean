import MissionTime.Proofs.Grammar.Record

/-!
# The furthest misses

How far a rule has looked into a text, and what it missed there. Attempts keep the furthest misses only;
up to the ones that count, rules in a row may be bracketed in any way, and a rule with which several
alternatives begin may be taken out of them.

**Definitions.**
* `Frontier`: how far misses reach, and what they are there;
* `SameFrontier`: lists of misses that reach equally far, whatever was missed before;
* `Rule.Alike`: rules with the same values and equally far misses;
* `Rule.Refuses`: a rule fails at the first character that it looks at.

**Results.**
* `sameFrontier_furthest`: dropping the misses that are not the furthest changes nothing;
* `Rule.alike_assoc`: rules in a row;
* `Rule.alike_factored`: alternatives that begin with the same rule.
-/

namespace MissionTime

section Frontier

/-- Nothing was missed with fewer characters left, and the misses with so many left are these. -/
structure Frontier (misses : List Miss) (left : Nat) (expected : List Expectation) : Prop where
  bound : ∀ m ∈ misses, left ≤ m.left
  here : ∀ e, ⟨left, e⟩ ∈ misses ↔ e ∈ expected

variable {misses others before : List Miss} {left more : Nat} {E E' : List Expectation}

theorem frontier_nil
    (left : Nat) :
    Frontier [] left [] :=
  ⟨by simp, by simp⟩

theorem frontier_miss
    (left : Nat) (e : Expectation) :
    Frontier [⟨left, e⟩] left [e] :=
  ⟨by simp, by simp⟩

theorem Frontier.append
    (h : Frontier misses left E) (h' : Frontier others left E') :
    Frontier (misses ++ others) left (E ++ E') :=
  ⟨fun m hm => (List.mem_append.mp hm).elim (h.bound m) (h'.bound m),
    fun e => by rw [List.mem_append, List.mem_append, h.here, h'.here]⟩

theorem Frontier.congr
    (h : Frontier misses left E) (same : ∀ e, e ∈ E ↔ e ∈ E') :
    Frontier misses left E' :=
  ⟨h.bound, fun e => (h.here e).trans (same e)⟩

/-- Further on in the text the misses are of no account. -/
theorem frontier_of_lt
    (h : ∀ m ∈ misses, left < m.left) :
    Frontier misses left [] := by
  refine ⟨fun m hm => (h m hm).le, fun e => ⟨fun he => ?_, fun he => by cases he⟩⟩
  exact absurd (h _ he) (lt_irrefl left)

theorem Frontier.passed
    (h : Frontier misses more E) (hlt : left < more) :
    Frontier misses left [] :=
  frontier_of_lt fun m hm => hlt.trans_le (h.bound m hm)

/-- Lists of misses that reach equally far, whatever was missed before. -/
def SameFrontier (misses others : List Miss) : Prop :=
  ∀ before left E, Frontier (before ++ misses) left E ↔ Frontier (before ++ others) left E

theorem sameFrontier_of_mem_iff
    (h : ∀ m, m ∈ misses ↔ m ∈ others) :
    SameFrontier misses others := by
  intro before left E
  have same : ∀ m, m ∈ before ++ misses ↔ m ∈ before ++ others := fun m => by simp [h]
  exact ⟨fun hm => ⟨fun m hmem => hm.bound m ((same m).mpr hmem), fun e => (same _).symm.trans (hm.here e)⟩,
    fun hm => ⟨fun m hmem => hm.bound m ((same m).mp hmem), fun e => (same _).trans (hm.here e)⟩⟩

theorem exists_mem_furthest
    {m : Miss} (hm : m ∈ misses) :
    ∃ n ∈ furthest misses, n.left ≤ m.left := by
  obtain ⟨n, hn, least⟩ := misses.toFinset.exists_min_image Miss.left ⟨m, by simpa using hm⟩
  simp only [List.mem_toFinset] at hn least
  exact ⟨n, mem_furthest.mpr ⟨hn, least⟩, least m hm⟩

/-- Only the furthest misses count. -/
theorem sameFrontier_furthest
    (misses : List Miss) :
    SameFrontier (furthest misses) misses := by
  intro before left E
  have sub : ∀ m ∈ before ++ furthest misses, m ∈ before ++ misses := by
    intro m hm
    rw [List.mem_append] at hm ⊢
    exact hm.imp id fun h => (mem_furthest.mp h).1
  have bound : (∀ m ∈ before ++ furthest misses, left ≤ m.left) ↔
      ∀ m ∈ before ++ misses, left ≤ m.left := by
    refine ⟨fun h m hm => ?_, fun h m hm => h m (sub m hm)⟩
    rcases List.mem_append.mp hm with hm | hm
    · exact h m (List.mem_append_left _ hm)
    · obtain ⟨n, hn, hle⟩ := exists_mem_furthest hm
      exact (h n (List.mem_append_right _ hn)).trans hle
  -- Where nothing was missed further on, a miss is one of the furthest.
  have here : (∀ m ∈ before ++ misses, left ≤ m.left) → ∀ e,
      ⟨left, e⟩ ∈ before ++ furthest misses ↔ ⟨left, e⟩ ∈ before ++ misses := by
    refine fun h e => ⟨sub _, fun hm => ?_⟩
    rw [List.mem_append] at hm ⊢
    exact hm.imp id fun hm => mem_furthest.mpr ⟨hm, fun n hn => h n (List.mem_append_right _ hn)⟩
  exact ⟨fun h => ⟨bound.mp h.bound, fun e => (here (bound.mp h.bound) e).symm.trans (h.here e)⟩,
    fun h => ⟨bound.mpr h.bound, fun e => (here h.bound e).trans (h.here e)⟩⟩

theorem SameFrontier.trans
    {last : List Miss} (h : SameFrontier misses others) (h' : SameFrontier others last) :
    SameFrontier misses last :=
  fun before left E => (h before left E).trans (h' before left E)

theorem SameFrontier.symm
    (h : SameFrontier misses others) :
    SameFrontier others misses :=
  fun before left E => (h before left E).symm

theorem SameFrontier.append_left
    (h : SameFrontier misses others) (first : List Miss) :
    SameFrontier (first ++ misses) (first ++ others) := by
  intro before left E
  rw [← List.append_assoc, ← List.append_assoc]
  exact h (before ++ first) left E

theorem sameFrontier_append_comm
    (misses others : List Miss) :
    SameFrontier (misses ++ others) (others ++ misses) :=
  sameFrontier_of_mem_iff fun m => by rw [List.mem_append, List.mem_append, or_comm]

theorem SameFrontier.append_right
    (h : SameFrontier misses others) (last : List Miss) :
    SameFrontier (misses ++ last) (others ++ last) :=
  (sameFrontier_append_comm misses last).trans
    ((h.append_left last).trans (sameFrontier_append_comm last others))

/-- What was missed already may be missed again. -/
theorem sameFrontier_append_absorbed
    (misses others : List Miss) :
    SameFrontier (misses ++ (misses ++ others)) (misses ++ others) :=
  sameFrontier_of_mem_iff fun m => by simp

end Frontier

namespace Rule

variable {α β : Type}

section Missing

/-- Rules in a row miss at least what the first one misses. -/
theorem exists_misses_bind
    (r : Rule α) (next : α → Rule β) (text : List Char) :
    ∃ others, SameFrontier ((r >>= next) text).misses ((r text).misses ++ others) := by
  cases h : (r text).value? with
  | none => exact ⟨[], by rw [bind_of_none h, List.append_nil]; exact fun _ _ _ => Iff.rfl⟩
  | some result => exact ⟨_, by rw [bind_of_some h]; exact sameFrontier_furthest _⟩

/-- A choice misses at least what the first alternative misses. -/
theorem exists_misses_choice
    (r : Rule α) (others : List (Rule α)) (text : List Char) :
    ∃ more, SameFrontier (choice (r :: others) text).misses ((r text).misses ++ more) := by
  cases h : (r text).value? with
  | none => exact ⟨_, by rw [choice_of_none h]; exact sameFrontier_furthest _⟩
  | some result =>
      exact ⟨[], by rw [choice_of_some h, List.append_nil]; exact fun _ _ _ => Iff.rfl⟩

end Missing

section Refusing

/-- The rule fails at the first character that it looks at. -/
structure Refuses (r : Rule α) (text : List Char) (E : List Expectation) : Prop where
  fails : (r text).value? = none
  frontier : Frontier (r text).misses text.length E

variable {r : Rule α} {others : List (Rule α)} {text : List Char} {E E' : List Expectation}

theorem Refuses.congr
    (h : Refuses r text E) (same : ∀ e, e ∈ E ↔ e ∈ E') :
    Refuses r text E' :=
  ⟨h.fails, h.frontier.congr same⟩

theorem refuses_nothing
    (text : List Char) :
    Refuses (choice [] : Rule α) text [] :=
  ⟨rfl, frontier_nil _⟩

theorem Refuses.bind
    (h : Refuses r text E) (next : α → Rule β) :
    Refuses (r >>= next) text E := by
  have attempt : (r >>= next) text = _ := bind_of_none h.fails
  exact ⟨by rw [attempt], by rw [attempt]; exact h.frontier⟩

theorem Refuses.or
    (h : Refuses r text E) (hothers : Refuses (choice others) text E') :
    Refuses (choice (r :: others)) text (E ++ E') := by
  have attempt : choice (r :: others) text = _ := choice_of_none h.fails
  refine ⟨by rw [attempt]; exact hothers.fails, ?_⟩
  rw [attempt]
  exact (sameFrontier_furthest _ [] _ _).mpr (h.frontier.append hothers.frontier)

theorem refuses_char
    {c : Char} (h : c ∉ text.head?) :
    Refuses (char c) text [.symbol c] := by
  cases text with
  | nil => exact ⟨rfl, frontier_miss _ _⟩
  | cons d rest =>
      have differ : ¬ d = c := by simpa using h
      have attempt : char c (d :: rest) = miss (.symbol c) (d :: rest) := if_neg differ
      exact ⟨by rw [attempt]; rfl, by rw [attempt]; exact frontier_miss _ _⟩

theorem refuses_oneOf
    {table : List (Char × α)} (h : ∀ entry ∈ table, entry.1 ∉ text.head?) :
    Refuses (oneOf table) text (table.map fun entry => .symbol entry.1) := by
  induction table with
  | nil => exact refuses_nothing text
  | cons entry table ih =>
      exact ((refuses_char (h entry List.mem_cons_self)).bind _).or
        (ih fun next hnext => h next (List.mem_cons_of_mem entry hnext))

end Refusing

section Places

variable {text : List Char} {n : Miss}

theorem mem_of_mem_behind
    {misses : List Miss} {attempt : Attempt α} (h : n ∈ (behind misses attempt).misses) :
    n ∈ misses ∨ n ∈ attempt.misses :=
  List.mem_append.mp (mem_furthest.mp h).1

theorem left_of_mem_char
    {c : Char} (h : n ∈ (char c text).misses) :
    n.left = text.length := by
  cases text with
  | nil =>
      obtain rfl := List.mem_singleton.mp h
      rfl
  | cons d rest =>
      by_cases hd : d = c
      · have attempt : char c (d :: rest) = ⟨some ((), rest), []⟩ := if_pos hd
        rw [attempt] at h
        cases h
      · have attempt : char c (d :: rest) = miss (.symbol c) (d :: rest) := if_neg hd
        rw [attempt] at h
        obtain rfl := List.mem_singleton.mp h
        rfl

/-- A choice of characters misses nothing but these characters. -/
theorem left_of_mem_oneOf
    {table : List (Char × α)} (h : n ∈ (oneOf table text).misses) :
    n.left = text.length := by
  induction table with
  | nil => cases h
  | cons entry table ih =>
      have first : ∀ n ∈ ((char entry.1 >>= fun _ => pure entry.2 : Rule α) text).misses,
          n.left = text.length := by
        intro n hn
        cases hvalue : (char entry.1 text).value? with
        | none =>
            rw [bind_of_none hvalue] at hn
            exact left_of_mem_char hn
        | some result =>
            rw [bind_of_some hvalue] at hn
            rcases mem_of_mem_behind hn with hn | hn
            · exact left_of_mem_char hn
            · cases hn
      rw [oneOf, List.map_cons] at h
      cases hvalue : ((char entry.1 >>= fun _ => pure entry.2 : Rule α) text).value? with
      | none =>
          rw [choice_of_none hvalue] at h
          exact (mem_of_mem_behind h).elim (first n) ih
      | some result =>
          rw [choice_of_some hvalue] at h
          exact first n h

end Places

section Alike

/-- Attempts with the same value whose misses reach equally far. -/
structure Alike (attempt attempt' : Attempt α) : Prop where
  value : attempt.value? = attempt'.value?
  misses : SameFrontier attempt.misses attempt'.misses

theorem Alike.symm
    {attempt attempt' : Attempt α} (h : Alike attempt attempt') :
    Alike attempt' attempt :=
  ⟨h.value.symm, h.misses.symm⟩

theorem Alike.trans
    {first second third : Attempt α} (h : Alike first second) (h' : Alike second third) :
    Alike first third :=
  ⟨h.value.trans h'.value, h.misses.trans h'.misses⟩

theorem sameFrontier_behind
    (misses : List Miss) (attempt : Attempt α) :
    SameFrontier (behind misses attempt).misses (misses ++ attempt.misses) :=
  sameFrontier_furthest _

variable {r : Rule α} {text rest : List Char} {a : α}

theorem alike_pure_bind
    (a : α) (next : α → Rule β) (text : List Char) :
    Alike ((pure a >>= next : Rule β) text) (next a text) :=
  ⟨rfl, sameFrontier_furthest _⟩

theorem alike_bind
    {next next' : α → Rule β}
    (h : ∀ a rest, (r text).value? = some (a, rest) → Alike (next a rest) (next' a rest)) :
    Alike ((r >>= next) text) ((r >>= next') text) := by
  cases hr : (r text).value? with
  | none =>
      rw [bind_of_none hr, bind_of_none hr]
      exact ⟨rfl, fun _ _ _ => Iff.rfl⟩
  | some result =>
      obtain ⟨value, misses⟩ := h result.1 result.2 hr
      rw [bind_of_some hr, bind_of_some hr]
      refine ⟨value, (sameFrontier_behind _ _).trans ?_⟩
      exact (misses.append_left _).trans (sameFrontier_behind _ _).symm

/-- Rules in a row may be bracketed in any way. -/
theorem alike_assoc
    {γ : Type} (r : Rule α) (next : α → Rule β) (last : β → Rule γ) (text : List Char) :
    Alike ((r >>= next >>= last) text) ((r >>= fun a => next a >>= last) text) := by
  cases hr : (r text).value? with
  | none =>
      have both : ((r >>= next) text).value? = none := by rw [bind_of_none hr]
      rw [bind_of_none both, bind_of_none hr, bind_of_none hr]
      exact ⟨rfl, fun _ _ _ => Iff.rfl⟩
  | some result =>
      have value : ((r >>= next) text).value? = (next result.1 result.2).value? := by
        rw [bind_of_some hr, value?_behind]
      have nested : (r >>= fun a => next a >>= last) text = _ := bind_of_some hr
      rw [nested]
      cases hnext : (next result.1 result.2).value? with
      | none =>
          rw [bind_of_none (value.trans hnext), bind_of_none hnext, bind_of_some hr]
          exact ⟨rfl, fun _ _ _ => Iff.rfl⟩
      | some outcome =>
          rw [bind_of_some (value.trans hnext), bind_of_some hnext, bind_of_some hr]
          refine ⟨rfl, (sameFrontier_behind _ _).trans ?_⟩
          refine ((sameFrontier_behind _ _).append_right _).trans ?_
          rw [List.append_assoc]
          refine SameFrontier.trans ?_ (sameFrontier_behind _ _).symm
          exact (sameFrontier_behind _ _).symm.append_left _

/-- A rule that goes on after the choice goes on after the alternative that was taken. -/
theorem bind_congr_left
    {r' : Rule α} (h : r text = r' text) (next : α → Rule β) :
    (r >>= next) text = (r' >>= next) text := by
  have value := congrArg Attempt.value? h
  cases hr : (r text).value? with
  | none => rw [bind_of_none hr, bind_of_none (value.symm.trans hr), h]
  | some result => rw [bind_of_some hr, bind_of_some (value.symm.trans hr), h]

end Alike

section Factoring

variable {r : Rule α} {text rest : List Char} (ks : List (α → Rule β))

/-- If the common rule fails, every alternative misses what it misses. -/
theorem choice_map_bind_of_none
    (h : (r text).value? = none) :
    (choice (ks.map (r >>= ·)) text).value? = none ∧
      SameFrontier ((r text).misses ++ (choice (ks.map (r >>= ·)) text).misses)
        (r text).misses := by
  induction ks with
  | nil => exact ⟨rfl, sameFrontier_of_mem_iff fun n => by simp [choice]⟩
  | cons k ks ih =>
      have first : ((r >>= k) text).value? = none := by rw [bind_of_none h]
      rw [List.map_cons, choice_of_none first, bind_of_none h]
      refine ⟨ih.1, SameFrontier.trans ?_ ih.2⟩
      exact ((sameFrontier_behind _ _).append_left _).trans (sameFrontier_append_absorbed _ _)

/-- If the common rule succeeds, the alternatives are tried behind it, and each misses what it misses. -/
theorem choice_map_bind_of_some
    {a : α} (h : (r text).value? = some (a, rest)) :
    (choice (ks.map (r >>= ·)) text).value? = (choice (ks.map (· a)) rest).value? ∧
      SameFrontier ((r text).misses ++ (choice (ks.map (r >>= ·)) text).misses)
        ((r text).misses ++ (choice (ks.map (· a)) rest).misses) := by
  induction ks with
  | nil => exact ⟨rfl, fun _ _ _ => Iff.rfl⟩
  | cons k ks ih =>
      have first : (r >>= k) text = _ := bind_of_some h
      have value : ((r >>= k) text).value? = (k a rest).value? := by
        rw [first, value?_behind]
      have misses : SameFrontier ((r >>= k) text).misses ((r text).misses ++ (k a rest).misses) := by
        rw [first]
        exact sameFrontier_behind _ _
      rw [List.map_cons, List.map_cons]
      cases hk : (k a rest).value? with
      | some result =>
          rw [choice_of_some hk, choice_of_some (value.trans hk)]
          exact ⟨value, (misses.append_left _).trans (sameFrontier_append_absorbed _ _)⟩
      | none =>
          rw [choice_of_none hk, choice_of_none (value.trans hk)]
          refine ⟨ih.1, ?_⟩
          -- Behind the first alternative both sides have missed the common rule's and its own misses.
          have left := ((sameFrontier_behind _ _).trans (misses.append_right
            (choice (ks.map (r >>= ·)) text).misses)).append_left (r text).misses
          have right := (sameFrontier_behind (k a rest).misses
            (choice (ks.map (· a)) rest)).append_left (r text).misses
          refine left.trans (SameFrontier.trans ?_ right.symm)
          have inner := ih.2.append_left (k a rest).misses
          refine SameFrontier.trans ?_ (inner.trans ?_) <;>
            exact sameFrontier_of_mem_iff fun n => by simp only [List.mem_append]; tauto

/-- The first alternative already misses what the common rule misses. -/
theorem sameFrontier_choice_map_bind
    {ks : List (α → Rule β)} (hks : ks ≠ []) (text : List Char) :
    SameFrontier (choice (ks.map (r >>= ·)) text).misses
      ((r text).misses ++ (choice (ks.map (r >>= ·)) text).misses) := by
  obtain ⟨k, ks, rfl⟩ := List.exists_cons_of_ne_nil hks
  obtain ⟨own, hown⟩ := exists_misses_bind r k text
  obtain ⟨more, hmore⟩ := exists_misses_choice (r >>= k) (ks.map (r >>= ·)) text
  have all := hmore.trans (hown.append_right more)
  rw [List.append_assoc] at all
  exact all.trans ((sameFrontier_append_absorbed _ _).symm.trans (all.append_left _).symm)

/-- Alternatives that begin with the same rule are that rule and a choice behind it. -/
theorem alike_factored
    (r : Rule α) {ks : List (α → Rule β)} (hks : ks ≠ []) (text : List Char) :
    Alike ((r >>= fun a => choice (ks.map (· a))) text) (choice (ks.map (r >>= ·)) text) := by
  have absorbed := sameFrontier_choice_map_bind (r := r) hks text
  cases hr : (r text).value? with
  | none =>
      obtain ⟨value, misses⟩ := choice_map_bind_of_none ks hr
      rw [bind_of_none hr]
      exact ⟨value.symm, (absorbed.trans misses).symm⟩
  | some result =>
      obtain ⟨value, misses⟩ := choice_map_bind_of_some ks hr
      rw [bind_of_some hr]
      exact ⟨value.symm, (sameFrontier_behind _ _).trans (absorbed.trans misses).symm⟩

end Factoring

end Rule

end MissionTime

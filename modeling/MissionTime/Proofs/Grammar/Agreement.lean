import MissionTime.Proofs.Grammar.Lexemes

/-!
# The rule of formulas and the reading machine

The reading machine follows the rule of formulas, inside any frames. The rule never commits to an
alternative that another one should have been preferred to: behind the first characters that several
alternatives share, at most one of them goes on.

**Definitions.**
* `Reader.FollowsBelow`: the machine follows a rule at all shorter texts;
* `Reader.behindBinary`, `Reader.behindTemporal` and `Reader.behindMembers`: the rules of the forms in
  parentheses behind what they share.

**Results.**
* `Reader.follows_further`: a comma behind which no member follows is given back, and nothing is lost;
* `Reader.follows_parenthesized`: the three forms in parentheses;
* `Reader.follows_formula` and `Reader.decides_formula`: the machine follows the rule of formulas, and
  both decide alike on whole texts;
* `Formula.ofText_eq_ok_iff`: the texts that are read as formulas are the derived ones.
-/

namespace MissionTime

namespace Reader

/-- The machine follows a rule at the texts of less than a length, inside any frames. -/
def FollowsBelow (inner : Rule Formula) (length : Nat) : Prop :=
  ∀ text : List Char, text.length < length → ∀ stack,
    (machine isReadable).Follows [] ⟨stack, .start⟩ text inner (Ended stack)

section Forms

variable {given : List Expectation} {inner : Rule Formula} {stack : List Frame} {rest : List Char}

section Prefixes

theorem follows_negation
    (hinner : FollowsBelow inner (rest.length + 1)) :
    (machine isReadable).Follows given ⟨stack, .start⟩ ('~' :: rest) (Rule.negation inner)
      (Ended stack) := by
  refine Machine.follows_char_bind (t := ⟨.neg :: stack, .start⟩) rfl ?_
  refine (hinner rest (Nat.lt_succ_self _) (.neg :: stack)).bind ?_
  intro f _ last t E _ ended
  exact Machine.follows_pure _ ⟨ended.follows, ended.result, ended.expected⟩

/-- Behind an operator its interval is read, and then the formula. -/
theorem follows_unary
    (op : UnaryOp) {t : State} (hinner : FollowsBelow inner (rest.length + 1))
    (taken : advance isReadable ⟨stack, .start⟩ op.symbol = some t)
    (hinterval : (machine isReadable).Follows [] t rest Rule.interval
      fun int _ t' E => t' = ⟨.unary op int :: stack, .start⟩ ∧ E = []) :
    (machine isReadable).Follows given ⟨stack, .start⟩ (op.symbol :: rest) (Rule.unary inner)
      (Ended stack) := by
  refine Machine.follows_oneOf_bind (a := op) (by cases op <;> rfl) taken (hinterval.bind ?_)
  rintro int u last _ _ parts ⟨rfl, rfl⟩
  have shorter : last.length < rest.length + 1 :=
    Nat.lt_succ_of_le (List.IsSuffix.length_le ⟨u, parts.symm⟩)
  refine (hinner last shorter (.unary op int :: stack)).bind ?_
  intro f _ final t' E _ ended
  exact Machine.follows_pure _ ⟨ended.follows, ended.result, ended.expected⟩

theorem follows_always
    (hinner : FollowsBelow inner (rest.length + 1)) :
    (machine isReadable).Follows given ⟨stack, .start⟩ ('G' :: rest) (Rule.unary inner)
      (Ended stack) := by
  refine follows_unary .always (t := ⟨stack, .bounds (.unary .always) .fresh⟩) hinner rfl ?_
  refine (follows_inside stack _ rfl (Bounds.follows_interval rest)).mono ?_
  rintro int _ _ E ⟨b, ⟨rfl, rfl⟩, rfl⟩
  exact ⟨rfl, rfl⟩

/-- The letter `F` before a bracket is read as the operator together with the bracket. -/
theorem follows_eventually
    (hinner : FollowsBelow inner (rest.length + 2)) :
    (machine isReadable).Follows given ⟨stack, .start⟩ ('F' :: '[' :: rest) (Rule.unary inner)
      (Ended stack) := by
  refine follows_unary .eventually (t := ⟨stack, .letterF⟩) hinner rfl ?_
  refine Machine.follows_char_bind (t := ⟨stack, .bounds (.unary .eventually) (.lower none)⟩) rfl ?_
  refine (follows_inside stack _ rfl (Bounds.follows_bounds rest)).mono ?_
  rintro int _ _ E ⟨b, ⟨rfl, rfl⟩, rfl⟩
  exact ⟨rfl, rfl⟩

end Prefixes

section Operators

variable {text : List Char}

section Tables

variable {α β : Type} {table : List (Char × α)} {known? : Char → Option β}

/-- Where no character of a table stands first, the choice of these characters refuses the text. -/
theorem refuses_table
    (hknown : ∀ entry ∈ table, known? entry.1 ≠ none) (h : ∀ c ∈ text.head?, known? c = none) :
    (Rule.oneOf table).Refuses text (table.map fun entry => .symbol entry.1) :=
  Rule.refuses_oneOf fun entry hentry hc => hknown entry hentry (h entry.1 hc)

theorem exists_head_of_known
    (h : ¬ ∀ c ∈ text.head?, known? c = none) :
    ∃ c a rest, text = c :: rest ∧ known? c = some a := by
  push Not at h
  obtain ⟨c, hc, hne⟩ := h
  obtain ⟨a, ha⟩ := Option.ne_none_iff_exists'.mp hne
  obtain ⟨rest, htext⟩ := List.head?_eq_some_iff.mp hc
  exact ⟨c, a, rest, htext, ha⟩

end Tables

theorem refuses_listOp
    (h : ∀ c ∈ text.head?, listOp? c = none) :
    Rule.listOp.Refuses text [.symbol 'v', .symbol '&', .symbol '='] :=
  refuses_table (by simp [listOp?]) h

theorem refuses_binaryOp
    (h : ∀ c ∈ text.head?, binaryOp? c = none) :
    Rule.binaryOp.Refuses text [.symbol 'v', .symbol '&', .symbol '=', .symbol '>'] :=
  refuses_table (by simp [binaryOp?]) h

theorem refuses_temporalOp
    (h : ∀ c ∈ text.head?, temporalOp? c = none) :
    Rule.temporalOp.Refuses text [.symbol 'U', .symbol 'R'] :=
  refuses_table (by simp [temporalOp?]) h

/-- A connective is no temporal operator. -/
theorem temporalOp?_of_binary
    (op : BinaryOp) (rest : List Char) :
    ∀ c ∈ (op.symbol :: rest).head?, temporalOp? c = none := by
  intro c hc
  obtain rfl := Option.some.inj hc
  cases op <;> rfl

/-- The closing parenthesis behind a formula in the frame of a left operand. -/
theorem follows_close
    {frame : Frame} {f g : Formula} {t : State} {E : List Expectation}
    (ended : Ended (frame :: stack) f rest t E)
    (stays : finish (frame :: stack) f = ⟨frame :: stack, .ended f⟩)
    (close : ∀ c, follow f (frame :: stack) c = if c = ')' then some (finish stack g) else none)
    (next : expectedAfter (frame :: stack) = [.symbol ')']) :
    (machine isReadable).Follows E t rest (Rule.char ')' >>= fun _ => pure g) (Ended stack) := by
  obtain ⟨follows, result, expects⟩ := ended
  rw [stays] at follows result expects
  refine Machine.follows_required (fun e => ?_) (fun h => ⟨result, fun c hc => ?_⟩) ?_
  · exact (expects e).trans (by rw [next, List.mem_singleton])
  · have hne : c ≠ ')' := fun heq => h (heq ▸ hc)
    exact (follows c hc).trans ((close c).trans (if_neg hne))
  · rintro last rfl
    exact ⟨finish stack g, (follows ')' rfl).trans ((close ')').trans (if_pos rfl)),
      Machine.follows_pure _ (ended_finish stack g last)⟩

/-- What stands behind the left operand of a connective. -/
def behindBinary (inner : Rule Formula) (lhs : Formula) : Rule Formula := do
  let op ← Rule.binaryOp
  let rhs ← inner
  Rule.char ')'
  return .binary lhs op rhs

/-- What stands behind the left operand of a temporal operator. -/
def behindTemporal (inner : Rule Formula) (lhs : Formula) : Rule Formula := do
  let op ← Rule.temporalOp
  let int ← Rule.interval
  let rhs ← inner
  Rule.char ')'
  return .temporal lhs op int rhs

variable {lhs : Formula} {c : Char} {t : State} {E : List Expectation}

theorem Ended.advance_binary
    {op : BinaryOp} (ended : Ended (.left :: stack) lhs (op.symbol :: rest) t E) :
    advance isReadable t op.symbol = some ⟨.right lhs op :: stack, .start⟩ :=
  (ended.follows _ rfl).trans (follow_binary lhs op stack)

theorem Ended.advance_temporal
    {op : TemporalOp} (ended : Ended (.left :: stack) lhs (op.symbol :: rest) t E) :
    advance isReadable t op.symbol = some ⟨stack, .bounds (.temporal lhs op) .fresh⟩ :=
  (ended.follows _ rfl).trans (follow_temporal lhs op stack)

theorem follows_behindBinary
    {op : BinaryOp} (ended : Ended (.left :: stack) lhs (op.symbol :: rest) t E)
    (hinner : FollowsBelow inner (rest.length + 1)) :
    (machine isReadable).Follows given t (op.symbol :: rest) (behindBinary inner lhs)
      (Ended stack) := by
  refine Machine.follows_oneOf_bind (a := op) (by cases op <;> rfl) ended.advance_binary ?_
  refine (hinner rest (Nat.lt_succ_self _) _).bind ?_
  intro rhs _ last t' E' _ endedRhs
  exact follows_close endedRhs rfl (fun _ => rfl) rfl

theorem follows_behindTemporal
    {op : TemporalOp} (ended : Ended (.left :: stack) lhs (op.symbol :: rest) t E)
    (hinner : FollowsBelow inner (rest.length + 1)) :
    (machine isReadable).Follows given t (op.symbol :: rest) (behindTemporal inner lhs)
      (Ended stack) := by
  refine Machine.follows_oneOf_bind (a := op) (by cases op <;> rfl) ended.advance_temporal ?_
  refine (follows_inside stack _ rfl (Bounds.follows_interval rest)).bind ?_
  rintro int u last _ _ parts ⟨b, ⟨rfl, rfl⟩, rfl⟩
  have shorter : last.length < rest.length + 1 :=
    Nat.lt_succ_of_le (List.IsSuffix.length_le ⟨u, parts.symm⟩)
  refine (hinner last shorter (.rightTemporal lhs op int :: stack)).bind ?_
  intro rhs _ final t' E' _ endedRhs
  exact follows_close endedRhs rfl (fun _ => rfl) rfl

/-- Behind the left operand a connective or a temporal operator decides between the two forms. -/
theorem follows_operator
    (ended : Ended (.left :: stack) lhs rest t E) (hinner : FollowsBelow inner rest.length) :
    (machine isReadable).Follows E t rest
      (Rule.choice [behindBinary inner lhs, behindTemporal inner lhs]) (Ended stack) := by
  by_cases hb : ∀ c ∈ rest.head?, binaryOp? c = none
  · by_cases ht : ∀ c ∈ rest.head?, temporalOp? c = none
    · refine Machine.follows_refusing (((refuses_binaryOp hb).bind _).or
        (((refuses_temporalOp ht).bind _).or (Rule.refuses_nothing _))) (by simp)
        ⟨ended.result, ?_⟩ ?_
      · intro c hc
        refine (ended.follows c hc).trans ?_
        change follow lhs (.left :: stack) c = none
        rw [follow, hb c hc, ht c hc]
      · intro e
        refine (ended.expected e).trans (or_congr_right ?_)
        change e ∈ [_, _, _, _, _, _] ↔ _
        simp only [List.mem_append, List.mem_cons, List.not_mem_nil, or_false]
        tauto
    · obtain ⟨c, op, rest, rfl, hop⟩ := exists_head_of_known ht
      obtain rfl := symbol_of_temporalOp? hop
      refine .skip ((refuses_binaryOp hb).bind _) ((follows_behindTemporal ended hinner).only ?_)
      exact Option.isSome_of_eq_some ended.advance_temporal
  · obtain ⟨c, op, rest, rfl, hop⟩ := exists_head_of_known hb
    obtain rfl := symbol_of_binaryOp? hop
    refine (follows_behindBinary ended hinner).take_of_refuses
      (Option.isSome_of_eq_some ended.advance_binary)
      (((refuses_temporalOp (temporalOp?_of_binary op rest)).bind _).or (Rule.refuses_nothing _))

end Operators

section Lists

variable {op : ListOp} {members : List Formula} {f : Formula} {t : State} {E : List Expectation}

/-- What stands behind the members of a list. -/
def behindMembers (op : ListOp) (subs : List Formula) : Rule Formula := do
  Rule.char ']'
  Rule.char ')'
  return .list op subs

/-- The brackets close a list behind a member that no comma follows. -/
theorem follows_behindMembers
    (ended : Ended (.list op members :: stack) f rest t E) (hcomma : ',' ∉ rest.head?) :
    (machine isReadable).Follows (E ++ [Expectation.symbol ',']) t rest
      (behindMembers op (members.reverse ++ [f])) (Ended stack) := by
  refine Machine.follows_required (fun e => ?_) (fun hbracket => ⟨ended.result, fun c hc => ?_⟩) ?_
  · refine (ended.expected e).trans ?_
    change _ ∨ e ∈ [_, _] ↔ _
    simp only [List.mem_append, List.mem_cons, List.not_mem_nil, or_false, or_assoc]
  · have hc' : c ≠ ',' := fun heq => hcomma (heq ▸ hc)
    have hb' : c ≠ ']' := fun heq => hbracket (heq ▸ hc)
    refine (ended.follows c hc).trans ?_
    change follow f (.list op members :: stack) c = none
    rw [follow, if_neg hc', if_neg hb']
  · rintro last rfl
    refine ⟨⟨stack, .listTail (.list op (members.reverse ++ [f]))⟩, ended.follows ']' rfl, ?_⟩
    refine Machine.follows_required (fun e => ?_) (fun hclose => ⟨?_, fun c hc => ?_⟩) ?_
    · simp [machine, expected]
    · simp [machine, result?, whole?]
    · have hne : c ≠ ')' := fun heq => hclose (heq ▸ hc)
      exact if_neg hne
    · rintro final rfl
      exact ⟨finish stack (.list op (members.reverse ++ [f])), by simp [machine, advance],
        Machine.follows_pure _ (ended_finish stack _ final)⟩

/-- One round of a list: a comma and a member. -/
theorem alike_round
    (inner : Rule Formula) (rounds : Nat) (next : List Formula → Rule Formula) (text : List Char) :
    Rule.Alike
      ((Rule.char ',' >>= fun _ => inner >>= fun g =>
        Rule.further inner (Rule.char ',') rounds >>= fun others => next (g :: others)) text)
      (((do
        Rule.char ','
        let g ← inner
        let others ← Rule.further inner (Rule.char ',') rounds
        return g :: others : Rule (List Formula)) >>= next) text) := by
  refine .trans (Rule.alike_bind fun _ rest _ => ?_) (Rule.alike_assoc _ _ next text).symm
  refine .trans (Rule.alike_bind fun g rest _ => ?_) (Rule.alike_assoc _ _ next _).symm
  refine .trans (Rule.alike_bind fun others rest _ => ?_) (Rule.alike_assoc _ _ next _).symm
  exact (Rule.alike_pure_bind _ next rest).symm

/-- The further members of a list, and what stands behind them. A comma behind which no member follows is
given back, but the closing bracket is then missed before the comma. -/
theorem follows_further
    (rounds : Nat) (hrounds : rest.length < rounds) (hinner : FollowsBelow inner rest.length)
    (ended : Ended (.list op members :: stack) f rest t E) :
    (machine isReadable).Follows E t rest
      (Rule.further inner (Rule.char ',') rounds >>= fun others =>
        behindMembers op (members.reverse ++ f :: others)) (Ended stack) := by
  induction rounds generalizing members f rest t E with
  | zero => exact absurd hrounds (Nat.not_lt_zero _)
  | succ rounds ih =>
      by_cases hcomma : ',' ∈ rest.head?
      · obtain ⟨rest, rfl⟩ := List.head?_eq_some_iff.mp hcomma
        have taken : advance isReadable t ',' = some ⟨.list op (f :: members) :: stack, .start⟩ :=
          ended.follows ',' rfl
        refine Machine.Follows.take_bind (.congr ?_ (alike_round inner rounds _ _))
          (Option.isSome_of_eq_some taken) ((Rule.refuses_char (by simp)).bind _)
        refine Machine.follows_char_bind taken ?_
        refine (hinner rest (Nat.lt_succ_self _) _).bind ?_
        intro g u last t' E' parts endedMember
        have shorter : last.length ≤ rest.length :=
          List.IsSuffix.length_le ⟨u, parts.symm⟩
        have hrest := ih (by simp at hrounds; omega)
          (fun text htext => hinner text (by simp; omega)) endedMember
        simpa using hrest
      · have none : (machine isReadable).Follows E t rest
            (Rule.further inner (Rule.char ',') (rounds + 1)) fun others last t' E' =>
              others = [] ∧ last = rest ∧ t' = t ∧ E' = E ++ [Expectation.symbol ','] := by
          refine .skip ((Rule.refuses_char hcomma).bind _) ?_
          exact (Machine.follows_pure [] ⟨rfl, rfl, rfl, rfl⟩).congr
            (by rw [Rule.choice_of_some rfl]; exact ⟨rfl, fun _ _ _ => Iff.rfl⟩)
        refine none.bind ?_
        rintro _ _ _ _ _ - ⟨rfl, rfl, rfl, rfl⟩
        exact follows_behindMembers ended hcomma

/-- The members of a list, and what stands behind them. -/
theorem alike_separated
    (inner : Rule Formula) (next : List Formula → Rule Formula) (text : List Char) :
    Rule.Alike
      ((inner >>= fun first => Rule.further inner (Rule.char ',') (text.length + 1) >>= fun others =>
        next (first :: others)) text)
      ((Rule.separated inner (Rule.char ',') >>= next) text) := by
  have unfolded : (Rule.separated inner (Rule.char ',') >>= next) text =
      ((do
        let first ← inner
        let others ← Rule.further inner (Rule.char ',') (text.length + 1)
        return first :: others : Rule (List Formula)) >>= next) text :=
    Rule.bind_congr_left rfl next
  rw [unfolded]
  refine .trans (Rule.alike_bind fun first rest _ => ?_) (Rule.alike_assoc _ _ next text).symm
  refine .trans (Rule.alike_bind fun others rest _ => ?_) (Rule.alike_assoc _ _ next _).symm
  exact (Rule.alike_pure_bind _ next rest).symm

/-- Behind the parenthesis, the connective of a list decides for the list. -/
theorem follows_behindParenthesis
    (hinner : FollowsBelow inner (rest.length + 1)) :
    (machine isReadable).Follows given ⟨stack, .opened⟩ (op.symbol :: rest)
      (do
        let op ← Rule.listOp
        Rule.char '['
        let subs ← Rule.separated inner (Rule.char ',')
        behindMembers op subs)
      (Ended stack) := by
  refine Machine.follows_oneOf_bind (a := op) (t := ⟨stack, .listHead op⟩) (by cases op <;> rfl)
    (by simp [machine, advance, listOp?_symbol]) ?_
  refine Machine.follows_required (fun e => ?_) (fun hbracket => ⟨?_, fun c hc => ?_⟩) ?_
  · simp [machine, expected]
  · simp [machine, result?, whole?]
  · have hne : c ≠ '[' := fun heq => hbracket (heq ▸ hc)
    exact if_neg hne
  · rintro last rfl
    refine ⟨⟨.list op [] :: stack, .start⟩, by simp [machine, advance], ?_⟩
    have members : (machine isReadable).Follows [] ⟨.list op [] :: stack, .start⟩ last
        (inner >>= fun first =>
          Rule.further inner (Rule.char ',') (last.length + 1) >>= fun others =>
            behindMembers op (first :: others)) (Ended stack) := by
      refine (hinner last (by simp) _).bind ?_
      intro first u final t' E' parts ended
      have shorter : final.length ≤ last.length :=
        List.IsSuffix.length_le ⟨u, parts.symm⟩
      exact follows_further (last.length + 1) (by omega)
        (fun text htext => hinner text (by simp; omega)) ended
    exact members.congr (alike_separated inner (behindMembers op) last)

end Lists

section Parentheses

variable {text : List Char}

/-- Where a formula begins none has ended. -/
theorem not_ended_start
    {f : Formula} {E : List Expectation} :
    ¬ Ended (.left :: stack) f text ⟨.left :: stack, .start⟩ E := by
  intro h
  have expects : Expectation.symbol '&' ∈ starters :=
    (h.expected _).mpr (.inr (by simp [finish, expectedAfter]))
  exact absurd expects (by decide)

/-- A rule that is followed refuses what the machine does not take. -/
theorem refuses_of_follows
    {c : Char}
    (h : (machine isReadable).Follows [] ⟨.left :: stack, .start⟩ (c :: rest) inner
      (Ended (.left :: stack)))
    (hc : enter (.left :: stack) c = none) :
    inner.Refuses (c :: rest) starters := by
  have untaken : (machine isReadable).advance ⟨.left :: stack, .start⟩ c = none := hc
  have tracked := h [] (frontier_nil _)
  generalize hattempt : inner (c :: rest) = attempt at tracked
  cases tracked with
  | @succeeds f u last t misses E parts reached ended frontier =>
      cases u with
      | nil =>
          obtain rfl := Option.some.inj reached
          exact absurd ended not_ended_start
      | cons d u =>
          obtain rfl := (List.cons.inj parts).1
          simp [untaken] at reached
  | @fails u v t misses parts reached stuck expects frontier =>
      cases u with
      | nil =>
          obtain rfl := Option.some.inj reached
          obtain rfl : c :: rest = v := parts
          exact ⟨by rw [hattempt], by rw [hattempt]; exact frontier⟩
      | cons d u =>
          obtain rfl := (List.cons.inj parts).1
          simp [untaken] at reached

/-- Behind an opening parenthesis a formula is followed as behind any other frame, if no connective
stands first. -/
theorem follows_opened
    (hlist : ∀ c ∈ text.head?, listOp? c = none)
    (h : (machine isReadable).Follows [] ⟨.left :: stack, .start⟩ text inner
      (Ended (.left :: stack))) :
    (machine isReadable).Follows [.symbol 'v', .symbol '&', .symbol '='] ⟨stack, .opened⟩ text inner
      (Ended (.left :: stack)) := by
  intro before hbefore
  have entered : ∀ c ∈ text.head?, advance isReadable ⟨stack, .opened⟩ c =
      advance isReadable ⟨.left :: stack, .start⟩ c := by
    intro c hc
    simp only [advance, hlist c hc]
  have moved : ∀ {c : Char} {u v : List Char} {t : State}, text = c :: u ++ v →
      (machine isReadable).reach? ⟨.left :: stack, .start⟩ (c :: u) = some t →
      (machine isReadable).reach? ⟨stack, .opened⟩ (c :: u) = some t := by
    rintro c u v t rfl reached
    rw [Machine.reach?_cons] at reached ⊢
    change (advance isReadable ⟨stack, .opened⟩ c).bind _ = some t
    rw [entered c rfl]
    exact reached
  have passed : ∀ {c : Char} {u v : List Char}, text = c :: u ++ v →
      Frontier before v.length [] := by
    rintro c u v rfl
    refine hbefore.passed ?_
    simp only [List.cons_append, List.length_cons, List.length_append]
    omega
  have tracked := h [] (frontier_nil _)
  generalize inner text = attempt at tracked ⊢
  cases tracked with
  | @succeeds f u last t misses E parts reached ended frontier =>
      cases u with
      | nil =>
          obtain rfl := Option.some.inj reached
          exact absurd ended not_ended_start
      | cons c u =>
          exact .succeeds parts (moved parts reached) ended ((passed parts).append frontier)
  | @fails u v t misses parts reached stuck expects frontier =>
      cases u with
      | nil =>
          obtain rfl := Option.some.inj reached
          obtain rfl : text = v := parts
          refine .fails (u := []) rfl rfl ⟨by simp [machine, result?, whole?], fun c hc => ?_⟩
            (by simp [machine, Reader.expected]) ((hbefore.append frontier).congr fun e => ?_)
          · exact (entered c hc).trans (stuck.refuses c hc)
          · change e ∈ _ ++ starters ↔ e ∈ _ ++ starters
            simp only [List.mem_append, List.mem_cons, List.not_mem_nil, or_false]
            tauto
      | cons c u => exact .fails parts (moved parts reached) stuck expects ((passed parts).append frontier)

theorem enter_symbol
    (stack : List Frame) (op : ListOp) :
    enter stack op.symbol = none := by
  cases op <;> rfl

/-- The three forms in parentheses. The connective of a list stands where else a formula begins, and the
other two forms begin with the same formula. -/
theorem follows_parenthesized
    (hinner : FollowsBelow inner (rest.length + 1)) :
    (machine isReadable).Follows given ⟨stack, .start⟩ ('(' :: rest)
      (Rule.choice [Rule.list inner, Rule.binary inner, Rule.temporal inner]) (Ended stack) := by
  have first := hinner rest (Nat.lt_succ_self _) (.left :: stack)
  refine Machine.Follows.congr ?_ (Rule.alike_factored (Rule.char '(') (List.cons_ne_nil
    (fun _ => do
      let op ← Rule.listOp
      Rule.char '['
      let subs ← Rule.separated inner (Rule.char ',')
      behindMembers op subs)
    [fun _ => inner >>= behindBinary inner, fun _ => inner >>= behindTemporal inner]) _)
  refine Machine.follows_char_bind (t := ⟨stack, .opened⟩) rfl ?_
  by_cases hlist : ∀ c ∈ rest.head?, listOp? c = none
  · refine .skip ((refuses_listOp hlist).bind _) ?_
    refine Machine.Follows.congr ?_ (Rule.alike_factored inner
      (List.cons_ne_nil (behindBinary inner) [behindTemporal inner]) _)
    refine (follows_opened hlist first).bind ?_
    intro lhs u last t E parts ended
    have shorter : last.length ≤ rest.length :=
      List.IsSuffix.length_le ⟨u, parts.symm⟩
    exact follows_operator ended fun text htext => hinner text (by omega)
  · obtain ⟨c, op, rest, rfl, hop⟩ := exists_head_of_known hlist
    obtain rfl := symbol_of_listOp? hop
    have refuses := refuses_of_follows first (enter_symbol _ op)
    refine (follows_behindParenthesis fun text htext => hinner text (by simp; omega)).take_of_refuses
      ?_ ((refuses.bind _).or ((refuses.bind _).or (Rule.refuses_nothing _)))
    change (advance isReadable ⟨stack, .opened⟩ op.symbol).isSome
    rw [advance, hop]
    rfl

end Parentheses

end Forms

section Whole

variable {given : List Expectation} {inner : Rule Formula} {stack : List Frame} {text : List Char}

theorem refuses_variable
    (h : 'p' ∉ text.head?) :
    (Rule.variableName >>= fun x => pure (.literal (.var x)) : Rule Formula).Refuses text
      [.symbol 'p'] :=
  ((Rule.refuses_char h).bind _).bind _

theorem refuses_negation
    (h : '~' ∉ text.head?) :
    (Rule.negation inner).Refuses text [.symbol '~'] :=
  (Rule.refuses_char h).bind _

theorem refuses_unary
    (hF : 'F' ∉ text.head?) (hG : 'G' ∉ text.head?) :
    (Rule.unary inner).Refuses text [.symbol 'F', .symbol 'G'] := by
  have op : Rule.unaryOp.Refuses text [.symbol 'F', .symbol 'G'] :=
    Rule.refuses_oneOf (by simpa using ⟨hF, hG⟩)
  exact op.bind _

theorem refuses_parenthesized
    (h : '(' ∉ text.head?) :
    (Rule.choice [Rule.list inner, Rule.binary inner, Rule.temporal inner]).Refuses text
      [.symbol '('] :=
  (((Rule.refuses_char h).bind _).or (((Rule.refuses_char h).bind _).or
    (((Rule.refuses_char h).bind _).or (Rule.refuses_nothing _)))).congr fun e => by simp

theorem refuses_fromUnary
    (hF : 'F' ∉ text.head?) (hG : 'G' ∉ text.head?) (ho : '(' ∉ text.head?) :
    (Rule.choice [Rule.unary inner, Rule.list inner, Rule.binary inner, Rule.temporal inner]).Refuses
      text [.symbol 'F', .symbol 'G', .symbol '('] :=
  (refuses_unary hF hG).or (refuses_parenthesized ho)

theorem refuses_fromConstant
    (inner : Rule Formula) (hT : 'T' ∉ text.head?) (hm : '!' ∉ text.head?) (hn : '~' ∉ text.head?)
    (hF : 'F' ∉ text.head?) (hG : 'G' ∉ text.head?) (ho : '(' ∉ text.head?) :
    (Rule.choice [Rule.constant >>= fun l => pure (.literal l), Rule.negation inner, Rule.unary inner,
      Rule.list inner, Rule.binary inner, Rule.temporal inner]).Refuses text
      [.symbol 'T', .symbol '!', .symbol 'F', .symbol '~', .symbol 'F', .symbol 'G', .symbol '('] :=
  ((refuses_constant hT hm ((Rule.refuses_char hF).bind _)).bind _).or
    ((refuses_negation hn).or (refuses_fromUnary hF hG ho))

/-- Where no formula begins, the first characters of all forms are missed. -/
theorem follows_stuck
    (h : ∀ c ∈ text.head?, c ∉ ['p', 'T', '!', 'F', '~', 'G', '(']) (stack : List Frame) :
    (machine isReadable).Follows [] ⟨stack, .start⟩ text (Rule.alternatives inner) (Ended stack) := by
  have other : ∀ c ∈ ['p', 'T', '!', 'F', '~', 'G', '('], c ∉ text.head? :=
    fun c hc hhead => h c hhead hc
  have refuses := (refuses_variable (other 'p' (by simp))).or
    (refuses_fromConstant inner (other 'T' (by simp)) (other '!' (by simp))
      (other '~' (by simp)) (other 'F' (by simp)) (other 'G' (by simp)) (other '(' (by simp)))
  refine Machine.follows_refusing refuses (by simp) ⟨by simp [machine, result?, whole?], fun c hc => ?_⟩
    fun e => ?_
  · have hne := h c hc
    simp only [List.mem_cons, List.not_mem_nil, or_false, not_or] at hne
    obtain ⟨hp, hT, hm, hF, hn, hG, ho⟩ := hne
    simp [machine, advance, enter, hp, hT, hm, hF, hn, hG, ho]
  · change e ∈ starters ↔ _
    simp only [starters, List.mem_append, List.mem_cons, List.not_mem_nil, or_false, false_or]
    tauto

theorem follows_at_constant
    {c : Char} {rest : List Char} {others : List (Rule Formula)} (hp : c ≠ 'p')
    (h : c = 'T' ∨ c = '!' ∨ c = 'F' ∧ '[' ∉ rest.head?) (stack : List Frame) :
    (machine isReadable).Follows [] ⟨stack, .start⟩ (c :: rest)
      (Rule.choice ((Rule.variableName >>= fun x => pure (.literal (.var x))) ::
        (Rule.constant >>= fun l => pure (.literal l)) :: others)) (Ended stack) := by
  refine .skip (refuses_variable (by simpa using hp)) ?_
  have literal : (machine isReadable).Follows [.symbol 'p'] ⟨stack, .start⟩ (c :: rest)
      (Rule.constant >>= fun l => pure (.literal l)) (Ended stack) :=
    (follows_constant h).bind fun l _ last t E _ ended => Machine.follows_pure _ ended
  obtain ⟨l, hl⟩ : ∃ l, (Rule.constant (c :: rest)).value? = some (l, rest) := by
    rcases h with rfl | rfl | ⟨rfl, hrest⟩
    · exact ⟨.top, Rule.value?_constant_eq_some.mpr (.inl ⟨rfl, rfl⟩)⟩
    · exact ⟨.bot, Rule.value?_constant_eq_some.mpr (.inr ⟨.inl rfl, rfl⟩)⟩
    · exact ⟨.bot, Rule.value?_constant_eq_some.mpr (.inr ⟨.inr ⟨rfl, hrest⟩, rfl⟩)⟩
  exact literal.succeed (by rw [Rule.value?_bind, hl]; rfl)

/-- Every form is followed at its first character, which the other forms refuse. -/
theorem follows_alternatives
    (hinner : FollowsBelow inner text.length) (stack : List Frame) :
    (machine isReadable).Follows [] ⟨stack, .start⟩ text (Rule.alternatives inner) (Ended stack) := by
  by_cases h : ∀ c ∈ text.head?, c ∉ ['p', 'T', '!', 'F', '~', 'G', '(']
  · exact follows_stuck h stack
  · push Not at h
    obtain ⟨c, hc, hform⟩ := h
    obtain ⟨rest, rfl⟩ := List.head?_eq_some_iff.mp hc
    simp only [List.mem_cons, List.not_mem_nil, or_false] at hform
    rcases hform with rfl | rfl | rfl | rfl | rfl | rfl | rfl
    · exact (follows_variable stack rest).take_of_refuses rfl
        (refuses_fromConstant _ (by simp) (by simp) (by simp) (by simp) (by simp) (by simp))
    · exact follows_at_constant (by decide) (.inl rfl) stack
    · exact follows_at_constant (by decide) (.inr (.inl rfl)) stack
    · by_cases hbracket : '[' ∈ rest.head?
      · obtain ⟨rest, rfl⟩ := List.head?_eq_some_iff.mp hbracket
        refine .skip (refuses_variable (by simp)) (.skip ((refuses_constant (by simp) (by simp)
          (refuses_letter rest)).bind _) (.skip (refuses_negation (by simp)) ?_))
        exact (follows_eventually hinner).take_of_refuses rfl (refuses_parenthesized (by simp))
      · exact follows_at_constant (by decide) (.inr (.inr ⟨rfl, hbracket⟩)) stack
    · refine .skip (refuses_variable (by simp)) (.skip ((refuses_constant (by simp) (by simp)
        ((Rule.refuses_char (by simp)).bind _)).bind _) ?_)
      exact (follows_negation hinner).take_of_refuses rfl
        (refuses_fromUnary (by simp) (by simp) (by simp))
    · refine .skip (refuses_variable (by simp)) (.skip ((refuses_constant (by simp) (by simp)
        ((Rule.refuses_char (by simp)).bind _)).bind _) (.skip (refuses_negation (by simp)) ?_))
      exact (follows_always hinner).take_of_refuses rfl (refuses_parenthesized (by simp))
    · refine .skip (refuses_variable (by simp)) (.skip ((refuses_constant (by simp) (by simp)
        ((Rule.refuses_char (by simp)).bind _)).bind _) (.skip (refuses_negation (by simp))
          (.skip (refuses_unary (by simp) (by simp)) ?_)))
      exact follows_parenthesized hinner

/-- The machine follows the rule of formulas at every text, inside any frames. -/
theorem follows_formula
    (text : List Char) (stack : List Frame) :
    (machine isReadable).Follows [] ⟨stack, .start⟩ text Rule.formula (Ended stack) := by
  induction hlength : text.length using Nat.strong_induction_on generalizing text stack with
  | _ length ih =>
      rw [Rule.formula_eq]
      refine follows_alternatives (fun shorter hshorter stack => ?_) stack
      exact ih shorter.length (hlength ▸ hshorter) shorter stack rfl

/-- A formula in no frame has ended where only the end of the text may follow. -/
theorem concludes_ended :
    (machine isReadable).Concludes (Ended []) where
  result := fun ended => ended.result
  refuses := fun ended => ended.follows
  expected := fun ended e => (ended.expected e).trans (or_congr_right List.mem_singleton)

theorem decides_formula
    (text : List Char) :
    (machine isReadable).Decides text (Rule.formula.parse text) :=
  (follows_formula text []).decides concludes_ended

end Whole

end Reader

theorem Formula.ofText_eq_ok_iff_parse
    {text : String} {f : Formula} :
    Formula.ofText text = .ok f ↔ Rule.formula.parse text.toList = .ok f := by
  unfold Formula.ofText
  cases Rule.formula.parse text.toList <;> simp [Except.mapError]

/-- The texts that are read as formulas are the derived ones. -/
theorem Formula.ofText_eq_ok_iff
    {text : String} {f : Formula} :
    Formula.ofText text = .ok f ↔ ∃ d : Derivation, d.chars = text.toList ∧ d.formula = f := by
  rw [ofText_eq_ok_iff_parse, (Reader.decides_formula _).accepts_iff, Option.bind_eq_some_iff]
  constructor
  · rintro ⟨s, hs, hf⟩
    exact Reader.derivation_of_result (Reader.spells_reads Reader.Encloses.nil.spells hs) hf
  · rintro ⟨d, hd, rfl⟩
    obtain ⟨t, ht, closes⟩ := Reader.reads_derivation d []
    rw [← hd]
    exact ⟨t, ht, closes.result⟩

end MissionTime

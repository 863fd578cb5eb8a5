import MissionTime.Proofs.Grammar.Forms
import MissionTime.Proofs.Grammar.Nesting
import MissionTime.Proofs.Grammar.Printing

/-!
# Landmarks of accepted texts

The scans for landmarks and the reading of a formula agree on every text that is read: a scan finds the
place at which the derivation of the text has the landmark, or says that there is none. One of them
finds less. The search for an interval stops at the first square bracket, also if a list begins there.

**Definitions.**
* `IsSlice`: the part of a text between two byte positions;
* `Derivation.Part`: the formulas directly inside a formula, with what is written around them;
* `Derivation.Opens`: what a square bracket opens, and `Derivation.FirstOpens`, for the first one;
* `Scan.FindsConnective` and `Scan.FindsInterval`: what the scans find in the text of a formula.

**Results.**
* `Derivation.exists_firstOpens`: a first bracket opens an interval or a list;
* `Scan.connective_enclosed`, `Scan.separator_members` and `Scan.interval_cases`: the scans over derived
  texts;
* `Scan.agrees_with_reading`: the scans over accepted texts.
-/

namespace MissionTime

/-- The part of a text from one byte position up to another. -/
def IsSlice (text : List Char) (start stop : Nat) (part : List Char) : Prop :=
  ∃ before after, text = before ++ (part ++ after) ∧ byteLength before = start ∧
    start + byteLength part = stop

theorem byteLength_pos
    {text : List Char} (h : text ≠ []) :
    0 < byteLength text := by
  obtain ⟨c, rest, rfl⟩ := List.exists_cons_of_ne_nil h
  exact Nat.lt_of_lt_of_le c.utf8Size_pos (Nat.le_add_right _ _)

namespace Derivation

section Parts

/-- The formulas directly inside a formula, with the texts before and behind them. -/
inductive Part : Derivation → List Char → Derivation → List Char → Prop
  | neg (sub : Derivation) : Part (.neg sub) ['~'] sub []
  | unary (op : UnaryOp) (w : Window) (sub : Derivation) :
      Part (.unary op w sub) (op.symbol :: w.chars) sub []
  | first (op : ListOp) (first : Derivation) (rest : List Derivation) :
      Part (.list op first rest) ['(', op.symbol, '['] first (charsOfRest rest ++ [']', ')'])
  | member (op : ListOp) (first : Derivation) (front : List Derivation) (d : Derivation)
      (back : List Derivation) :
      Part (.list op first (front ++ d :: back))
        ('(' :: op.symbol :: '[' :: (first.chars ++ (charsOfRest front ++ [',']))) d
        (charsOfRest back ++ [']', ')'])
  | binaryLeft (lhs : Derivation) (op : BinaryOp) (rhs : Derivation) :
      Part (.binary lhs op rhs) ['('] lhs (op.symbol :: (rhs.chars ++ [')']))
  | binaryRight (lhs : Derivation) (op : BinaryOp) (rhs : Derivation) :
      Part (.binary lhs op rhs) ('(' :: (lhs.chars ++ [op.symbol])) rhs [')']
  | temporalLeft (lhs : Derivation) (op : TemporalOp) (w : Window) (rhs : Derivation) :
      Part (.temporal lhs op w rhs) ['('] lhs (op.symbol :: (w.chars ++ (rhs.chars ++ [')'])))
  | temporalRight (lhs : Derivation) (op : TemporalOp) (w : Window) (rhs : Derivation) :
      Part (.temporal lhs op w rhs) ('(' :: (lhs.chars ++ op.symbol :: w.chars)) rhs [')']

theorem charsOfRest_append
    (front back : List Derivation) :
    charsOfRest (front ++ back) = charsOfRest front ++ charsOfRest back := by
  induction front with
  | nil => rfl
  | cons d front ih => simp [charsOfRest, ih]

theorem Part.chars
    {d sub : Derivation} {before after : List Char} (h : Part d before sub after) :
    d.chars = before ++ (sub.chars ++ after) := by
  cases h <;> simp [Derivation.chars, charsOfRest_append, charsOfRest]

/-- What a square bracket opens. -/
inductive Opened
  | interval (w : Window)
  | list

/-- The square bracket behind a beginning of the text opens the interval of a temporal operator, or a
list. -/
inductive Opens : Derivation → List Char → Opened → Prop
  | unary (op : UnaryOp) (w : Window) (sub : Derivation) :
      Opens (.unary op w sub) [op.symbol] (.interval w)
  | temporal (lhs : Derivation) (op : TemporalOp) (w : Window) (rhs : Derivation) :
      Opens (.temporal lhs op w rhs) ('(' :: (lhs.chars ++ [op.symbol])) (.interval w)
  | list (op : ListOp) (first : Derivation) (rest : List Derivation) :
      Opens (.list op first rest) ['(', op.symbol] .list
  | inside {d sub : Derivation} {before inner after : List Char} {opened : Opened}
      (hpart : Part d before sub after) (hsub : Opens sub inner opened) :
      Opens d (before ++ inner) opened

/-- The text from the bracket on: the interval, or the bracket and a formula. -/
def Opened.Begins : Opened → List Char → Prop
  | .interval w, text => ∃ after, text = w.chars ++ after
  | .list, text => ∃ (member : Derivation) (after : List Char),
      text = '[' :: (member.chars ++ after)

theorem Opened.Begins.append
    {opened : Opened} {text : List Char} (h : opened.Begins text) (more : List Char) :
    opened.Begins (text ++ more) := by
  cases opened with
  | interval w =>
      obtain ⟨after, rfl⟩ := h
      exact ⟨after ++ more, List.append_assoc _ _ _⟩
  | list =>
      obtain ⟨member, after, rfl⟩ := h
      exact ⟨member, after ++ more, by simp⟩

theorem Opens.chars
    {d : Derivation} {before : List Char} {opened : Opened} (h : Opens d before opened) :
    ∃ text, d.chars = before ++ text ∧ opened.Begins text := by
  induction h with
  | unary op w sub => exact ⟨_, rfl, sub.chars, rfl⟩
  | temporal lhs op w rhs =>
      refine ⟨w.chars ++ (rhs.chars ++ [')']), ?_, rhs.chars ++ [')'], rfl⟩
      simp [Derivation.chars]
  | list op first rest => exact ⟨_, rfl, first, _, rfl⟩
  | @inside d sub before inner after opened hpart _ ih =>
      obtain ⟨text, htext, begins⟩ := ih
      refine ⟨text ++ after, ?_, begins.append after⟩
      rw [hpart.chars, htext, List.append_assoc, List.append_assoc]

/-- The first square bracket of the text, and what it opens. -/
structure FirstOpens (d : Derivation) (before : List Char) (opened : Opened) : Prop where
  opens : d.Opens before opened
  first : '[' ∉ before

theorem FirstOpens.inside
    {d sub : Derivation} {before inner after : List Char} {opened : Opened}
    (hpart : Part d before sub after) (hbefore : '[' ∉ before) (h : sub.FirstOpens inner opened) :
    d.FirstOpens (before ++ inner) opened :=
  ⟨.inside hpart h.opens, fun hmem => (List.mem_append.mp hmem).elim hbefore h.first⟩

/-- The first square bracket of a text opens an interval or a list. -/
theorem exists_firstOpens
    (d : Derivation) (h : '[' ∈ d.chars) :
    ∃ before opened, d.FirstOpens before opened := by
  -- Operators and lists have their bracket before those of their parts, but for the left operand of an
  -- operator on two formulas.
  induction d with
  | var index =>
      have digit := index.digital '[' ((List.mem_cons.mp h).resolve_left (by decide))
      exact absurd digit (by decide)
  | top | mark | letter => exact absurd h (by decide)
  | neg sub ih =>
      obtain ⟨before, opened, hsub⟩ := ih ((List.mem_cons.mp h).resolve_left (by decide))
      exact ⟨_, opened, hsub.inside (.neg sub) (by decide)⟩
  | unary op w sub ih => exact ⟨_, _, .unary op w sub, by cases op <;> decide⟩
  | list op first rest => exact ⟨_, _, .list op first rest, by cases op <;> decide⟩
  | binary lhs op rhs ihl ihr =>
      by_cases hl : '[' ∈ lhs.chars
      · obtain ⟨before, opened, hlhs⟩ := ihl hl
        exact ⟨_, opened, hlhs.inside (.binaryLeft lhs op rhs) (by decide)⟩
      · have symbol : '[' ≠ op.symbol := by cases op <;> decide
        have hr : '[' ∈ rhs.chars := by simpa [chars, hl, symbol] using h
        obtain ⟨before, opened, hrhs⟩ := ihr hr
        exact ⟨_, opened, hrhs.inside (.binaryRight lhs op rhs) (by simp [hl, symbol])⟩
  | temporal lhs op w rhs ihl ihr =>
      by_cases hl : '[' ∈ lhs.chars
      · obtain ⟨before, opened, hlhs⟩ := ihl hl
        exact ⟨_, opened, hlhs.inside (.temporalLeft lhs op w rhs) (by decide)⟩
      · have symbol : '[' ≠ op.symbol := by cases op <;> decide
        exact ⟨_, _, .temporal lhs op w rhs, by simp [hl, symbol]⟩

end Parts

end Derivation

namespace Scan

section Connectives

/-- The connective between a nested word and one that has its connectives in parentheses is found. -/
theorem connective_enclosed
    {b b' : Bool} {lhs body : List Char} (hlhs : Nested false b lhs) {c : Char}
    (hc : isConnective c = true) (hbody : Nested false b' body) :
    connective ('(' :: (lhs ++ c :: (body ++ [')']))) = .ok (1 + byteLength lhs) := by
  have plain := isPlain_of_isConnective hc
  have known := isFormulaSymbol_of_isPlain plain
  rw [connective, if_pos rfl, connectiveFrom_nested hlhs nofun,
    connectiveFrom, if_neg (ne_of_isPlain plain rfl), if_neg (ne_of_isPlain plain rfl), known, hc]
  change connectiveFrom [0] (some _) _ (body ++ [')']) = _
  rw [connectiveFrom_nested hbody nofun]
  rfl

end Connectives

section Separators

theorem separatorFrom_chars
    (d : Derivation) (found : Option Nat) (position : Nat) (rest : List Char) :
    separatorFrom [] found position (d.chars ++ rest) =
      separatorFrom [] found (position + byteLength d.chars) rest := by
  have nested : Nested false false d.chars := nested_derivation d
  exact separatorFrom_nested nested nofun found position rest

theorem separatorFrom_rest
    (rest : List Derivation) (found position : Nat) :
    separatorFrom [] (some found) position (Derivation.charsOfRest rest) = .ok found := by
  induction rest generalizing position with
  | nil => rfl
  | cons d rest ih =>
      rw [Derivation.charsOfRest, separatorFrom_step rfl rfl rfl (by simp), separatorFrom_chars, ih]

/-- The first comma between the members of a list is found behind the first member. -/
theorem separator_members
    (first : Derivation) (rest : List Derivation) :
    separator (first.chars ++ Derivation.charsOfRest rest) =
      if rest = [] then .error (.notFound .separator) else .ok (byteLength first.chars) := by
  rw [separator, separatorFrom_chars, Nat.zero_add]
  cases rest with
  | nil => rfl
  | cons d rest =>
      rw [if_neg (List.cons_ne_nil d rest), Derivation.charsOfRest]
      change separatorFrom [] (some _) _ (d.chars ++ Derivation.charsOfRest rest) = _
      rw [separatorFrom_chars, separatorFrom_rest]

end Separators

section Intervals

/-- Without a bracket nothing is found, and nothing is remembered. -/
theorem intervalFrom_outside
    {u : List Char} (known : ∀ c ∈ u, isFormulaSymbol c = true) (h : '[' ∉ u) (position : Nat)
    (rest : List Char) :
    intervalFrom .outside position (u ++ rest) =
      intervalFrom .outside (position + byteLength u) rest := by
  induction u generalizing position with
  | nil => rfl
  | cons c u ih =>
      obtain ⟨hc, hu⟩ := not_or.mp (mt List.mem_cons.mpr h)
      rw [List.cons_append, intervalFrom, if_neg (Ne.symm hc), if_pos (known c List.mem_cons_self),
        ih (fun d hd => known d (List.mem_cons_of_mem c hd)) hu, byteLength_cons, Nat.add_assoc]

theorem intervalFrom_digits
    {phase : IntervalPhase} (hphase : phase ≠ .outside) {digits : List Char}
    (digital : ∀ c ∈ digits, c.isDigit = true) (position : Nat) (rest : List Char) :
    intervalFrom phase position (digits ++ rest) =
      intervalFrom phase (position + byteLength digits) rest := by
  induction digits generalizing position with
  | nil => rfl
  | cons c digits ih =>
      have digit := digital c List.mem_cons_self
      have plain := isPlain_of_isLetter (isLetter_of_isDigit digit)
      have tail := ih (fun d hd => digital d (List.mem_cons_of_mem c hd)) (position + c.utf8Size)
      rw [byteLength_cons, ← Nat.add_assoc, ← tail, List.cons_append]
      cases phase with
      | outside => exact absurd rfl hphase
      | lower opening =>
          rw [intervalFrom, if_neg (ne_of_isPlain plain rfl), if_pos digit]
      | upper opening comma =>
          rw [intervalFrom, if_neg (fun h => ne_of_isPlain plain rfl h.1), if_pos digit]

/-- The places of the brackets and the comma of an interval. -/
def spanOf (position : Nat) (w : Window) : IntervalSpan :=
  ⟨position, position + 1 + byteLength w.lower.digits,
    position + 1 + byteLength w.lower.digits + 1 + byteLength w.upper.digits⟩

theorem intervalFrom_window
    (w : Window) (position : Nat) (rest : List Char) :
    intervalFrom .outside position (w.chars ++ rest) = .ok (spanOf position w) := by
  have lower := byteLength_pos w.lower.nonempty
  have upper := byteLength_pos w.upper.nonempty
  simp only [Window.chars, List.cons_append, List.append_assoc, List.nil_append]
  change intervalFrom (.lower position) (position + 1) _ = _
  rw [intervalFrom_digits (by simp) w.lower.digital, intervalFrom, if_pos rfl]
  change intervalFrom _ (position + 1 + byteLength w.lower.digits + 1) _ = _
  rw [intervalFrom_digits (by simp) w.upper.digital, intervalFrom, if_pos ⟨rfl, by omega, by omega⟩]
  rfl

/-- The first bracket belongs to a temporal operator. -/
theorem interval_of_window
    {before after : List Char} {w : Window} (known : ∀ c ∈ before, isFormulaSymbol c = true)
    (h : '[' ∉ before) :
    interval (before ++ (w.chars ++ after)) = .ok (spanOf (byteLength before) w) := by
  rw [interval, intervalFrom_outside known h, Nat.zero_add, intervalFrom_window]

/-- The first bracket belongs to a list: behind it no digit stands but the beginning of a formula. -/
theorem interval_of_list
    {before : List Char} (member : Derivation) (after : List Char)
    (known : ∀ c ∈ before, isFormulaSymbol c = true) (h : '[' ∉ before) :
    ∃ symbol more, member.chars ++ after = symbol :: more ∧
      interval (before ++ '[' :: symbol :: more) =
        .error (.unexpectedSymbol symbol (byteLength before + 1)) := by
  obtain ⟨c, u, hchars, hcomma, hdigit⟩ : ∃ c u, member.chars = c :: u ∧ c ≠ ',' ∧
      ¬ c.isDigit = true := by
    cases member with
    | unary op => cases op <;> exact ⟨_, _, rfl, by decide, by decide⟩
    | _ => exact ⟨_, _, rfl, by decide, by decide⟩
  refine ⟨c, u ++ after, by rw [hchars]; rfl, ?_⟩
  rw [interval, intervalFrom_outside known h, Nat.zero_add]
  change intervalFrom (.lower (byteLength before)) (byteLength before + 1) (c :: (u ++ after)) = _
  rw [intervalFrom, if_neg hcomma, if_neg hdigit]

end Intervals

section Agreement

theorem ofText_window
    (w : Window) :
    Interval.ofText (String.ofList w.chars) = .ok w.interval := by
  have parsed : Rule.interval.parse w.chars = .ok w.interval := by
    rw [(Bounds.decides_interval w.chars).accepts_iff]
    change ((Bounds.machine isReadable).reach? .fresh w.chars).bind _ = _
    rw [Reader.reach_window]
    rfl
  rw [Interval.ofText, String.toList_ofList, parsed]
  rfl

/-- The connective is found behind the left operand, and what stands before it in the parentheses is
read as that operand. -/
def FindsConnective (text : String) (lhs : Formula) (symbol : Char) : Prop :=
  ∃ position part, connective text.toList = .ok position ∧
    IsSlice text.toList 1 position part ∧ Formula.ofText (String.ofList part) = .ok lhs ∧
    IsSlice text.toList position (position + 1) [symbol]

/-- The search for an interval ends at the first square bracket. -/
structure FindsInterval (d : Derivation) : Prop where
  missing : interval d.chars = .error (.notFound .interval) ↔ '[' ∉ d.chars
  found : (∃ span, interval d.chars = .ok span) ↔ ∃ before w, d.FirstOpens before (.interval w)
  reads : ∀ span, interval d.chars = .ok span → ∃ before w part,
    d.FirstOpens before (.interval w) ∧ span.opening = byteLength before ∧
      IsSlice d.chars span.opening (span.closing + 1) part ∧
      Interval.ofText (String.ofList part) = .ok w.interval
  stops : '[' ∈ d.chars → (¬ ∃ span, interval d.chars = .ok span) → ∃ before symbol after,
    d.FirstOpens before .list ∧ d.chars = before ++ '[' :: symbol :: after ∧
      interval d.chars = .error (.unexpectedSymbol symbol (byteLength before + 1))

theorem findsConnective_of_chars
    {text : String} {lhs : Derivation} {c : Char} {b : Bool} {body : List Char}
    (htext : '(' :: (lhs.chars ++ c :: (body ++ [')'])) = text.toList)
    (hc : isConnective c = true) (hbody : Nested false b body) :
    FindsConnective text lhs.formula c := by
  have nested : Nested false false lhs.chars := nested_derivation lhs
  refine ⟨1 + byteLength lhs.chars, lhs.chars, ?_, ?_, ?_, ?_⟩
  · rw [← htext]
    exact connective_enclosed nested hc hbody
  · exact ⟨['('], c :: (body ++ [')']), htext.symm, rfl, rfl⟩
  · exact Formula.ofText_eq_ok_iff.mpr ⟨lhs, String.toList_ofList.symm, rfl⟩
  · refine ⟨'(' :: lhs.chars, body ++ [')'], htext.symm, rfl, ?_⟩
    rw [byteLength_cons, byteLength_nil, utf8Size_of_isConnective hc]

theorem symbols_before
    {d : Derivation} {before text : List Char} (h : d.chars = before ++ text) :
    ∀ c ∈ before, isFormulaSymbol c = true := by
  intro c hc
  have nested : Nested false false d.chars := nested_derivation d
  exact nested.isFormulaSymbol (h ▸ List.mem_append_left text hc)

theorem byteLength_window
    (w : Window) (position : Nat) :
    position + byteLength w.chars = (spanOf position w).closing + 1 := by
  have ascii : '['.utf8Size = 1 ∧ ','.utf8Size = 1 ∧ ']'.utf8Size = 1 := by decide
  simp only [spanOf, Window.chars, byteLength_cons, byteLength_append, byteLength_nil, ascii]
  omega

theorem interval_of_firstOpens_window
    {d : Derivation} {before : List Char} {w : Window} (h : d.FirstOpens before (.interval w)) :
    interval d.chars = .ok (spanOf (byteLength before) w) ∧
      IsSlice d.chars (byteLength before) ((spanOf (byteLength before) w).closing + 1) w.chars := by
  obtain ⟨text, htext, after, rfl⟩ := h.opens.chars
  refine ⟨?_, before, after, htext, rfl, byteLength_window w _⟩
  rw [htext]
  exact interval_of_window (symbols_before htext) h.first

theorem interval_of_firstOpens_list
    {d : Derivation} {before : List Char} (h : d.FirstOpens before .list) :
    ∃ symbol after, d.chars = before ++ '[' :: symbol :: after ∧
      interval d.chars = .error (.unexpectedSymbol symbol (byteLength before + 1)) := by
  obtain ⟨text, htext, member, after, rfl⟩ := h.opens.chars
  obtain ⟨symbol, more, hmore, run⟩ :=
    interval_of_list member after (symbols_before htext) h.first
  rw [hmore] at htext
  exact ⟨symbol, more, htext, htext ▸ run⟩

theorem interval_of_not_mem
    {d : Derivation} (h : '[' ∉ d.chars) :
    interval d.chars = .error (.notFound .interval) := by
  have known : ∀ c ∈ d.chars, isFormulaSymbol c = true :=
    symbols_before (List.append_nil d.chars).symm
  have run := intervalFrom_outside known h 0 []
  rw [List.append_nil] at run
  exact run

/-- What the search for an interval answers: nothing, an interval, or the beginning of a list. -/
theorem interval_cases
    (d : Derivation) :
    ('[' ∉ d.chars ∧ interval d.chars = .error (.notFound .interval)) ∨
      (∃ before w, d.FirstOpens before (.interval w) ∧
        interval d.chars = .ok (spanOf (byteLength before) w)) ∨
      ∃ before symbol after, d.FirstOpens before .list ∧ d.chars = before ++ '[' :: symbol :: after ∧
        interval d.chars = .error (.unexpectedSymbol symbol (byteLength before + 1)) := by
  by_cases hmem : '[' ∈ d.chars
  · obtain ⟨before, opened, hfirst⟩ := d.exists_firstOpens hmem
    cases opened with
    | interval w => exact .inr (.inl ⟨before, w, hfirst, (interval_of_firstOpens_window hfirst).1⟩)
    | list =>
        obtain ⟨symbol, after, hchars, run⟩ := interval_of_firstOpens_list hfirst
        exact .inr (.inr ⟨before, symbol, after, hfirst, hchars, run⟩)
  · exact .inl ⟨hmem, interval_of_not_mem hmem⟩

theorem firstOpens_of_interval
    {d : Derivation} {span : IntervalSpan} (h : interval d.chars = .ok span) :
    ∃ before w, d.FirstOpens before (.interval w) ∧ span = spanOf (byteLength before) w := by
  rcases interval_cases d with ⟨-, run⟩ | ⟨before, w, hfirst, run⟩ | ⟨before, symbol, after, -, -, run⟩
  · rw [run] at h
    cases h
  · rw [run] at h
    exact ⟨before, w, hfirst, (Except.ok.inj h).symm⟩
  · rw [run] at h
    cases h

/-- On the text of every formula the search for an interval ends at the first square bracket. -/
theorem findsInterval
    (d : Derivation) :
    FindsInterval d where
  missing := by
    refine ⟨fun h => ?_, interval_of_not_mem⟩
    rcases interval_cases d with ⟨hmem, -⟩ | ⟨_, _, -, run⟩ | ⟨_, _, _, -, -, run⟩
    · exact hmem
    · rw [run] at h
      cases h
    · rw [run] at h
      cases h
  found := by
    constructor
    · rintro ⟨span, h⟩
      obtain ⟨before, w, hfirst, -⟩ := firstOpens_of_interval h
      exact ⟨before, w, hfirst⟩
    · rintro ⟨before, w, hfirst⟩
      exact ⟨_, (interval_of_firstOpens_window hfirst).1⟩
  reads := by
    intro span h
    obtain ⟨before, w, hfirst, rfl⟩ := firstOpens_of_interval h
    exact ⟨before, w, w.chars, hfirst, rfl, (interval_of_firstOpens_window hfirst).2, ofText_window w⟩
  stops := by
    intro hmem hnone
    rcases interval_cases d with ⟨hfree, -⟩ | ⟨before, w, -, run⟩ | hlist
    · exact absurd hmem hfree
    · exact absurd ⟨_, run⟩ hnone
    · exact hlist

theorem findsConnective_of_binary
    {text : String} (h : Production.binary.recognizes text = true) :
    ∃ l op r, Formula.ofText text = .ok (.binary l op r) ∧ FindsConnective text l op.symbol := by
  obtain ⟨d, hd, hform⟩ := (Production.recognizes_iff_derives (by decide)).mp h
  cases d with
  | binary lhs op rhs =>
      have body : Nested false false rhs.chars := nested_derivation rhs
      exact ⟨lhs.formula, op, rhs.formula, Formula.ofText_eq_ok_iff.mpr ⟨_, hd, rfl⟩,
        findsConnective_of_chars hd (isConnective_binary op) body⟩
  | _ => cases hform

theorem findsConnective_of_temporal
    {text : String} (h : Production.binaryTemporal.recognizes text = true) :
    ∃ l op int r, Formula.ofText text = .ok (.temporal l op int r) ∧
      FindsConnective text l op.symbol := by
  obtain ⟨d, hd, hform⟩ := (Production.recognizes_iff_derives (by decide)).mp h
  cases d with
  | temporal lhs op w rhs =>
      have body : Nested false false (w.chars ++ rhs.chars) :=
        .append (nested_window w) (nested_derivation rhs)
      refine ⟨lhs.formula, op, w.interval, rhs.formula,
        Formula.ofText_eq_ok_iff.mpr ⟨_, hd, rfl⟩,
        findsConnective_of_chars ?_ (isConnective_temporal op) body⟩
      rw [← hd, Derivation.chars, List.append_assoc]
  | _ => cases hform

theorem connective_of_list
    {text : String} (h : Production.list.recognizes text = true) :
    connective text.toList = .ok 1 := by
  obtain ⟨d, hd, hform⟩ := (Production.recognizes_iff_derives (by decide)).mp h
  cases d with
  | list op first rest =>
      have members : Nested false true (first.chars ++ Derivation.charsOfRest rest) :=
        .append (nested_derivation first) (nested_charsOfRest fun d _ => nested_derivation d)
      have body : Nested false false _ := .square members
      have nothing : Nested false false [] := .nil
      have found := connective_enclosed nothing (isConnective_binary op.toBinary) body
      simpa [← hd, Derivation.chars, ListOp.symbol] using found
  | _ => cases hform

theorem exists_derivations_of_texts
    {texts : List String} (h : ∀ text ∈ texts, ∃ f, Formula.ofText text = .ok f) :
    ∃ ds : List Derivation, ds.map Derivation.chars = texts.map String.toList := by
  have derived : texts.map String.toList ∈ Set.range (List.map Derivation.chars) := by
    rw [Set.range_list_map]
    intro chars hchars
    obtain ⟨text, htext, rfl⟩ := List.mem_map.mp hchars
    obtain ⟨f, hf⟩ := h text htext
    obtain ⟨d, hd, -⟩ := Formula.ofText_eq_ok_iff.mp hf
    exact ⟨d, hd⟩
  exact derived

theorem separator_of_texts
    {first : String} {rest : List String}
    (h : ∀ text ∈ first :: rest, ∃ f, Formula.ofText text = .ok f) :
    separator (joinCommas ((first :: rest).map String.toList)) =
      if rest = [] then .error (.notFound .separator) else .ok (byteLength first.toList) := by
  obtain ⟨ds, hds⟩ := exists_derivations_of_texts h
  cases ds with
  | nil => cases hds
  | cons d members =>
      obtain ⟨hd, hmembers⟩ := List.cons.inj hds
      have alone : members = [] ↔ rest = [] := by
        rw [← List.map_eq_nil_iff, hmembers, List.map_eq_nil_iff]
      rw [← hds, Derivation.joinCommas_chars, separator_members, hd]
      exact if_congr alone rfl rfl

/-- On every accepted text the scans agree with the reading of the text. The connective of two formulas
stands behind the left one, and that of a list behind the parenthesis. The separator of a list of
accepted texts stands behind the first, if there are more. The search for an interval finds the first
square bracket if it belongs to a temporal operator. -/
theorem agrees_with_reading :
    (∀ text, Production.binary.recognizes text = true → ∃ l op r,
      Formula.ofText text = .ok (.binary l op r) ∧ FindsConnective text l op.symbol) ∧
    (∀ text, Production.binaryTemporal.recognizes text = true → ∃ l op int r,
      Formula.ofText text = .ok (.temporal l op int r) ∧ FindsConnective text l op.symbol) ∧
    (∀ text, Production.list.recognizes text = true → connective text.toList = .ok 1) ∧
    (∀ first rest, (∀ text ∈ first :: rest, ∃ f, Formula.ofText text = .ok f) →
      separator (joinCommas ((first :: rest).map String.toList)) =
        if rest = [] then .error (.notFound .separator) else .ok (byteLength first.toList)) ∧
    ∀ text f, Formula.ofText text = .ok f →
      ∃ d : Derivation, d.chars = text.toList ∧ d.formula = f ∧ FindsInterval d := by
  refine ⟨fun text h => findsConnective_of_binary h, fun text h => findsConnective_of_temporal h,
    fun text h => connective_of_list h, fun first rest h => separator_of_texts h, fun text f h => ?_⟩
  obtain ⟨d, hd, hf⟩ := Formula.ofText_eq_ok_iff.mp h
  exact ⟨d, hd, hf, findsInterval d⟩

/-- A left operand that is a list, one behind a negation, and members with brackets of both kinds. -/
theorem agrees_with_reading_nestedTexts :
    (∃ l op r, Formula.ofText "(~G[0,3]p1>(v[p2,!]))" = .ok (.binary l op r) ∧
      FindsConnective "(~G[0,3]p1>(v[p2,!]))" l op.symbol) ∧
    (∃ l op int r, Formula.ofText "((&[p0,T])U[07,9]F)" = .ok (.temporal l op int r) ∧
      FindsConnective "((&[p0,T])U[07,9]F)" l op.symbol) ∧
    connective "(&[p0,T])".toList = .ok 1 ∧
    separator (joinCommas ["F[1,2]p3".toList, "(&[p0,T])".toList, "T".toList]) = .ok 8 ∧
    ∃ d : Derivation, d.chars = "~G[0,3]p1".toList ∧ FindsInterval d := by
  obtain ⟨binary, temporal, list, separators, intervals⟩ := agrees_with_reading
  refine ⟨binary _ (by cbv), temporal _ (by cbv), list _ (by cbv), ?_, ?_⟩
  · have read : ∀ text ∈ ["F[1,2]p3", "(&[p0,T])", "T"], ∃ f, Formula.ofText text = .ok f := by
      simp only [List.forall_mem_cons]
      exact ⟨⟨.unary .eventually ⟨1, 2⟩ (.var 3), by cbv⟩,
        ⟨.list .and [.var 0, .literal .top], by cbv⟩, ⟨.literal .top, by cbv⟩,
        List.forall_mem_nil _⟩
    exact separators "F[1,2]p3" ["(&[p0,T])", "T"] read
  · obtain ⟨d, hd, -, found⟩ := intervals "~G[0,3]p1"
      (.neg (.unary .always ⟨0, 3⟩ (.var 1))) (by cbv)
    exact ⟨d, hd, found⟩

end Agreement

end Scan

end MissionTime

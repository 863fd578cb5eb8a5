import MissionTime.Proofs.Grammar.Agreement
import MissionTime.Proofs.Grammar.Expectations
import MissionTime.Proofs.Grammar.Extension

/-!
# Where reading fails

A text that is not a formula is refused at the first character that cannot stand where it stands. The
furthest of the tried alternatives gets as far as the reading machine. What the machine has read can be
extended to a formula, and the machine goes on as long as the text can; so the part that has been read
is the longest beginning of the text that can be extended.

**Definitions.**
* `FirstFailure`: a place in a text and what is expected there.

**Results.**
* `Reader.Spells.extendable`: what has been read can be extended to a formula;
* `Reader.advance_of_extendable`: a state takes what keeps the text extendable;
* `Formula.ofText_locates_failure`: where a text is refused, and what the error expects.
-/

namespace MissionTime

section Completion

theorem isNumber_zero :
    IsNumber ['0'] := by
  simp [IsNumber]

theorem isNumber_concat
    {digits : List Char} (digital : ∀ c ∈ digits, c.isDigit = true) :
    IsNumber (digits ++ ['0']) :=
  ⟨by simp, digital_concat digital (by decide)⟩

theorem joinCommas_concat
    (parts : List (List Char)) (part : List Char) :
    joinCommas (parts ++ [part]) = parts.flatMap (· ++ [',']) ++ part := by
  induction parts with
  | nil => simp
  | cons first rest ih =>
      obtain ⟨next, others, hne⟩ : ∃ next others, rest ++ [part] = next :: others :=
        List.exists_cons_of_ne_nil (by simp)
      rw [List.cons_append, hne, joinCommas_cons_cons, ← hne, ih]
      simp

/-- The part of an interval that has been read can be completed. -/
theorem Bounds.Spells.exists_isWindow
    {text : List Char} {b : Bounds} (h : Spells text b) :
    ∃ rest, IsWindow (text ++ rest) := by
  cases h with
  | fresh => exact ⟨_, .intro isNumber_zero isNumber_zero⟩
  | @lower digits digital =>
      have window := IsWindow.intro (isNumber_concat digital) isNumber_zero
      exact ⟨['0', ',', '0', ']'], by simpa using window⟩
  | @upper n digits digital =>
      have window := IsWindow.intro n.isNumber (isNumber_concat digital)
      exact ⟨['0', ']'], by simpa using window⟩
  | closed w => exact ⟨[], by simpa using w.isWindow⟩

namespace Reader

/-- A formula can be continued until everything that encloses it is complete. -/
theorem Encloses.extendable
    {stack : List Frame} {u g : List Char} (h : Encloses stack u) (hg : Grammatical g) :
    Extendable (u ++ g) := by
  induction h generalizing g with
  | nil => exact hg.extendable
  | neg _ ih => simpa using ih (.neg hg)
  | unary _ op w ih => simpa using ih (.unary op w.isWindow hg)
  | @list stack u _ op members ih =>
      have subs : ∀ sub ∈ members.map Derivation.chars ++ [g], Grammatical sub := by
        intro sub hsub
        rcases List.mem_append.mp hsub with hsub | hsub
        · obtain ⟨d, -, rfl⟩ := List.mem_map.mp hsub
          exact d.grammatical
        · rwa [List.mem_singleton.mp hsub]
      have whole := ih (.list op (by simp) subs)
      rw [joinCommas_concat, List.flatMap_map] at whole
      refine Extendable.of_append (v := [']', ')']) ?_
      simpa using whole
  | left _ ih =>
      refine Extendable.of_append (v := ['&', 'T', ')']) ?_
      simpa [BinaryOp.symbol] using ih (.binary hg .and .top)
  | right _ lhs op ih =>
      refine Extendable.of_append (v := [')']) ?_
      simpa using ih (.binary lhs.grammatical op hg)
  | rightTemporal _ lhs op w ih =>
      refine Extendable.of_append (v := [')']) ?_
      simpa using ih (.temporal lhs.grammatical op w.isWindow hg)

theorem Introduces.extendable
    {owner : Owner} {u w : List Char} (h : Introduces owner u) (hw : IsWindow w) :
    Extendable (u ++ w) := by
  cases h with
  | unary op => exact ⟨['T'], by simpa using Grammatical.unary op hw .top⟩
  | temporal lhs op =>
      exact ⟨['T', ')'], by simpa using Grammatical.temporal lhs.grammatical op hw .top⟩

/-- A formula that has begun can be completed. -/
theorem Begins.extendable
    {phase : Phase} {text : List Char} (h : Begins phase text) :
    Extendable text := by
  cases h with
  | start => exact ⟨['T'], .top⟩
  | opened => exact ⟨_, Grammatical.binary .top .and .top⟩
  | @index digits digital => exact ⟨['0'], .var (isNumber_concat digital)⟩
  | letterF => exact Grammatical.letter.extendable
  | bounds intro spelled =>
      obtain ⟨rest, hw⟩ := spelled.exists_isWindow
      refine Extendable.of_append (v := rest) ?_
      simpa using intro.extendable hw
  | listHead op =>
      refine ⟨['[', 'T', ']', ')'], ?_⟩
      simpa using @Grammatical.list op [['T']] (by simp) (by simpa using .top)
  | listTail op first rest =>
      refine ⟨[')'], ?_⟩
      simpa [Derivation.chars] using (Derivation.list op first rest).grammatical
  | ended d => exact d.grammatical.extendable

/-- What has been read can be extended to a formula. -/
theorem Spells.extendable
    {text : List Char} {s : State} (h : Spells text s) :
    Extendable text := by
  obtain ⟨u, v, hu, hv, rfl⟩ := h
  obtain ⟨rest, hg⟩ := hv.extendable
  refine Extendable.of_append (v := rest) ?_
  simpa using hu.extendable hg

end Reader

end Completion

section FirstFailure

namespace Reader

variable {u : List Char} {t : State} {c : Char}

/-- What a state takes keeps the text extendable. -/
theorem extendable_of_advance
    {s : State} (hu : Spells u t) (h : advance isReadable t c = some s) :
    Extendable (u ++ [c]) :=
  (spells_advance hu h).extendable

theorem exists_of_reads_concat
    {s : State} (h : Reads s (u ++ [c]) t) :
    ∃ r, Reads s u r ∧ advance isReadable r c = some t := by
  rw [Reads, Machine.reach?_append, Option.bind_eq_some_iff] at h
  obtain ⟨r, hr, hc⟩ := h
  rw [Machine.reach?_cons, Option.bind_eq_some_iff] at hc
  obtain ⟨next, hnext, hnil⟩ := hc
  obtain rfl := Option.some.inj hnil
  exact ⟨r, hr, hnext⟩

/-- The machine reads a beginning of a formula whose numbers are small. -/
theorem reads_of_extendable
    (h : Extendable u) (small : SmallNumbers u) :
    ∃ s, Reads ⟨[], .start⟩ u s := by
  obtain ⟨d, v, hd⟩ := h.exists_derivation small
  obtain ⟨r, hr, -⟩ := reads_derivation d []
  rw [hd, Reads, Machine.reach?_append, Option.bind_eq_some_iff] at hr
  obtain ⟨s, hs, -⟩ := hr
  exact ⟨s, hs⟩

/-- A state takes what keeps the text extendable, while the numbers are small. -/
theorem advance_of_extendable
    (hu : Reads ⟨[], .start⟩ u t) (h : Extendable (u ++ [c])) (small : SmallNumbers (u ++ [c])) :
    ∃ s, advance isReadable t c = some s := by
  obtain ⟨s, hs⟩ := reads_of_extendable h small
  obtain ⟨r, hr, hc⟩ := exists_of_reads_concat hs
  obtain rfl := Option.some.inj (hu.symm.trans hr)
  exact ⟨s, hc⟩

/-- One character more keeps the numbers small, unless it continues a number. -/
theorem smallNumbers_concat
    (small : SmallNumbers u) (apart : ∀ d ∈ u.getLast?, d.isDigit = true → c.isDigit = false) :
    SmallNumbers (u ++ [c]) := by
  refine small.append (smallNumbers_singleton c) fun d hd hdigit e he => ?_
  obtain rfl : c = e := by simpa using he
  exact apart d hd hdigit

/-- Where the machine cannot go on, no longer beginning of the text is extendable. -/
theorem length_le_of_stuck
    {rest v : List Char} (hu : Reads ⟨[], .start⟩ u t)
    (stuck : ∀ c ∈ rest.head?, advance isReadable t c = none) (small : SmallNumbers (u ++ rest))
    (hv : v <+: u ++ rest) (h : Extendable v) :
    v.length ≤ u.length := by
  by_contra hlong
  obtain ⟨w, rfl⟩ := List.prefix_of_prefix_length_le (List.prefix_append u rest) hv (by omega)
  cases w with
  | nil => simp at hlong
  | cons c w =>
      have next : u ++ [c] <+: u ++ c :: w := ⟨w, by simp⟩
      obtain ⟨s, hs⟩ := advance_of_extendable hu (h.of_isPrefix next)
        (small.of_isInfix (next.trans hv).isInfix)
      obtain ⟨others, rfl⟩ := (List.prefix_append_right_inj u).mp hv
      rw [stuck c rfl] at hs
      cases hs

/-- A digit is expected where one may follow. -/
theorem digit_expected_iff
    (hu : Reads ⟨[], .start⟩ u t) (small : SmallNumbers u) (hc : c.isDigit = true) :
    .digit ∈ expected isReadable t ↔ Extendable (u ++ [c]) := by
  constructor
  · intro h
    obtain ⟨s, hs⟩ := advance_iff.mpr (.inr (.inl ⟨hc, h⟩))
    exact extendable_of_advance (spells_reads Encloses.nil.spells hu) hs
  · intro h
    by_cases hlast : ∃ d ∈ u.getLast?, d.isDigit = true
    · -- One digit more may make the number too large, but the number has begun.
      obtain ⟨d, hd, hdigit⟩ := hlast
      obtain ⟨v, rfl⟩ := List.getLast?_eq_some_iff.mp hd
      obtain ⟨r, -, hr⟩ := exists_of_reads_concat hu
      exact digit_expected_of_advance hdigit hr
    · have apart : ∀ d ∈ u.getLast?, d.isDigit = true → c.isDigit = false :=
        fun d hd hdigit => absurd ⟨d, hd, hdigit⟩ hlast
      exact digit_expected_of_taken hc
        (advance_of_extendable hu h (smallNumbers_concat small apart))

/-- Every other character that may follow is expected, but for the bracket behind the letter `F`. -/
theorem symbol_expected_of_extendable
    (hu : Reads ⟨[], .start⟩ u t) (small : SmallNumbers u) (hc : c.isDigit = false)
    (h : Extendable (u ++ [c])) :
    .symbol c ∈ expected isReadable t ∨ c = '[' := by
  have taken := advance_of_extendable hu h (smallNumbers_concat small fun _ _ _ => hc)
  rcases advance_iff.mp taken with hsymbol | ⟨hdigit, -⟩ | ⟨-, hbracket⟩
  · exact .inl hsymbol
  · rw [hc] at hdigit
    cases hdigit
  · exact .inr hbracket

/-- The end of the text is expected behind a formula. -/
theorem endOfText_expected_iff_derived
    (hu : Reads ⟨[], .start⟩ u t) :
    .endOfText ∈ expected isReadable t ↔ ∃ d : Derivation, d.chars = u := by
  have settled : Settled t := settled_reads (fun _ _ => Phase.noConfusion) hu
  rw [endOfText_expected_iff settled]
  constructor
  · rintro ⟨f, hf⟩
    obtain ⟨d, hd, -⟩ := derivation_of_result (spells_reads Encloses.nil.spells hu) hf
    exact ⟨d, hd⟩
  · rintro ⟨d, rfl⟩
    obtain ⟨r, hr, closes⟩ := reads_derivation d []
    obtain rfl := Option.some.inj (hu.symm.trans hr)
    exact ⟨d.formula, closes.result⟩

end Reader

/-- The text has been read up to the beginning `u`, and `expected` is what could stand behind it: `u`
is the longest beginning of the text that can be extended to a formula. -/
structure FirstFailure (text u : List Char) (expected : List Expectation) : Prop where
  begins : u <+: text
  extendable : Extendable u
  longest : ∀ v, v <+: text → Extendable v → v.length ≤ u.length
  symbol : ∀ c, .symbol c ∈ expected → Extendable (u ++ [c])
  mentioned : ∀ c, c.isDigit = false → Extendable (u ++ [c]) → .symbol c ∈ expected ∨ c = '['
  digit : ∀ c, c.isDigit = true → (.digit ∈ expected ↔ Extendable (u ++ [c]))
  endOfText : .endOfText ∈ expected ↔ ∃ d : Derivation, d.chars = u

/-- A text that is not a formula, although its numbers are small, is refused behind its longest
beginning that can be extended to a formula with numbers of any size. The error expects symbols that
can stand there, a digit if one can, and the end of the text if the beginning is a formula. -/
theorem Formula.ofText_locates_failure
    {text : String} (small : SmallNumbers text.toList)
    (hderived : ¬ ∃ d : Derivation, d.chars = text.toList) :
    ∃ u expected, Formula.ofText text = .error (.malformedFormula text (byteLength u) expected) ∧
      FirstFailure text.toList u expected := by
  have decided := Reader.decides_formula text.toList
  cases hparse : Rule.formula.parse text.toList with
  | ok f =>
      obtain ⟨d, hd, -⟩ := Formula.ofText_eq_ok_iff.mp (Formula.ofText_eq_ok_iff_parse.mpr hparse)
      exact absurd ⟨d, hd⟩ hderived
  | error rejection =>
      rw [hparse] at decided
      cases decided with
      | @rejects u v t _ parts hu refuses unfinished position expects =>
          have begins : u <+: text.toList := ⟨v, parts.symm⟩
          have spelled := Reader.spells_reads Reader.Encloses.nil.spells hu
          have smallBeginning := small.of_isInfix begins.isInfix
          refine ⟨u, rejection.expected, ?_, begins, spelled.extendable, ?_, ?_, ?_, ?_, ?_⟩
          · rw [Formula.ofText, hparse, ← position]
            rfl
          · intro w hw hextendable
            rw [parts] at hw small
            exact Reader.length_le_of_stuck hu refuses small hw hextendable
          · intro c hc
            obtain ⟨s, hs⟩ := Reader.advance_iff.mpr (.inl ((expects _).mp hc))
            exact Reader.extendable_of_advance spelled hs
          · intro c hc hextendable
            rw [expects]
            exact Reader.symbol_expected_of_extendable hu smallBeginning hc hextendable
          · intro c hc
            rw [expects]
            exact Reader.digit_expected_iff hu smallBeginning hc
          · rw [expects]
            exact Reader.endOfText_expected_iff_derived hu

/-- The text `(p0#p1)` is refused behind `(p0`. -/
theorem Formula.ofText_locates_failure_strayMark :
    SmallNumbers "(p0#p1)".toList ∧
      Formula.ofText "(p0#p1)" = .error (.malformedFormula "(p0#p1)" 3
        [.digit, .symbol 'v', .symbol '&', .symbol '=', .symbol '>', .symbol 'U', .symbol 'R']) ∧
      Extendable "(p0".toList ∧ Extendable "(p0U".toList ∧ Extendable "(p07".toList ∧
      ¬ Extendable "(p0#".toList ∧ ¬ ∃ d : Derivation, d.chars = "(p0".toList := by
  have small : SmallNumbers "(p0#p1)".toList := by decide
  have computed : Formula.ofText "(p0#p1)" = .error (.malformedFormula "(p0#p1)" 3
      [.digit, .symbol 'v', .symbol '&', .symbol '=', .symbol '>', .symbol 'U', .symbol 'R']) := by
    cbv
  have underived : ¬ ∃ d : Derivation, d.chars = "(p0#p1)".toList := by
    rintro ⟨d, hd⟩
    have read := Formula.ofText_eq_ok_iff.mpr ⟨d, hd, rfl⟩
    rw [computed] at read
    cases read
  obtain ⟨u, expected, hfails, located⟩ := Formula.ofText_locates_failure small underived
  rw [computed] at hfails
  injection hfails with hfault
  injection hfault with _ hposition hexpected
  obtain rfl : u = "(p0".toList := by
    have beginnings : ∀ v ∈ "(p0#p1)".toList.inits, 3 = byteLength v → v = "(p0".toList := by
      decide
    exact beginnings u ((List.mem_inits u _).mpr located.begins) hposition
  subst hexpected
  refine ⟨small, computed, located.extendable, located.symbol 'U' (by decide),
    (located.digit '7' (by decide)).mp (by decide), fun h => ?_, fun h => ?_⟩
  · exact absurd (located.longest "(p0#".toList (by decide) h) (by decide)
  · exact absurd (located.endOfText.mpr h) (by decide)

end FirstFailure

end MissionTime

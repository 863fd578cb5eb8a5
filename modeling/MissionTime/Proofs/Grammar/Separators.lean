import MissionTime.Proofs.Grammar.Balance
import MissionTime.Proofs.Grammar.Nesting

/-!
# Separators of arbitrary texts

The search for a separator counts brackets of both kinds, so it tells the texts that are nested from all
others. In a nested text it finds the first comma outside all brackets, and misses one only if there is
none. In any other text it reports the first symbol that cannot stand where it stands or, without such a
symbol, the innermost bracket that stays open, also behind a comma that would separate.

**Definitions.**
* `Scan.ProperlyNested`: texts of formula symbols with brackets in pairs;
* `Scan.SeparatesAt`: the places of commas outside all brackets;
* `Scan.IsFault` and `Scan.FirstFault`: a symbol that cannot stand behind a text, and the first one;
* `Scan.Reached`: what the search knows about the text that it has seen;
* `Scan.Answers`: what it has to say about a whole text.

**Results.**
* `Scan.Reached.answers`: from what the search knows it comes to the right answer;
* `Scan.separator_decides_nesting`: its answers to all texts.
-/

namespace MissionTime

namespace Scan

section Places

/-- Both kinds of brackets. -/
def allKinds : List Bracket :=
  [.round, .square]

theorem mem_allKinds
    (b : Bracket) :
    b ∈ allKinds := by
  cases b <;> decide

/-- The text consists of formula symbols, and its brackets are nested. -/
structure ProperlyNested (text : List Char) : Prop where
  known : ∀ c ∈ text, isFormulaSymbol c = true
  balanced : Balanced allKinds text

/-- At the position stands a comma, and the text before it is balanced. -/
def SeparatesAt (text : List Char) (position : Nat) : Prop :=
  ∃ before, before ++ [','] <+: text ∧ Balanced allKinds before ∧ byteLength before = position

/-- Behind the given text the symbol cannot stand: it is no formula symbol, or it closes a bracket that is
not the innermost open one. -/
def IsFault (before : List Char) (c : Char) : Prop :=
  isFormulaSymbol c = false ∨
    ∃ b : Bracket, c = b.closing ∧ ¬ ∃ outside, InnermostOpen allKinds before b outside

/-- Every symbol can stand where it stands. -/
def Faultless (text : List Char) : Prop :=
  ∀ before c, before ++ [c] <+: text → ¬ IsFault before c

/-- The first symbol that cannot stand where it stands, behind the text before it. -/
structure FirstFault (text before : List Char) (c : Char) : Prop where
  place : before ++ [c] <+: text
  fault : IsFault before c
  faultless : Faultless before

/-- The first separating comma, or none. -/
def FirstSeparator (text : List Char) : Option Nat → Prop
  | some position => IsLeast {p | SeparatesAt text p} position
  | none => ∀ p, ¬ SeparatesAt text p

variable {u : List Char} {c : Char} {found : Option Nat} {opened : List (Bracket × Nat)}

theorem faultless_concat
    (h : Faultless u) (hc : ¬ IsFault u c) :
    Faultless (u ++ [c]) := by
  intro before d hplace
  rcases place_concat_iff.mp hplace with ⟨rfl, rfl⟩ | hplace
  · exact hc
  · exact h before d hplace

theorem separatesAt_concat
    {position : Nat} :
    SeparatesAt (u ++ [c]) position ↔
      SeparatesAt u position ∨ c = ',' ∧ Balanced allKinds u ∧ byteLength u = position := by
  constructor
  · rintro ⟨before, hplace, hbalanced, hposition⟩
    rcases place_concat_iff.mp hplace with ⟨rfl, rfl⟩ | hplace
    · exact .inr ⟨rfl, hbalanced, hposition⟩
    · exact .inl ⟨before, hplace, hbalanced, hposition⟩
  · rintro (⟨before, hplace, h⟩ | ⟨rfl, h⟩)
    · exact ⟨before, hplace.trans (List.prefix_append u [c]), h⟩
    · exact ⟨u, List.prefix_rfl, h⟩

theorem SeparatesAt.lt_byteLength
    {position : Nat} (h : SeparatesAt u position) :
    position < byteLength u := by
  obtain ⟨before, ⟨after, rfl⟩, -, rfl⟩ := h
  have comma : ','.utf8Size = 1 := rfl
  simp only [byteLength_append, byteLength_cons, byteLength_nil, comma]
  omega

/-- A further comma does not matter if it stands inside a bracket or behind the first one. -/
theorem FirstSeparator.overlook
    (h : FirstSeparator u found) (hc : ¬ (c = ',' ∧ Balanced allKinds u ∧ found = none)) :
    FirstSeparator (u ++ [c]) found := by
  cases found with
  | none =>
      intro p hp
      rcases separatesAt_concat.mp hp with hp | ⟨hcomma, hbalanced, -⟩
      · exact h p hp
      · exact hc ⟨hcomma, hbalanced, rfl⟩
  | some position =>
      refine ⟨separatesAt_concat.mpr (.inl h.1), fun p hp => ?_⟩
      rcases separatesAt_concat.mp hp with hp | ⟨-, -, rfl⟩
      · exact h.2 hp
      · exact h.1.lt_byteLength.le

theorem FirstSeparator.remember
    (h : FirstSeparator u none) (hu : Balanced allKinds u) :
    FirstSeparator (u ++ [',']) (some (byteLength u)) := by
  refine ⟨separatesAt_concat.mpr (.inr ⟨rfl, hu, rfl⟩), fun p hp => ?_⟩
  rcases separatesAt_concat.mp hp with hp | ⟨-, -, rfl⟩
  · exact absurd hp (h p)
  · exact le_refl _

/-- A closing bracket can stand behind a text exactly if the innermost bracket that this leaves open is of
its kind. -/
theorem isFault_closing_iff
    (h : LeavesOpen allKinds u opened) (b : Bracket) :
    IsFault u b.closing ↔ ¬ ∃ position outer, opened = (b, position) :: outer := by
  have known : isFormulaSymbol b.closing = true := by cases b <;> rfl
  rw [← h.exists_innermostOpen_iff]
  constructor
  · rintro (hforeign | ⟨b', hb, hnone⟩)
    · exact absurd (known.symm.trans hforeign) nofun
    · rwa [Bracket.closing_injective hb]
  · exact fun hnone => .inr ⟨b, rfl, hnone⟩

theorem not_isFault
    (known : isFormulaSymbol c = true) (hclose : ∀ b : Bracket, c ≠ b.closing) :
    ¬ IsFault u c := by
  rintro (hforeign | ⟨b, hb, -⟩)
  · exact absurd (known.symm.trans hforeign) nofun
  · exact hclose b hb

end Places

section Nested

variable {text : List Char}

/-- In a nested text every symbol can stand where it stands. -/
theorem ProperlyNested.faultless
    (h : ProperlyNested text) :
    Faultless text := by
  rintro before c hplace (hforeign | ⟨b, rfl, hnone⟩)
  · have mem : c ∈ text := hplace.subset (List.mem_append_right before (List.mem_singleton_self c))
    exact absurd ((h.known c mem).symm.trans hforeign) nofun
  · exact hnone (h.balanced.exists_innermostOpen (mem_allKinds b) hplace)

theorem ProperlyNested.not_firstFault
    (h : ProperlyNested text) {before : List Char} {c : Char} :
    ¬ FirstFault text before c :=
  fun first => h.faultless before c first.place first.fault

theorem Faultless.properlyNested
    (h : Faultless text) (hbalanced : Balanced allKinds text) :
    ProperlyNested text := by
  refine ⟨fun c hc => ?_, hbalanced⟩
  obtain ⟨before, after, rfl⟩ := List.append_of_mem hc
  have hplace : before ++ [c] <+: before ++ c :: after := ⟨after, by simp⟩
  by_contra hforeign
  exact h before c hplace (.inl (Bool.eq_false_of_not_eq_true hforeign))

end Nested

section Search

variable {u text : List Char} {c : Char} {found : Option Nat} {opened : List (Bracket × Nat)}

/-- What the search knows behind the text `u`: the open brackets, that every symbol could stand where it
stands, and the first separating comma. -/
structure Reached (u : List Char) (opened : List (Bracket × Nat)) (found : Option Nat) : Prop where
  leaves : LeavesOpen allKinds u opened
  faultless : Faultless u
  first : FirstSeparator u found

theorem reached_nil :
    Reached [] [] none where
  leaves := .nothing .nil
  faultless := fun _ _ hplace => absurd hplace not_place_nil
  first := fun _ ⟨_, hplace, _⟩ => absurd hplace not_place_nil

theorem Reached.opening
    (h : Reached u opened found) (b : Bracket) :
    Reached (u ++ [b.opening]) ((b, byteLength u) :: opened) found where
  leaves := h.leaves.opening (mem_allKinds b)
  faultless := by
    refine faultless_concat h.faultless (not_isFault ?_ fun b' => (b'.closing_ne_opening b).symm)
    cases b <;> rfl
  first := by
    refine h.first.overlook fun hc => absurd hc.1 ?_
    cases b <;> decide

theorem Reached.closing
    {b : Bracket} {position : Nat} (h : Reached u ((b, position) :: opened) found) :
    Reached (u ++ [b.closing]) opened found where
  leaves := h.leaves.closing
  faultless := by
    refine faultless_concat h.faultless fun hfault => ?_
    exact (isFault_closing_iff h.leaves b).mp hfault ⟨position, opened, rfl⟩
  first := by
    refine h.first.overlook fun hc => absurd hc.1 ?_
    cases b <;> decide

/-- A symbol that is no bracket leaves open what was open. -/
theorem Reached.symbol
    (h : Reached u opened found) (hc : IsOther allKinds c) (known : isFormulaSymbol c = true)
    {found' : Option Nat} (hfirst : FirstSeparator (u ++ [c]) found') :
    Reached (u ++ [c]) opened found' where
  leaves := h.leaves.symbol hc
  faultless := faultless_concat h.faultless (not_isFault known fun b => (hc b (mem_allKinds b)).2)
  first := hfirst

/-- What the search has to say about a text. -/
inductive Answers (text : List Char) : Except ScanError Nat → Prop
  | found {position : Nat} (h : ProperlyNested text)
      (hfirst : IsLeast {p | SeparatesAt text p} position) : Answers text (.ok position)
  | missing (h : ProperlyNested text) (hnone : ∀ p, ¬ SeparatesAt text p) :
      Answers text (.error (.notFound .separator))
  | foreign {before : List Char} {c : Char} (h : FirstFault text before c)
      (hc : isFormulaSymbol c = false) :
      Answers text (.error (.unexpectedSymbol c (byteLength before)))
  | mismatched {before : List Char} {c : Char} (h : FirstFault text before c)
      (hc : isFormulaSymbol c = true) : Answers text (.error (.unbalanced (byteLength before)))
  | unclosed {b : Bracket} {outside : List Char} (h : Faultless text)
      (hopen : InnermostOpen allKinds text b outside) :
      Answers text (.error (.unbalanced (byteLength outside)))

theorem separatorFrom_foreign
    (hc : isFormulaSymbol c = false) (position : Nat) (rest : List Char) :
    separatorFrom opened found position (c :: rest) = .error (.unexpectedSymbol c position) := by
  rw [separatorFrom, hc]
  rfl

theorem separatorFrom_opening
    (b : Bracket) (position : Nat) (rest : List Char) :
    separatorFrom opened found position (b.opening :: rest) =
      separatorFrom ((b, position) :: opened) found (position + b.opening.utf8Size) rest := by
  cases b <;> rfl

theorem separatorFrom_closing
    (b : Bracket) (i position : Nat) (rest : List Char) :
    separatorFrom ((b, i) :: opened) found position (b.closing :: rest) =
      separatorFrom opened found (position + b.closing.utf8Size) rest := by
  cases b <;> rfl

theorem separatorFrom_mismatched
    {b : Bracket} (h : ¬ ∃ i outer, opened = (b, i) :: outer) (position : Nat) (rest : List Char) :
    separatorFrom opened found position (b.closing :: rest) = .error (.unbalanced position) := by
  match opened, h with
  | [], _ => cases b <;> rfl
  | (b', i) :: outer, h =>
      have hne : b' ≠ b := by
        rintro rfl
        exact h ⟨i, outer, rfl⟩
      revert hne
      cases b <;> cases b' <;> intro hne
      all_goals first | exact absurd rfl hne | rfl

theorem separatorFrom_other
    (hc : IsOther allKinds c) (known : isFormulaSymbol c = true)
    (hcomma : ¬ (c = ',' ∧ opened = [] ∧ found = none)) (position : Nat) (rest : List Char) :
    separatorFrom opened found position (c :: rest) =
      separatorFrom opened found (position + c.utf8Size) rest := by
  have round : c ≠ '(' ∧ c ≠ ')' := hc .round (mem_allKinds _)
  have square : c ≠ '[' ∧ c ≠ ']' := hc .square (mem_allKinds _)
  refine separatorFrom_step known ?_ ?_ hcomma position rest
  · rw [opens?, if_neg round.1, if_neg square.1]
  · rw [closes?, if_neg round.2, if_neg square.2]

/-- At the end of the text the search knows whether a bracket has stayed open. -/
theorem Reached.answers_nil
    (h : Reached u opened found) :
    Answers u (separatorFrom opened found (byteLength u) []) := by
  match opened, found with
  | (b, i) :: outer, _ =>
      obtain ⟨outside, inner, rfl⟩ := h.leaves.exists_innermostOpen
      exact .unclosed h.faultless inner
  | [], some position => exact .found (h.faultless.properlyNested h.leaves.balanced) h.first
  | [], none => exact .missing (h.faultless.properlyNested h.leaves.balanced) h.first

/-- From what the search knows it comes to the right answer, whatever follows. -/
theorem Reached.answers
    (h : Reached u opened found) (rest : List Char) :
    Answers (u ++ rest) (separatorFrom opened found (byteLength u) rest) := by
  induction rest generalizing u opened found with
  | nil =>
      rw [List.append_nil]
      exact h.answers_nil
  | cons c rest ih =>
      have next {opened found} (h : Reached (u ++ [c]) opened found) :
          Answers (u ++ c :: rest) (separatorFrom opened found (byteLength u + c.utf8Size) rest) := by
        simpa using ih h
      have hplace : u ++ [c] <+: u ++ c :: rest := ⟨rest, by simp⟩
      by_cases known : isFormulaSymbol c = true
      · rcases symbol_cases allKinds c with ⟨b, -, rfl⟩ | ⟨b, -, rfl⟩ | hother
        · rw [separatorFrom_opening]
          exact next (h.opening b)
        · by_cases hmatch : ∃ i outer, opened = (b, i) :: outer
          · obtain ⟨i, outer, rfl⟩ := hmatch
            rw [separatorFrom_closing]
            exact next h.closing
          · rw [separatorFrom_mismatched hmatch]
            have fault := (isFault_closing_iff h.leaves b).mpr hmatch
            exact .mismatched ⟨hplace, fault, h.faultless⟩ known
        · by_cases hcomma : c = ',' ∧ opened = [] ∧ found = none
          · obtain ⟨rfl, rfl, rfl⟩ := hcomma
            exact next (h.symbol hother known (h.first.remember h.leaves.balanced))
          · rw [separatorFrom_other hother known hcomma]
            refine next (h.symbol hother known (h.first.overlook ?_))
            rwa [h.leaves.balanced_iff]
      · have hforeign := Bool.eq_false_of_not_eq_true known
        rw [separatorFrom_foreign hforeign]
        exact .foreign ⟨hplace, .inl hforeign, h.faultless⟩ hforeign

/-- The search has the right answer to every text. -/
theorem answers_separator
    (text : List Char) :
    Answers text (separator text) :=
  reached_nil.answers text

/-- What the search for a separator answers to every text. It answers with a place or with none exactly
for the texts of formula symbols whose brackets are nested, with the place of the first comma behind a
balanced text if there is such a comma, and with none if there is none. For any other text it reports
the first symbol that is no formula symbol or that closes a bracket which is not the innermost open one,
and if there is no such symbol the innermost bracket that stays open. -/
theorem separator_decides_nesting
    (text : List Char) :
    ((∃ position, separator text = .ok position) ∨ separator text = .error (.notFound .separator) ↔
        ProperlyNested text) ∧
      (ProperlyNested text →
        (∀ position, separator text = .ok position ↔ IsLeast {p | SeparatesAt text p} position) ∧
        (separator text = .error (.notFound .separator) ↔ ∀ p, ¬ SeparatesAt text p)) ∧
      (¬ ProperlyNested text →
        (∃ before c, FirstFault text before c ∧
          separator text = .error (if isFormulaSymbol c then .unbalanced (byteLength before)
            else .unexpectedSymbol c (byteLength before))) ∨
        (Faultless text ∧ ∃ b outside, InnermostOpen allKinds text b outside ∧
          separator text = .error (.unbalanced (byteLength outside)))) := by
  have answers := answers_separator text
  generalize separator text = answer at answers
  cases answers with
  | @found position nested hfirst =>
      refine ⟨⟨fun _ => nested, fun _ => .inl ⟨position, rfl⟩⟩, fun _ => ⟨fun p => ?_, ?_⟩,
        fun h => absurd nested h⟩
      · constructor
        · intro hp
          obtain rfl := Except.ok.inj hp
          exact hfirst
        · intro hp
          rw [hp.unique hfirst]
      · exact ⟨nofun, fun hnone => absurd hfirst.1 (hnone position)⟩
  | missing nested hnone =>
      refine ⟨⟨fun _ => nested, fun _ => .inr rfl⟩, fun _ => ⟨fun p => ?_, ?_⟩,
        fun h => absurd nested h⟩
      · exact ⟨nofun, fun hp => absurd hp.1 (hnone p)⟩
      · exact ⟨fun _ => hnone, fun _ => rfl⟩
  | @foreign before c first hc =>
      refine ⟨⟨nofun, fun h => absurd first h.not_firstFault⟩, fun h => absurd first h.not_firstFault,
        fun _ => .inl ⟨before, c, first, ?_⟩⟩
      rw [hc]
      rfl
  | @mismatched before c first hc =>
      refine ⟨⟨nofun, fun h => absurd first h.not_firstFault⟩, fun h => absurd first h.not_firstFault,
        fun _ => .inl ⟨before, c, first, ?_⟩⟩
      rw [hc]
      rfl
  | @unclosed b outside faultless hopen =>
      refine ⟨⟨nofun, fun h => absurd h.balanced hopen.not_balanced⟩,
        fun h => absurd h.balanced hopen.not_balanced, fun _ => .inr ⟨faultless, b, outside, hopen, rfl⟩⟩

/-- In `F[0,1](p0,T),p1` commas inside brackets of both kinds stand before the separating one. In
`p0,([;p1),T]` a separating comma stands before a foreign symbol and before brackets that cross. -/
theorem separator_decides_nesting_nestedAndForeign :
    ProperlyNested "F[0,1](p0,T),p1".toList ∧
      IsLeast {p | SeparatesAt "F[0,1](p0,T),p1".toList p} 12 ∧
      ¬ ProperlyNested "p0,([;p1),T]".toList ∧
      ∃ before, FirstFault "p0,([;p1),T]".toList before ';' ∧ byteLength before = 5 := by
  have answer : separator "F[0,1](p0,T),p1".toList = .ok 12 := by rfl
  have refusal : separator "p0,([;p1),T]".toList = .error (.unexpectedSymbol ';' 5) := by rfl
  obtain ⟨decides, finds, -⟩ := separator_decides_nesting "F[0,1](p0,T),p1".toList
  have nested := decides.mp (.inl ⟨12, answer⟩)
  refine ⟨nested, ((finds nested).1 12).mp answer, ?_⟩
  obtain ⟨decides, -, fails⟩ := separator_decides_nesting "p0,([;p1),T]".toList
  rw [refusal] at decides fails
  have foreign : ¬ ProperlyNested "p0,([;p1),T]".toList := by
    rw [← decides]
    rintro (⟨p, hp⟩ | hnone)
    · cases hp
    · cases hnone
  refine ⟨foreign, ?_⟩
  rcases fails foreign with ⟨before, c, first, hreport⟩ | ⟨-, b, outside, -, hreport⟩
  · split at hreport
    · cases hreport
    · obtain ⟨rfl, hposition⟩ := ScanError.unexpectedSymbol.inj (Except.error.inj hreport)
      exact ⟨before, first, hposition.symm⟩
  · cases hreport

end Search

end Scan

end MissionTime

import MissionTime.Proofs.Grammar.Landmarks
import MissionTime.Proofs.Grammar.Separators

/-!
# Landmarks reported missing

The search for an interval does not count brackets, and the search for a connective counts parentheses
only. So a landmark can be reported missing in a text that is no part of any formula: brackets that no
search looks at may stand there alone, or cross others. A foreign symbol is always reported, unless the
landmark was found before it, and so is a parenthesis that the search for a connective cannot match.

**Definitions.**
* `Scan.ConnectiveFree`: no connective stands outside all parentheses of a text;
* `Scan.LacksConnective`: what a pair of parentheses without a connective of its own encloses;
* `Scan.Within`: what the search for a connective knows about the text that it has seen;
* `Scan.FindsOrReports`: an answer other than that the landmark is missing.

**Results.**
* `Scan.interval_notFound_iff` and `Scan.connective_notFound_iff`: when the two searches report nothing;
* `Scan.notFound_iff`: both together;
* `Scan.notFound_of_strayBracket`: a text with a stray bracket in which neither finds anything amiss.
-/

namespace MissionTime

namespace Scan

section Intervals

/-- Behind a square bracket the search for an interval finds one or refuses a symbol. -/
theorem intervalFrom_ne_notFound
    {phase : IntervalPhase} (hphase : phase ≠ .outside) (position : Nat) (rest : List Char)
    (l : Landmark) :
    intervalFrom phase position rest ≠ .error (.notFound l) := by
  intro h
  induction rest generalizing phase position with
  | nil =>
      cases phase with
      | outside => exact hphase rfl
      | lower opening => cases h
      | upper opening comma => cases h
  | cons c rest ih =>
      have lower (opening : Nat) :=
        ih (IntervalPhase.noConfusion : IntervalPhase.lower opening ≠ .outside)
      have upper (opening comma : Nat) :=
        ih (IntervalPhase.noConfusion : IntervalPhase.upper opening comma ≠ .outside)
      cases phase with
      | outside => exact hphase rfl
      | lower opening =>
          rw [intervalFrom] at h
          split at h
          · exact upper opening position _ h
          · split at h
            · exact lower opening _ h
            · cases h
      | upper opening comma =>
          rw [intervalFrom] at h
          split at h
          · cases h
          · split at h
            · exact upper opening comma _ h
            · cases h

theorem symbols_of_notFound
    {position : Nat} {text : List Char} {l : Landmark}
    (h : intervalFrom .outside position text = .error (.notFound l)) :
    (∀ c ∈ text, isFormulaSymbol c = true) ∧ '[' ∉ text := by
  induction text generalizing position with
  | nil => exact ⟨List.forall_mem_nil _, List.not_mem_nil⟩
  | cons c rest ih =>
      rw [intervalFrom] at h
      split at h
      · exact absurd h (intervalFrom_ne_notFound IntervalPhase.noConfusion _ _ _)
      · rename_i hc
        split at h
        · rename_i known
          obtain ⟨hknown, hrest⟩ := ih h
          exact ⟨List.forall_mem_cons.mpr ⟨known, hknown⟩,
            List.not_mem_cons_of_ne_of_not_mem (Ne.symm hc) hrest⟩
        · cases h

/-- An interval is reported missing in the texts of formula symbols without an opening square bracket. -/
theorem interval_notFound_iff
    (text : List Char) :
    (∃ l, interval text = .error (.notFound l)) ↔
      (∀ c ∈ text, isFormulaSymbol c = true) ∧ '[' ∉ text := by
  constructor
  · rintro ⟨l, h⟩
    exact symbols_of_notFound h
  · rintro ⟨known, hmem⟩
    have run := intervalFrom_outside known hmem 0 []
    rw [List.append_nil] at run
    exact ⟨.interval, run⟩

end Intervals

section Connectives

variable {u v : List Char} {c : Char}

/-- Connectives stand inside of parentheses only. -/
def ConnectiveFree (text : List Char) : Prop :=
  ∀ before c, before ++ [c] <+: text → Balanced [.round] before → isConnective c = false

/-- Formula symbols with nested parentheses, and connectives inside of these only. Square brackets may
stand anywhere. -/
structure LacksConnective (text : List Char) : Prop where
  known : ∀ c ∈ text, isFormulaSymbol c = true
  balanced : Balanced [.round] text
  free : ConnectiveFree text

theorem connectiveFree_nil :
    ConnectiveFree [] :=
  fun _ _ hplace => absurd hplace not_place_nil

theorem connectiveFree_concat
    (h : ConnectiveFree u) (hc : Balanced [.round] u → isConnective c = false) :
    ConnectiveFree (u ++ [c]) := by
  intro before d hplace hbefore
  rcases place_concat_iff.mp hplace with ⟨rfl, rfl⟩ | hplace
  · exact hc hbefore
  · exact h before d hplace hbefore

theorem ConnectiveFree.left
    (h : ConnectiveFree (u ++ v)) :
    ConnectiveFree u :=
  fun before c hplace => h before c (hplace.trans (List.prefix_append u v))

theorem ConnectiveFree.right
    (h : ConnectiveFree (u ++ v)) (hu : Balanced [.round] u) :
    ConnectiveFree v := by
  intro before c hplace hbefore
  refine h (u ++ before) c ?_ (hu.append hbefore)
  rwa [List.append_assoc, List.prefix_append_right_inj]

/-- The search for a connective runs over nested parentheses and remembers nothing of what is inside. -/
theorem connectiveFrom_balanced
    (h : Balanced [.round] u) (known : ∀ c ∈ u, isFormulaSymbol c = true) {outer : List Nat}
    (houter : outer ≠ [] ∨ ConnectiveFree u) (i : Nat) (found : Option Nat) (position : Nat)
    (rest : List Char) :
    connectiveFrom (i :: outer) found position (u ++ rest) =
      connectiveFrom (i :: outer) found (position + byteLength u) rest := by
  induction h generalizing outer i position rest with
  | nil => rfl
  | @symbol c hc =>
      have other : c ≠ '(' ∧ c ≠ ')' := hc .round (List.mem_singleton_self _)
      have overlooked : outer ≠ [] ∨ isConnective c = false :=
        houter.imp_right fun free => free [] c List.prefix_rfl .nil
      exact connectiveFrom_step (known c (List.mem_singleton_self c)) other.1 other.2 overlooked i found
        position rest
  | @append u v hu _ ihu ihv =>
      obtain ⟨hknown, hknown'⟩ := List.forall_mem_append.mp known
      rw [List.append_assoc, ihu hknown (houter.imp_right fun free => free.left),
        ihv hknown' (houter.imp_right fun free => free.right hu), byteLength_append, Nat.add_assoc]
  | @enclosed b u hb _ ih =>
      obtain rfl := List.mem_singleton.mp hb
      have inside : ∀ c ∈ u, isFormulaSymbol c = true :=
        fun c hc => known c (List.mem_cons_of_mem _ (List.mem_append_left _ hc))
      simp only [Bracket.opening, Bracket.closing, List.cons_append, List.append_assoc, List.nil_append]
      rw [connectiveFrom, if_pos rfl, ih inside (.inl (List.cons_ne_nil i outer)), connectiveFrom,
        if_neg (by decide), if_pos rfl]
      simp [Nat.add_assoc]

/-- What the search for a connective knows behind the outermost parenthesis and the text `u`. The open
parentheses of `u` are those of the search without the outermost one. -/
structure Within (u : List Char) (opened : List (Bracket × Nat)) (positions : List Nat)
    (found : Option Nat) : Prop where
  leaves : LeavesOpen [.round] u opened
  known : ∀ c ∈ u, isFormulaSymbol c = true
  length : positions.length = opened.length + 1
  free : found = none → ConnectiveFree u

variable {opened : List (Bracket × Nat)} {positions : List Nat} {found : Option Nat}

theorem known_concat
    (h : ∀ d ∈ u, isFormulaSymbol d = true) (hc : isFormulaSymbol c = true) :
    ∀ d ∈ u ++ [c], isFormulaSymbol d = true :=
  List.forall_mem_append.mpr ⟨h, List.forall_mem_singleton.mpr hc⟩

theorem within_nil
    (i : Nat) :
    Within [] [] [i] none where
  leaves := .nothing .nil
  known := nofun
  length := rfl
  free := fun _ => connectiveFree_nil

theorem Within.opening
    (h : Within u opened positions found) (position : Nat) :
    Within (u ++ ['(']) ((.round, byteLength u) :: opened) (position :: positions) found where
  leaves := h.leaves.opening (List.mem_singleton_self Bracket.round)
  known := known_concat h.known rfl
  length := by simp [h.length]
  free := fun hnone => connectiveFree_concat (h.free hnone) fun _ => rfl

theorem Within.closing
    {b : Bracket} {i j : Nat} (h : Within u ((b, j) :: opened) (i :: positions) found) :
    Within (u ++ [')']) opened positions found where
  leaves := by
    obtain ⟨outside, ⟨hb, -⟩, -⟩ := h.leaves.exists_innermostOpen
    obtain rfl := List.mem_singleton.mp hb
    exact h.leaves.closing
  known := known_concat h.known rfl
  length := Nat.succ.inj h.length
  free := fun hnone => connectiveFree_concat (h.free hnone) fun _ => rfl

theorem Within.other
    {i : Nat} {outer : List Nat} (h : Within u opened (i :: outer) found) (hc : IsOther [.round] c)
    (known : isFormulaSymbol c = true) (position : Nat) :
    Within (u ++ [c]) opened (i :: outer) (foundBehind outer found c position) where
  leaves := h.leaves.symbol hc
  known := known_concat h.known known
  length := h.length
  free := by
    intro hnone
    rw [foundBehind] at hnone
    split at hnone
    · cases hnone
    · rename_i hkept
      refine connectiveFree_concat (h.free hnone) fun hu => ?_
      obtain rfl := h.leaves.balanced_iff.mp hu
      obtain rfl := List.eq_nil_of_length_eq_zero (Nat.succ.inj h.length)
      simpa [hnone] using hkept

/-- Nothing may follow the outermost pair of parentheses. -/
theorem Within.end_of_notFound
    {i : Nat} {outer : List Nat} (h : Within u [] (i :: outer) found) {position : Nat}
    {rest : List Char} {l : Landmark}
    (hrun : connectiveFrom outer found position rest = .error (.notFound l)) :
    rest = [] ∧ LacksConnective u := by
  obtain rfl := List.eq_nil_of_length_eq_zero (Nat.succ.inj h.length)
  cases rest with
  | cons c rest => cases hrun
  | nil =>
      cases found with
      | some position => cases hrun
      | none => exact ⟨rfl, h.known, h.leaves.balanced, h.free rfl⟩

theorem connectiveFrom_foreign
    (hc : isFormulaSymbol c = false) (i : Nat) (outer : List Nat) (found : Option Nat) (position : Nat)
    (rest : List Char) :
    connectiveFrom (i :: outer) found position (c :: rest) = .error (.unexpectedSymbol c position) := by
  have other : c ≠ '(' ∧ c ≠ ')' := by
    constructor <;> rintro rfl <;> cases hc
  rw [connectiveFrom, if_neg other.1, if_neg other.2, hc]
  rfl

/-- A connective is reported missing at the end of the text only, behind the parenthesis that closes the
outermost one. -/
theorem Within.exists_lacksConnective
    (h : Within u opened positions found) {position : Nat} {rest : List Char} {l : Landmark}
    (hrun : connectiveFrom positions found position rest = .error (.notFound l)) :
    ∃ inner, u ++ rest = inner ++ [')'] ∧ LacksConnective inner := by
  induction rest generalizing u opened positions found position with
  | nil =>
      obtain ⟨i, outer, rfl⟩ := List.exists_cons_of_length_eq_add_one h.length
      cases hrun
  | cons c rest ih =>
      obtain ⟨i, outer, rfl⟩ := List.exists_cons_of_length_eq_add_one h.length
      have next {opened positions found position} (h : Within (u ++ [c]) opened positions found)
          (hrun : connectiveFrom positions found position rest = .error (.notFound l)) :
          ∃ inner, u ++ c :: rest = inner ++ [')'] ∧ LacksConnective inner := by
        simpa using ih h hrun
      by_cases known : isFormulaSymbol c = true
      · rcases symbol_cases [.round] c with ⟨b, hb, rfl⟩ | ⟨b, hb, rfl⟩ | hother
        · obtain rfl := List.mem_singleton.mp hb
          exact next (h.opening position) hrun
        · obtain rfl := List.mem_singleton.mp hb
          cases opened with
          | cons top opened => exact next h.closing hrun
          | nil =>
              obtain ⟨rfl, lacks⟩ := h.end_of_notFound hrun
              exact ⟨u, rfl, lacks⟩
        · have other : c ≠ '(' ∧ c ≠ ')' := hother .round (List.mem_singleton_self _)
          rw [connectiveFrom_other known other.1 other.2] at hrun
          exact next (h.other hother known position) hrun
      · rw [connectiveFrom_foreign (Bool.eq_false_of_not_eq_true known)] at hrun
        cases hrun

/-- A connective is reported missing in the empty text, and in parentheses around a text that has none
outside of further parentheses. -/
theorem connective_notFound_iff
    (text : List Char) :
    (∃ l, connective text = .error (.notFound l)) ↔
      text = [] ∨ ∃ inner, text = '(' :: (inner ++ [')']) ∧ LacksConnective inner := by
  constructor
  · rintro ⟨l, h⟩
    cases text with
    | nil => exact .inl rfl
    | cons c rest =>
        rw [connective] at h
        split at h
        · rename_i hc
          obtain ⟨inner, hinner, lacks⟩ := (within_nil 0).exists_lacksConnective h
          exact .inr ⟨inner, by rw [hc, ← hinner, List.nil_append], lacks⟩
        · cases h
  · rintro (rfl | ⟨inner, rfl, lacks⟩)
    · exact ⟨.connective, rfl⟩
    · refine ⟨.connective, ?_⟩
      rw [connective, if_pos rfl, connectiveFrom_balanced lacks.balanced lacks.known (.inr lacks.free)]
      rfl

end Connectives

section Reports

variable {α : Type} {answer : Except ScanError α} {text : List Char}

/-- The search finds what it looks for, or it reports a bracket or a symbol. -/
def FindsOrReports (answer : Except ScanError α) : Prop :=
  (∃ found, answer = .ok found) ∨ (∃ position, answer = .error (.unbalanced position)) ∨
    ∃ c position, answer = .error (.unexpectedSymbol c position)

theorem findsOrReports_of_not_notFound
    (h : ¬ ∃ l, answer = .error (.notFound l)) :
    FindsOrReports answer := by
  match answer, h with
  | .ok found, _ => exact .inl ⟨found, rfl⟩
  | .error (.unbalanced position), _ => exact .inr (.inl ⟨position, rfl⟩)
  | .error (.unexpectedSymbol c position), _ => exact .inr (.inr ⟨c, position, rfl⟩)
  | .error (.notFound l), h => exact absurd ⟨l, rfl⟩ h

/-- A text in which a connective is reported missing has formula symbols only, and its parentheses are
nested. -/
theorem nested_of_connective_notFound
    (h : ∃ l, connective text = .error (.notFound l)) :
    (∀ c ∈ text, isFormulaSymbol c = true) ∧ Balanced [.round] text := by
  rcases (connective_notFound_iff text).mp h with rfl | ⟨inner, rfl, lacks⟩
  · exact ⟨nofun, .nil⟩
  · exact ⟨List.forall_mem_cons.mpr ⟨rfl, known_concat lacks.known rfl⟩,
      .enclosed (List.mem_singleton_self Bracket.round) lacks.balanced⟩

/-- When the two searches report that nothing was found. An interval is missing as soon as a text of
formula symbols has no opening square bracket, and a connective is missing between nested parentheses,
however square brackets stand there. So brackets need not be nested then; but a foreign symbol is always
reported unless the landmark is found, and so are parentheses that are not nested by the search for a
connective. -/
theorem notFound_iff
    (text : List Char) :
    ((∃ l, interval text = .error (.notFound l)) ↔
        (∀ c ∈ text, isFormulaSymbol c = true) ∧ '[' ∉ text) ∧
      ((∃ l, connective text = .error (.notFound l)) ↔
        text = [] ∨ ∃ inner, text = '(' :: (inner ++ [')']) ∧ LacksConnective inner) ∧
      ((∃ c ∈ text, isFormulaSymbol c = false) →
        FindsOrReports (interval text) ∧ FindsOrReports (connective text)) ∧
      (¬ Balanced [.round] text → FindsOrReports (connective text)) := by
  refine ⟨interval_notFound_iff text, connective_notFound_iff text, ?_, fun hround => ?_⟩
  · rintro ⟨c, hc, hforeign⟩
    have foreign : ¬ ∀ c ∈ text, isFormulaSymbol c = true :=
      fun known => absurd ((known c hc).symm.trans hforeign) nofun
    refine ⟨findsOrReports_of_not_notFound fun h => ?_, findsOrReports_of_not_notFound fun h => ?_⟩
    · exact foreign ((interval_notFound_iff text).mp h).1
    · exact foreign (nested_of_connective_notFound h).1
  · exact findsOrReports_of_not_notFound fun h => hround (nested_of_connective_notFound h).2

/-- In `(p0])` the square bracket closes nothing, and neither search finds anything amiss. -/
theorem notFound_of_strayBracket :
    interval "(p0])".toList = .error (.notFound .interval) ∧
      connective "(p0])".toList = .error (.notFound .connective) ∧
      ¬ ProperlyNested "(p0])".toList := by
  refine ⟨rfl, rfl, fun nested => ?_⟩
  have surplus : surplus allKinds "(p0])".toList = -1 := by decide
  rw [nested.balanced.surplus_eq] at surplus
  cases surplus

end Reports

end Scan

end MissionTime

import MissionTime.Capped
import Mathlib.Data.List.Infix
import Mathlib.Tactic

/-!
# Numbers in texts

The runs of digits of a text, and how a text is made that has only short ones behind a given place.

**Definitions.**
* `digitRuns`, the maximal runs of digits of a text, and `SmallNumbers`: no run is too large a number;
* `abridge`, which keeps a beginning of a text, and of every run of digits behind it the first digit.

**Results.**
* `smallNumbers_iff`: in a text whose maximal runs are small no digits stand for too large a number;
* `SmallNumbers.append`: numbers that do not touch stay small in a longer text;
* `SmallNumbers.abridge_append`: behind small numbers an abridged text has small numbers.
-/

namespace MissionTime

section Runs

/-- The maximal runs of digits of a text, with an empty one between any two other characters. -/
def digitRuns (text : List Char) : List (List Char) :=
  text.splitOnP fun c => !c.isDigit

/-- Every maximal run of digits of the text is a number that is not too large. -/
def SmallNumbers (text : List Char) : Prop :=
  ∀ run ∈ digitRuns text, Nat.ofDigitChars 10 run 0 ≤ largest

instance (text : List Char) : Decidable (SmallNumbers text) :=
  inferInstanceAs (Decidable (∀ run ∈ digitRuns text, Nat.ofDigitChars 10 run 0 ≤ largest))

variable {text u v : List Char} {c : Char}

theorem digitRuns_cons_of_not_digit
    (hc : c.isDigit = false) :
    digitRuns (c :: text) = [] :: digitRuns text := by
  rw [digitRuns, List.splitOnP_cons_eq_if_modifyHead, if_pos (by simp [hc])]
  rfl

theorem digitRuns_cons_of_digit
    (hc : c.isDigit = true) :
    digitRuns (c :: text) = (digitRuns text).modifyHead (List.cons c) := by
  rw [digitRuns, List.splitOnP_cons_eq_if_modifyHead, if_neg (by simp [hc])]
  rfl

theorem digital_takeWhile
    (text : List Char) :
    ∀ c ∈ text.takeWhile Char.isDigit, c.isDigit = true :=
  List.all_eq_true.mp List.all_takeWhile

/-- The first run is the one at the beginning of the text. -/
theorem exists_digitRuns
    (text : List Char) :
    ∃ runs, digitRuns text = text.takeWhile Char.isDigit :: runs := by
  induction text with
  | nil => exact ⟨[], rfl⟩
  | cons c text ih =>
      cases hc : c.isDigit with
      | true =>
          obtain ⟨runs, hruns⟩ := ih
          refine ⟨runs, ?_⟩
          rw [digitRuns_cons_of_digit hc, hruns, List.takeWhile_cons_of_pos hc]
          rfl
      | false =>
          refine ⟨digitRuns text, ?_⟩
          rw [digitRuns_cons_of_not_digit hc, List.takeWhile_cons_of_neg (by simp [hc])]

/-- A run is a part of the text and consists of digits. -/
theorem isInfix_of_mem_digitRuns
    {run : List Char} (h : run ∈ digitRuns text) :
    run <:+: text ∧ ∀ c ∈ run, c.isDigit = true := by
  induction text with
  | nil =>
      obtain rfl := List.mem_singleton.mp h
      exact ⟨List.infix_rfl, by simp⟩
  | cons c text ih =>
      cases hc : c.isDigit with
      | true =>
          obtain ⟨runs, hruns⟩ := exists_digitRuns text
          rw [digitRuns_cons_of_digit hc, hruns, List.modifyHead_cons] at h
          rcases List.mem_cons.mp h with rfl | h
          · rw [← List.takeWhile_cons_of_pos hc]
            exact ⟨(List.takeWhile_prefix _).isInfix, digital_takeWhile _⟩
          · obtain ⟨inside, digital⟩ := ih (by rw [hruns]; exact List.mem_cons_of_mem _ h)
            exact ⟨List.infix_cons inside, digital⟩
      | false =>
          rw [digitRuns_cons_of_not_digit hc] at h
          rcases List.mem_cons.mp h with rfl | h
          · exact ⟨List.nil_infix, by simp⟩
          · exact ⟨List.infix_cons (ih h).1, (ih h).2⟩

/-- Digits that stand together in the text belong to one of its runs. -/
theorem exists_run_of_isInfix
    {digits : List Char} (digital : ∀ c ∈ digits, c.isDigit = true) (h : digits <:+: text) :
    ∃ run ∈ digitRuns text, digits <:+: run := by
  induction text with
  | nil => exact ⟨[], List.mem_singleton_self [], h⟩
  | cons c text ih =>
      rcases List.infix_cons_iff.mp h with ⟨w, hw⟩ | h
      · obtain ⟨runs, hruns⟩ := exists_digitRuns (c :: text)
        refine ⟨(c :: text).takeWhile Char.isDigit, by rw [hruns]; exact List.mem_cons_self, ?_⟩
        rw [← hw, List.takeWhile_append_of_pos digital]
        exact (List.prefix_append _ _).isInfix
      · obtain ⟨run, hrun, hdigits⟩ := ih h
        cases hc : c.isDigit with
        | true =>
            obtain ⟨runs, hruns⟩ := exists_digitRuns text
            rw [hruns] at hrun
            rw [digitRuns_cons_of_digit hc, hruns, List.modifyHead_cons]
            rcases List.mem_cons.mp hrun with rfl | hrun
            · exact ⟨c :: text.takeWhile Char.isDigit, List.mem_cons_self, List.infix_cons hdigits⟩
            · exact ⟨run, List.mem_cons_of_mem _ hrun, hdigits⟩
        | false =>
            rw [digitRuns_cons_of_not_digit hc]
            exact ⟨run, List.mem_cons_of_mem _ hrun, hdigits⟩

/-- More digits on either side do not make a number smaller. -/
theorem ofDigitChars_le_of_isInfix
    {digits run : List Char} (h : digits <:+: run) :
    Nat.ofDigitChars 10 digits 0 ≤ Nat.ofDigitChars 10 run 0 := by
  obtain ⟨before, after, rfl⟩ := h
  have grows : ∀ (digits : List Char) (init : Nat), init ≤ Nat.ofDigitChars 10 digits init := by
    intro digits init
    rw [Nat.ofDigitChars_eq_ofDigitChars_zero]
    exact Nat.le_add_right_of_le (Nat.le_mul_of_pos_left init (by positivity))
  calc Nat.ofDigitChars 10 digits 0
      ≤ Nat.ofDigitChars 10 digits (Nat.ofDigitChars 10 before 0) := by
        rw [@Nat.ofDigitChars_eq_ofDigitChars_zero digits (Nat.ofDigitChars 10 before 0)]
        exact Nat.le_add_left _ _
    _ ≤ Nat.ofDigitChars 10 after
          (Nat.ofDigitChars 10 digits (Nat.ofDigitChars 10 before 0)) := grows after _
    _ = Nat.ofDigitChars 10 (before ++ digits ++ after) 0 := by
        rw [Nat.ofDigitChars_append, Nat.ofDigitChars_append]

/-- No digits that stand together in the text are too large a number. -/
theorem smallNumbers_iff :
    SmallNumbers text ↔ ∀ digits, digits <:+: text → (∀ c ∈ digits, c.isDigit = true) →
      Nat.ofDigitChars 10 digits 0 ≤ largest := by
  constructor
  · intro h digits hdigits digital
    obtain ⟨run, hrun, inside⟩ := exists_run_of_isInfix digital hdigits
    exact Nat.le_trans (ofDigitChars_le_of_isInfix inside) (h run hrun)
  · intro h run hrun
    exact h run (isInfix_of_mem_digitRuns hrun).1 (isInfix_of_mem_digitRuns hrun).2

theorem SmallNumbers.of_isInfix
    (h : SmallNumbers text) (hu : u <:+: text) :
    SmallNumbers u :=
  smallNumbers_iff.mpr fun digits hdigits =>
    smallNumbers_iff.mp h digits (hdigits.trans hu)

theorem smallNumbers_nil :
    SmallNumbers [] := by
  decide

theorem smallNumbers_singleton
    (c : Char) :
    SmallNumbers [c] := by
  refine smallNumbers_iff.mpr fun digits hdigits digital => ?_
  have short := hdigits.length_le
  match digits with
  | [] => exact Nat.zero_le _
  | [d] =>
      have hd := digital d (List.mem_singleton_self d)
      simp only [Char.isDigit, Bool.and_eq_true, decide_eq_true_eq] at hd
      have upper : d.toNat ≤ '9'.toNat := hd.2
      calc Nat.ofDigitChars 10 [d] 0 = d.toNat - '0'.toNat := by simp [Nat.ofDigitChars_cons]
        _ ≤ '9'.toNat - '0'.toNat := Nat.sub_le_sub_right upper _
        _ ≤ largest := by decide
  | _ :: _ :: _ => simp at short

/-- Numbers that do not touch stay small. -/
theorem SmallNumbers.append
    (hu : SmallNumbers u) (hv : SmallNumbers v)
    (apart : ∀ c ∈ u.getLast?, c.isDigit = true → ∀ d ∈ v.head?, d.isDigit = false) :
    SmallNumbers (u ++ v) := by
  refine smallNumbers_iff.mpr fun digits hdigits digital => ?_
  rcases List.infix_append_iff.mp hdigits with h | h | ⟨left, right, rfl, hleft, hright⟩
  · exact smallNumbers_iff.mp hu digits h digital
  · exact smallNumbers_iff.mp hv digits h digital
  · rcases List.eq_nil_or_concat left with rfl | ⟨left, c, rfl⟩
    · exact smallNumbers_iff.mp hv _ hright.isInfix digital
    cases right with
    | nil =>
        rw [List.append_nil] at digital ⊢
        exact smallNumbers_iff.mp hu _ hleft.isInfix digital
    | cons d right =>
        -- Two digits would touch.
        obtain ⟨before, rfl⟩ := hleft
        obtain ⟨after, rfl⟩ := hright
        have contact := apart c (by simp) (digital c (by simp)) d (by simp)
        rw [digital d (by simp)] at contact
        cases contact

end Runs

section Abridging

/-- Keeps the first characters of a text, and behind them of every run of digits only its first digit.
The flag tells whether the text continues a run. -/
def abridge (kept : Nat) (inRun : Bool) : List Char → List Char
  | [] => []
  | c :: rest =>
    if kept = 0 ∧ inRun = true ∧ c.isDigit = true then abridge 0 true rest
    else c :: abridge (kept - 1) c.isDigit rest

variable {u v : List Char} {c : Char} {kept : Nat} {inRun : Bool}

theorem abridge_of_not_digit
    (hc : c.isDigit = false) (rest : List Char) :
    abridge kept inRun (c :: rest) = c :: abridge (kept - 1) false rest := by
  simp [abridge, hc]

/-- A text is abridged piece by piece if a character that is no digit stands between the pieces. -/
theorem abridge_append
    (hc : c.isDigit = false) (u v : List Char) (kept : Nat) (inRun : Bool) :
    ∃ kept', abridge kept inRun (u ++ c :: v) =
      abridge kept inRun u ++ c :: abridge kept' false v := by
  induction u generalizing kept inRun with
  | nil => exact ⟨kept - 1, abridge_of_not_digit hc v⟩
  | cons d u ih =>
      rw [List.cons_append, abridge, abridge]
      split_ifs
      · exact ih 0 true
      · obtain ⟨kept', h⟩ := ih (kept - 1) d.isDigit
        exact ⟨kept', congrArg (List.cons d) h⟩

theorem abridge_sublist
    (text : List Char) (kept : Nat) (inRun : Bool) :
    (abridge kept inRun text).Sublist text := by
  induction text generalizing kept inRun with
  | nil => exact .slnil
  | cons c text ih =>
      rw [abridge]
      split_ifs
      · exact (ih 0 true).cons c
      · exact (ih _ _).cons_cons c

theorem abridge_eq_nil_iff
    (text : List Char) (kept : Nat) :
    abridge kept false text = [] ↔ text = [] := by
  cases text <;> simp [abridge]

/-- The beginning stays as it is. The text behind it continues a run if it ends in a digit. -/
theorem abridge_kept
    (u v : List Char) (inRun : Bool) :
    abridge u.length inRun (u ++ v) =
      u ++ abridge 0 ((u.getLast?.map Char.isDigit).getD inRun) v := by
  induction u generalizing inRun with
  | nil => rfl
  | cons c u ih =>
      have ends : ((c :: u).getLast?.map Char.isDigit).getD inRun =
          (u.getLast?.map Char.isDigit).getD c.isDigit := by
        rw [List.getLast?_cons]
        cases u.getLast? <;> rfl
      simp [abridge, ih, ends]

/-- A run that has begun is not continued. -/
theorem not_digit_of_head?_abridge
    (text : List Char) :
    ∀ c ∈ (abridge 0 true text).head?, c.isDigit = false := by
  induction text with
  | nil => simp [abridge]
  | cons c text ih =>
      cases hc : c.isDigit with
      | true => simpa [abridge, hc] using ih
      | false => simp [abridge, hc]

theorem smallNumbers_abridge
    (text : List Char) (inRun : Bool) :
    SmallNumbers (abridge 0 inRun text) := by
  induction text generalizing inRun with
  | nil => exact smallNumbers_nil
  | cons c text ih =>
      rw [abridge]
      split_ifs
      · exact ih true
      · refine SmallNumbers.append (u := [c]) (smallNumbers_singleton c) (ih _) ?_
        intro d hd hdigit
        obtain rfl : c = d := by simpa using hd
        rw [hdigit]
        exact not_digit_of_head?_abridge text

/-- Behind small numbers an abridged text has small numbers. -/
theorem SmallNumbers.abridge_append
    (hu : SmallNumbers u) (v : List Char) :
    ∃ v', abridge u.length false (u ++ v) = u ++ v' ∧ SmallNumbers (u ++ v') := by
  refine ⟨_, abridge_kept u v false, hu.append (smallNumbers_abridge v _) ?_⟩
  intro c hc hdigit
  rw [Option.mem_def.mp hc, Option.map_some, Option.getD_some, hdigit]
  exact not_digit_of_head?_abridge v

end Abridging

end MissionTime

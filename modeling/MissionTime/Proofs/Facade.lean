import MissionTime.Proofs.Grammar.Entries
import MissionTime.Proofs.Validation
import MissionTime.Written

/-!
# The capabilities on texts

What the library answers about a text is what it answers about the formula that the text is read as:
the detour over the written normal form, which is read and validated again, changes nothing.

**Results.**
* `Written.normalForm_eq`, `Written.isNormal_eq_true_iff` and `Written.denotation_eq`: the answers
  about a text that is read as a formula;
* `Written.isNormal_iff`: which texts are in normal form;
* `Written.agrees_with_formula`: texts and formulas.
-/

namespace MissionTime

namespace Written

section Answers

variable {text : String} {f : Formula}

theorem isOk_eq_true_iff
    {α : Type} {run : Except Error α} :
    run.isOk = true ↔ ∃ a, run = .ok a := by
  cases run <;> simp [Except.isOk, Except.toBool]

theorem isFormula_eq_true_iff :
    isFormula text = true ↔ ∃ f, Formula.ofText text = .ok f :=
  Production.formula_recognizes_iff

/-- A text that is no formula is rejected at one place. -/
theorem rejects
    (h : isFormula text = false) :
    ∃ position expected,
      Formula.ofText text = .error (.malformedFormula text position expected) := by
  cases hparse : Rule.formula.parse text.toList with
  | error rejection => exact ⟨_, _, by rw [Formula.ofText, hparse]; rfl⟩
  | ok f =>
      have read : Formula.ofText text = .ok f := by rw [Formula.ofText, hparse]; rfl
      rw [isFormula_eq_true_iff.mpr ⟨f, read⟩] at h
      cases h

variable (h : Formula.ofText text = .ok f)
include h

theorem normalForm_eq :
    normalForm text = .ok (NormalFormula.ofFormula f).text := by
  unfold normalForm
  rw [h]
  rfl

theorem isNormal_eq_true_iff :
    isNormal text = true ↔ ∃ x, NormalFormula.validate f = .ok x := by
  have read : Rule.formula.parse text.toList = .ok f := Formula.ofText_eq_ok_iff_parse.mp h
  rw [isNormal, Production.recognizes_normal read, isOk_eq_true_iff]

/-- The denotation of a text is that of its formula, once it is validated. -/
theorem denotation_eq
    (a : Arithmetic) (vars : Nat) :
    denotation a text vars =
      NormalFormula.validate f >>= fun x => (Engine.denote a ⟨vars, {}⟩ x).map Cover.texts := by
  unfold denotation
  rw [h]
  rfl

/-- The written normal form is read as the normal form with its negated literals as negations. -/
theorem ofText_normalForm :
    Formula.ofText (NormalFormula.ofFormula f).text =
      .ok (NormalFormula.ofFormula f).toFormula.explicit :=
  Formula.ofText_eq_explicit
    (Formula.Everywhere.ofFormula .noEmptyList (Formula.noEmptyList_of_ofText h))
    (Formula.Everywhere.ofFormula .sized (Formula.sized_of_ofText h))

/-- A text is in normal form exactly if its formula is written as its own normal form. -/
theorem isNormal_iff :
    isNormal text = true ↔ (NormalFormula.ofFormula f).text = f.text := by
  have positive := Formula.positive_of_ofText h
  rw [isNormal_eq_true_iff h]
  constructor
  · rintro ⟨x, hx⟩
    obtain rfl := NormalFormula.explicit_of_validate positive hx
    rw [NormalFormula.ofFormula_explicit, NormalFormula.text, Formula.text_explicit]
  · intro htext
    -- Both texts are one, and it is read both as `f` and as the written normal form.
    have read := ofText_normalForm h
    rw [htext, Formula.ofText_eq_explicit (Formula.noEmptyList_of_ofText h)
      (Formula.sized_of_ofText h), Formula.explicit_of_positive positive] at read
    exact ⟨_, (NormalFormula.validate_eq_ok_iff positive).mpr (Except.ok.inj read).symm⟩

end Answers

/-- The capabilities on texts agree with those on formulas. On a text that is no formula, the three
answers are one error. Any other text is read as some `f` and has a written normal form `u`, which is
a normal form, its own normal form, and has the denotation of the normal form of `f`. The text is a
normal form itself exactly if `u` is how `f` is written; otherwise its denotation is refused. -/
theorem agrees_with_formula
    (a : Arithmetic) (text : String) (vars : Nat) :
    (isFormula text = false → ∃ position expected,
        normalForm text = .error (.malformedFormula text position expected) ∧
          horizon text = .error (.malformedFormula text position expected) ∧
          denotation a text vars = .error (.malformedFormula text position expected)) ∧
      (isFormula text = true → ∃ f u, Formula.ofText text = .ok f ∧
        normalForm text = .ok u ∧
        isNormal u = true ∧
        normalForm u = .ok u ∧
        denotation a u vars =
          (Engine.denote a ⟨vars, {}⟩ (NormalFormula.ofFormula f)).map Cover.texts ∧
        (isNormal text = true ↔ u = f.text) ∧
        (isNormal text = false → ∃ g, denotation a text vars = .error (.notNormal g))) := by
  constructor
  · intro h
    obtain ⟨position, expected, herror⟩ := rejects h
    refine ⟨position, expected, ?_, ?_, ?_⟩
    · unfold normalForm
      rw [herror]
      rfl
    · unfold horizon
      rw [herror]
      rfl
    · unfold denotation
      rw [herror]
      rfl
  · intro h
    obtain ⟨f, hf⟩ := isFormula_eq_true_iff.mp h
    have read := ofText_normalForm hf
    refine ⟨f, (NormalFormula.ofFormula f).text, hf, normalForm_eq hf, ?_, ?_, ?_,
      isNormal_iff hf, ?_⟩
    · exact (isNormal_eq_true_iff read).mpr ⟨_, NormalFormula.validate_explicit _⟩
    · rw [normalForm_eq read, NormalFormula.ofFormula_explicit]
    · rw [denotation_eq read, NormalFormula.validate_explicit]
      rfl
    · intro hnormal
      cases hx : NormalFormula.validate f with
      | ok x =>
          rw [(isNormal_eq_true_iff hf).mpr ⟨x, hx⟩] at hnormal
          cases hnormal
      | error e =>
          obtain ⟨g, rfl⟩ := NormalFormula.exists_notNormal_of_validate hx
          exact ⟨g, by rw [denotation_eq hf, hx]; rfl⟩

/-- A text that lacks its last parenthesis, and a negated release. -/
theorem agrees_with_formula_negatedRelease :
    (∃ position expected,
        horizon "(p0&p1" = .error (.malformedFormula "(p0&p1" position expected) ∧
          denotation .wrapping "(p0&p1" 2 = .error (.malformedFormula "(p0&p1" position expected)) ∧
      ∃ u g, normalForm "~(p0R[0,1]~p1)" = .ok u ∧ normalForm u = .ok u ∧
        denotation .wrapping "~(p0R[0,1]~p1)" 2 = .error (.notNormal g) := by
  obtain ⟨position, expected, -, hhorizon, hdenotation⟩ :=
    (agrees_with_formula .wrapping "(p0&p1" 2).1 (by cbv)
  obtain ⟨f, u, -, hu, -, hfixed, -, -, hrefused⟩ :=
    (agrees_with_formula .wrapping "~(p0R[0,1]~p1)" 2).2 (by cbv)
  obtain ⟨g, hg⟩ := hrefused (by cbv)
  exact ⟨⟨position, expected, hhorizon, hdenotation⟩, u, g, hu, hfixed, hg⟩

end Written

end MissionTime

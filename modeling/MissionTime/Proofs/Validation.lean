import MissionTime.Proofs.Grammar.Printing
import MissionTime.Proofs.Returns

/-!
# Validation

Validation accepts the formulas whose negations stand right before variables. Those are the formulas
that normal formulas are written as, and the answer is their canonical normal form. Every other formula
fails for a negation elsewhere: the first one on the way through the formula from the outermost part
inward and from left to right.

**Definitions.**
* `Formula.subformulas`: the parts of a formula in this order;
* `Formula.isMisplaced` and `Formula.misplaced?`: a negation that does not stand right before a variable,
  and the first such part of a formula.

**Results.**
* `NormalFormula.validate_eq`: what validation answers to every formula;
* `NormalFormula.validate_eq_ok_iff`: what validation accepts;
* `NormalFormula.validate_agrees_with_ofFormula`: validation and canonical normal forms.
-/

namespace MissionTime

namespace Formula

mutual

/-- The formula and all its parts, each before its own parts, and these from left to right. -/
def subformulas : Formula → List Formula
  | .literal l => [.literal l]
  | .neg sub => .neg sub :: subformulas sub
  | .unary op int sub => .unary op int sub :: subformulas sub
  | .temporal lhs op int rhs => .temporal lhs op int rhs :: (subformulas lhs ++ subformulas rhs)
  | .binary lhs op rhs => .binary lhs op rhs :: (subformulas lhs ++ subformulas rhs)
  | .list op subs => .list op subs :: subformulasOfList subs

/-- The members of a list with all their parts, one member after the other. -/
def subformulasOfList : List Formula → List Formula
  | [] => []
  | sub :: subs => subformulas sub ++ subformulasOfList subs

end

/-- A negation of something else than a variable. -/
def isMisplaced : Formula → Bool
  | .neg (.literal (.var _)) => false
  | .neg _ => true
  | _ => false

/-- The first misplaced negation. -/
def misplaced? (f : Formula) : Option Formula :=
  f.subformulas.find? isMisplaced

/-- The first misplaced negation in the members of a list. -/
def misplacedInList? (subs : List Formula) : Option Formula :=
  (subformulasOfList subs).find? isMisplaced

theorem misplaced?_neg
    (sub : Formula) :
    (Formula.neg sub).misplaced? =
      if (Formula.neg sub).isMisplaced then some (.neg sub) else sub.misplaced? := by
  rw [misplaced?, subformulas, List.find?_cons]
  cases (Formula.neg sub).isMisplaced <;> rfl

theorem misplaced?_unary
    (op : UnaryOp) (int : Interval) (sub : Formula) :
    (Formula.unary op int sub).misplaced? = sub.misplaced? := by
  rw [misplaced?, subformulas]
  rfl

theorem misplaced?_temporal
    (lhs : Formula) (op : TemporalOp) (int : Interval) (rhs : Formula) :
    (Formula.temporal lhs op int rhs).misplaced? = lhs.misplaced?.or rhs.misplaced? := by
  rw [misplaced?, subformulas, List.find?_cons_of_neg Bool.false_ne_true, List.find?_append]
  rfl

theorem misplaced?_binary
    (lhs : Formula) (op : BinaryOp) (rhs : Formula) :
    (Formula.binary lhs op rhs).misplaced? = lhs.misplaced?.or rhs.misplaced? := by
  rw [misplaced?, subformulas, List.find?_cons_of_neg Bool.false_ne_true, List.find?_append]
  rfl

theorem misplaced?_list
    (op : ListOp) (subs : List Formula) :
    (Formula.list op subs).misplaced? = misplacedInList? subs := by
  rw [misplaced?, subformulas]
  rfl

theorem misplacedInList?_cons
    (sub : Formula) (subs : List Formula) :
    misplacedInList? (sub :: subs) = sub.misplaced?.or (misplacedInList? subs) := by
  rw [misplacedInList?, subformulasOfList, List.find?_append]
  rfl

theorem isMisplaced_iff
    {f : Formula} :
    f.isMisplaced = true ↔ ∃ sub, f = .neg sub ∧ ∀ v, sub ≠ .literal (.var v) := by
  constructor
  · intro h
    cases f with
    | neg sub =>
        refine ⟨sub, rfl, ?_⟩
        rintro v rfl
        cases h
    | _ => cases h
  · rintro ⟨sub, rfl, hsub⟩
    cases sub with
    | literal l =>
        cases l with
        | var v => exact absurd rfl (hsub v)
        | _ => rfl
    | _ => rfl

/-- No negation is misplaced exactly if each one stands right before a variable. -/
theorem misplaced?_eq_none_iff
    {f : Formula} :
    f.misplaced? = none ↔
      ∀ sub, Formula.neg sub ∈ f.subformulas → ∃ v, sub = .literal (.var v) := by
  rw [misplaced?, List.find?_eq_none]
  constructor
  · intro h sub hsub
    by_contra hvar
    push Not at hvar
    exact h _ hsub (isMisplaced_iff.mpr ⟨sub, rfl, hvar⟩)
  · intro h g hg hmisplaced
    obtain ⟨sub, rfl, hsub⟩ := isMisplaced_iff.mp hmisplaced
    obtain ⟨v, rfl⟩ := h sub hg
    exact hsub v rfl

end Formula

namespace NormalFormula

section Answers

/-- The value, unless a misplaced negation has been found. -/
def unlessMisplaced {α : Type} (first : Option Formula) (value : α) : Except Error α :=
  match first with
  | none => .ok value
  | some g => .error (.notNormal g)

theorem unlessMisplaced_one
    {α β : Type} (first : Option Formula) (value : α) (make : α → β) :
    (do
      let a ← unlessMisplaced first value
      return make a) = unlessMisplaced first (make value) := by
  cases first <;> rfl

/-- The left part is looked at before the right one. -/
theorem unlessMisplaced_two
    {α β γ : Type} (first second : Option Formula) (left : α) (right : β) (make : α → β → γ) :
    (do
      let a ← unlessMisplaced first left
      let b ← unlessMisplaced second right
      return make a b) = unlessMisplaced (first.or second) (make left right) := by
  cases first <;> cases second <;> rfl

theorem validateList_eq
    {subs : List Formula}
    (h : ∀ sub ∈ subs, validate sub = unlessMisplaced sub.misplaced? (ofFormula sub)) :
    validateList subs =
      unlessMisplaced (Formula.misplacedInList? subs) (subs.map ofFormula) := by
  induction subs with
  | nil => rfl
  | cons sub subs ih =>
      have tail := ih fun s m => h s (List.mem_cons_of_mem sub m)
      rw [validateList, h sub List.mem_cons_self, tail, Formula.misplacedInList?_cons, List.map_cons]
      exact unlessMisplaced_two _ _ _ _ _

/-- Validation answers with the canonical normal form, unless a negation is misplaced. -/
theorem validate_eq
    (f : Formula) :
    validate f = unlessMisplaced f.misplaced? (ofFormula f) := by
  induction f with
  | literal l => rfl
  | neg sub ih =>
      rw [Formula.misplaced?_neg]
      cases sub with
      | literal l =>
          cases l with
          | var v =>
              have normal : ofFormula (.neg (.literal (.var v))) = .literal (.var v.flip) := by
                rw [ofFormula, ofFormula, negated, Literal.complement]
                simp
              rw [validate, normal]
              rfl
          | _ => rfl
      | _ => rfl
  | unary op int sub ih =>
      rw [validate, ih, Formula.misplaced?_unary, ofFormula]
      exact unlessMisplaced_one _ _ _
  | temporal lhs op int rhs ihl ihr =>
      rw [validate, ihl, ihr, Formula.misplaced?_temporal, ofFormula]
      exact unlessMisplaced_two _ _ _ _ _
  | binary lhs op rhs ihl ihr =>
      rw [validate, ihl, ihr, Formula.misplaced?_binary, ofFormula]
      exact unlessMisplaced_two _ _ _ _ _
  | list op subs ih =>
      rw [validate, validateList_eq ih, Formula.misplaced?_list, ofFormula, ofFormulas_eq_map]
      exact unlessMisplaced_one _ _ _

theorem validate_accepts_iff
    {f : Formula} {x : NormalFormula} :
    validate f = .ok x ↔ f.misplaced? = none ∧ x = ofFormula f := by
  rw [validate_eq]
  cases f.misplaced? <;> simp [unlessMisplaced, eq_comm]

theorem validate_refuses_iff
    {f : Formula} {e : Error} :
    validate f = .error e ↔ ∃ g, f.misplaced? = some g ∧ e = .notNormal g := by
  rw [validate_eq]
  cases f.misplaced? <;> simp [unlessMisplaced, eq_comm]

/-- Validation fails for a formula only: one that is not in normal form. -/
theorem exists_notNormal_of_validate
    {f : Formula} {e : Error} (h : validate f = .error e) :
    ∃ g, e = .notNormal g := by
  obtain ⟨g, -, rfl⟩ := validate_refuses_iff.mp h
  exact ⟨g, rfl⟩

end Answers

section Explicit

theorem explicit_of_validateList
    {subs : List Formula} {xs : List NormalFormula} (h : validateList subs = .ok xs)
    (hsubs : ∀ sub ∈ subs, ∀ x, validate sub = .ok x → x.toFormula.explicit = sub) :
    (xs.map toFormula).map Formula.explicit = subs := by
  induction subs generalizing xs with
  | nil =>
      obtain rfl := Except.ok.inj h
      rfl
  | cons sub subs ih =>
      obtain ⟨x, hx, h⟩ := bind_eq_ok_iff.mp h
      obtain ⟨rest, hrest, h⟩ := bind_eq_ok_iff.mp h
      obtain rfl := Except.ok.inj h
      rw [List.map_cons, List.map_cons, hsubs sub List.mem_cons_self x hx,
        ih hrest fun s m => hsubs s (List.mem_cons_of_mem sub m)]

/-- A formula that validation accepts is the normal formula with its negated literals written as
negations. -/
theorem explicit_of_validate
    {f : Formula} (hpositive : f.Positive) {x : NormalFormula} (h : validate f = .ok x) :
    x.toFormula.explicit = f := by
  unfold Formula.Positive at hpositive
  induction f generalizing x with
  | literal l =>
      obtain rfl := Except.ok.inj h
      exact Formula.explicit_of_positive hpositive
  | neg sub ih =>
      cases sub with
      | literal l =>
          cases l with
          | var v =>
              obtain rfl := Except.ok.inj h
              obtain ⟨index, negated⟩ := v
              obtain rfl : negated = false := hpositive
              rfl
          | _ => cases h
      | _ => cases h
  | unary op int sub ih =>
      obtain ⟨y, hy, h⟩ := bind_eq_ok_iff.mp h
      obtain rfl := Except.ok.inj h
      rw [toFormula, Formula.explicit, ih hpositive.2 hy]
  | temporal lhs op int rhs ihl ihr =>
      obtain ⟨y, hy, h⟩ := bind_eq_ok_iff.mp h
      obtain ⟨z, hz, h⟩ := bind_eq_ok_iff.mp h
      obtain rfl := Except.ok.inj h
      rw [toFormula, Formula.explicit, ihl hpositive.1 hy, ihr hpositive.2.2 hz]
  | binary lhs op rhs ihl ihr =>
      obtain ⟨y, hy, h⟩ := bind_eq_ok_iff.mp h
      obtain ⟨z, hz, h⟩ := bind_eq_ok_iff.mp h
      obtain rfl := Except.ok.inj h
      rw [toFormula, Formula.explicit, ihl hpositive.1 hy, ihr hpositive.2 hz]
  | list op subs ih =>
      obtain ⟨ys, hys, h⟩ := bind_eq_ok_iff.mp h
      obtain rfl := Except.ok.inj h
      have positive := (Formula.everywhereInList_iff _ subs).mp hpositive.2
      rw [toFormula, toFormulas_eq_map, Formula.explicit_list,
        explicit_of_validateList hys fun sub hsub y hy => ih sub hsub (positive sub hsub) hy]

/-- Validation accepts the formulas that normal formulas are written as. -/
theorem validate_eq_ok_iff
    {f : Formula} (hpositive : f.Positive) {x : NormalFormula} :
    validate f = .ok x ↔ x.toFormula.explicit = f := by
  constructor
  · exact explicit_of_validate hpositive
  · rintro rfl
    exact validate_explicit x

end Explicit

section Canonical

/-- A formula in normal form has no negation at all. -/
theorem misplaced?_toFormula
    (x : NormalFormula) :
    x.toFormula.misplaced? = none := by
  induction x with
  | literal l => rfl
  | unary op int sub ih => rw [toFormula, Formula.misplaced?_unary, ih]
  | temporal lhs op int rhs ihl ihr =>
      rw [toFormula, Formula.misplaced?_temporal, ihl, ihr, Option.or_none]
  | binary lhs op rhs ihl ihr =>
      rw [toFormula, Formula.misplaced?_binary, ihl, ihr, Option.or_none]
  | list op subs ih =>
      rw [toFormula, toFormulas_eq_map, Formula.misplaced?_list]
      induction subs with
      | nil => rfl
      | cons sub subs ihs =>
          rw [List.map_cons, Formula.misplacedInList?_cons, ih sub List.mem_cons_self,
            ihs fun s m => ih s (List.mem_cons_of_mem sub m), Option.or_none]

/-- A formula in normal form is its own canonical normal form. -/
theorem ofFormula_toFormula
    (x : NormalFormula) :
    ofFormula x.toFormula = x := by
  induction x with
  | literal l => rfl
  | unary op int sub ih => rw [toFormula, ofFormula, ih]
  | temporal lhs op int rhs ihl ihr => rw [toFormula, ofFormula, ihl, ihr]
  | binary lhs op rhs ihl ihr => rw [toFormula, ofFormula, ihl, ihr]
  | list op subs ih =>
      have members : subs.map (ofFormula ∘ toFormula) = subs :=
        (List.map_congr_left ih).trans (List.map_id subs)
      rw [toFormula, ofFormula, toFormulas_eq_map, ofFormulas_eq_map, List.map_map, members]

/-- Strict validation and the canonical normal form. Validation accepts exactly the formulas whose
negations all stand right before variables, and then answers with the canonical normal form; otherwise
it reports the first negation elsewhere, counted from the outermost formula inward and from left to
right, and its message is about the written form of this negation. Normal formulas pass both ways
unchanged, so taking the normal form twice is taking it once. -/
theorem validate_agrees_with_ofFormula
    (f : Formula) (x : NormalFormula) :
    ((∃ y, validate f = .ok y) ↔
        ∀ sub, Formula.neg sub ∈ f.subformulas → ∃ v, sub = .literal (.var v)) ∧
      (∀ y, validate f = .ok y → y = ofFormula f) ∧
      (∀ e, validate f = .error e →
        ∃ g, f.subformulas.find? Formula.isMisplaced = some g ∧ e = .notNormal g ∧
          e.message = "`" ++ g.text ++ "` is not in negation normal form") ∧
      validate x.toFormula = .ok x ∧
      ofFormula x.toFormula = x ∧
      ofFormula (ofFormula f).toFormula = ofFormula f := by
  refine ⟨?_, ?_, ?_, ?_, ofFormula_toFormula x, ofFormula_toFormula _⟩
  · rw [← Formula.misplaced?_eq_none_iff]
    simp [validate_accepts_iff]
  · intro y hy
    exact (validate_accepts_iff.mp hy).2
  · intro e he
    obtain ⟨g, hfirst, rfl⟩ := validate_refuses_iff.mp he
    exact ⟨g, hfirst, rfl, rfl⟩
  · exact validate_accepts_iff.mpr ⟨misplaced?_toFormula x, (ofFormula_toFormula x).symm⟩

/-- `(~~p0vG[0,1]~(p1&~~p2))` with `~p0` as one literal: its negation is accepted, the next one is
reported, and the one inside that is not. -/
def doublyNegatedFormula : Formula :=
  .binary (.neg (.literal (.var ⟨0, true⟩))) .or
    (.unary .always ⟨0, 1⟩ (.neg (.binary (.var 1) .and (.neg (.neg (.var 2))))))

theorem validate_agrees_with_ofFormula_doublyNegatedFormula :
    (∃ y, validate (.neg (.literal (.var ⟨0, true⟩))) = .ok y) ∧
      validate doublyNegatedFormula =
        .error (.notNormal (.neg (.binary (.var 1) .and (.neg (.neg (.var 2)))))) := by
  constructor
  · have accepted := validate_agrees_with_ofFormula (.neg (.literal (.var ⟨0, true⟩))) (.var 0)
    refine accepted.1.mpr fun sub hsub => ⟨⟨0, true⟩, ?_⟩
    simpa [Formula.subformulas] using hsub
  · have refused := validate_agrees_with_ofFormula doublyNegatedFormula (.var 0)
    cases run : validate doublyNegatedFormula with
    | ok y =>
        obtain ⟨v, hv⟩ := refused.1.mp ⟨y, run⟩
          (.binary (.var 1) .and (.neg (.neg (.var 2)))) (by decide)
        cases hv
    | error e =>
        obtain ⟨g, hfirst, rfl, -⟩ := refused.2.2.1 e run
        have first : doublyNegatedFormula.subformulas.find? Formula.isMisplaced =
            some (.neg (.binary (.var 1) .and (.neg (.neg (.var 2))))) := by decide
        rw [Option.some.inj (hfirst.symm.trans first)]

end Canonical

end NormalFormula

end MissionTime

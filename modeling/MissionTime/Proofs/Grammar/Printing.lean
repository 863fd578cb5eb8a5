import MissionTime.Proofs.Conditions
import MissionTime.Proofs.Grammar.Agreement

/-!
# Printing and reading

The written form of a formula is a text of the grammar. It is read as the formula again, except that
the complement of a variable comes back as the negation of the variable.

**Definitions.**
* `Formula.explicit`: the formula with its negated literals written as negations;
* `Numeral.ofNat` and `Window.ofInterval`: the printed numbers and intervals.

**Results.**
* `Derivation.everywhere_formula`: what the parts of a read formula meet;
* `Formula.exists_derivation`: a derivation of the written form;
* `NormalFormula.validate_explicit` and `NormalFormula.ofFormula_explicit`: both ways to normal form
  undo the change of the literals;
* `Formula.ofText_text`: printing and reading are inverse.
-/

namespace MissionTime

/-- The complement of a variable as a negation. -/
def Literal.explicit : Literal → Formula
  | .top => .literal .top
  | .bot => .literal .bot
  | .var x => if x.negated then .neg (.var x.index) else .var x.index

namespace Formula

mutual

/-- The formula with the complements of variables as negations. -/
def explicit : Formula → Formula
  | .literal l => l.explicit
  | .neg sub => .neg (explicit sub)
  | .unary op int sub => .unary op int (explicit sub)
  | .temporal lhs op int rhs => .temporal (explicit lhs) op int (explicit rhs)
  | .binary lhs op rhs => .binary (explicit lhs) op (explicit rhs)
  | .list op subs => .list op (explicitOfList subs)

/-- The members of a list with the complements of variables as negations. -/
def explicitOfList : List Formula → List Formula
  | [] => []
  | sub :: subs => explicit sub :: explicitOfList subs

end

@[simp] theorem explicitOfList_eq_map
    (subs : List Formula) :
    explicitOfList subs = subs.map explicit := by
  induction subs with
  | nil => rfl
  | cons sub subs ih => simp [explicitOfList, ih]

theorem explicit_list
    (op : ListOp) (subs : List Formula) :
    (Formula.list op subs).explicit = .list op (subs.map explicit) := by
  rw [explicit, explicitOfList_eq_map]

theorem explicit_of_positive
    {f : Formula} (h : f.Positive) :
    f.explicit = f := by
  unfold Positive at h
  induction f with
  | literal l =>
      cases l with
      | var x =>
          obtain ⟨index, negated⟩ := x
          obtain rfl : negated = false := h
          rfl
      | _ => rfl
  | neg sub ih => rw [explicit, ih h]
  | unary op int sub ih => rw [explicit, ih h.2]
  | temporal lhs op int rhs ihl ihr => rw [explicit, ihl h.1, ihr h.2.2]
  | binary lhs op rhs ihl ihr => rw [explicit, ihl h.1, ihr h.2]
  | list op subs ih =>
      have hsubs := (everywhereInList_iff _ subs).mp h.2
      have same : subs.map explicit = subs :=
        (List.map_congr_left fun sub hsub => ih sub hsub (hsubs sub hsub)).trans (List.map_id subs)
      rw [explicit_list, same]

theorem chars_explicit
    (f : Formula) :
    f.explicit.chars = f.chars := by
  induction f with
  | literal l =>
      cases l with
      | var x =>
          obtain ⟨index, negated⟩ := x
          cases negated <;> rfl
      | _ => rfl
  | neg sub ih => simp only [explicit, chars, ih]
  | unary op int sub ih => simp only [explicit, chars, ih]
  | temporal lhs op int rhs ihl ihr => simp only [explicit, chars, ihl, ihr]
  | binary lhs op rhs ihl ihr => simp only [explicit, chars, ihl, ihr]
  | list op subs ih =>
      have same : subs.map (chars ∘ explicit) = subs.map chars := List.map_congr_left ih
      simp only [explicit_list, chars, charsOfList_eq_map, List.map_map, same]

/-- The written form does not tell the complement of a variable from its negation. -/
theorem text_explicit
    (f : Formula) :
    f.explicit.text = f.text := by
  rw [text, chars_explicit, text]

end Formula

section Parsed

/-- The parts of a read formula: variables with an index of at most `largest`, constants, intervals
with such bounds, and lists with a member. -/
theorem Derivation.everywhere_formula
    {P : Formula.Condition} (var : ∀ n ≤ largest, P.literal (.var ⟨n, false⟩))
    (top : P.literal .top) (bot : P.literal .bot)
    (interval : ∀ int : Interval, int.Sized → P.interval int)
    (members : ∀ n, 0 < n → P.members n) (d : Derivation) :
    d.formula.Everywhere P := by
  have window (w : Window) : P.interval w.interval :=
    interval _ ⟨w.lower.small, w.upper.small⟩
  induction d with
  | var index => exact var _ index.small
  | top => exact top
  | mark => exact bot
  | letter => exact bot
  | neg sub ih => exact ih
  | unary op w sub ih => exact ⟨window w, ih⟩
  | list op first rest ihf ihr =>
      rw [Derivation.formula_list]
      refine ⟨members _ (by simp), ?_⟩
      simpa using ⟨ihf, ihr⟩
  | binary lhs op rhs ihl ihr => exact ⟨ihl, ihr⟩
  | temporal lhs op w rhs ihl ihr => exact ⟨ihl, window w, ihr⟩

namespace Formula

variable {text : String} {f : Formula} (h : Formula.ofText text = .ok f)
include h

theorem noEmptyList_of_ofText :
    f.NoEmptyList := by
  obtain ⟨d, -, rfl⟩ := ofText_eq_ok_iff.mp h
  exact d.everywhere_formula (fun _ _ => trivial) trivial trivial (fun _ _ => trivial)
    fun _ hn => hn

theorem sized_of_ofText :
    f.Sized := by
  obtain ⟨d, -, rfl⟩ := ofText_eq_ok_iff.mp h
  exact d.everywhere_formula (fun _ hn => hn) trivial trivial (fun _ hint => hint)
    fun _ _ => trivial

theorem positive_of_ofText :
    f.Positive := by
  obtain ⟨d, -, rfl⟩ := ofText_eq_ok_iff.mp h
  exact d.everywhere_formula (fun _ _ => rfl) trivial trivial (fun _ _ => trivial)
    fun _ _ => trivial

end Formula

end Parsed

section Printed

/-- The decimal digits of a number. -/
def Numeral.ofNat (n : Nat) (h : n ≤ largest) : Numeral where
  digits := Nat.toDigits 10 n
  nonempty := Nat.toDigits_ne_nil
  digital := fun _ hc => Nat.isDigit_of_mem_toDigits (by decide) (by decide) hc
  small := by rwa [Nat.ofDigitChars_ten_toDigits]

@[simp] theorem Numeral.value_ofNat
    (n : Nat) (h : n ≤ largest) :
    (Numeral.ofNat n h).value = n :=
  Nat.ofDigitChars_ten_toDigits

/-- The printed bounds of an interval. -/
def Window.ofInterval (int : Interval) (h : int.Sized) : Window :=
  ⟨.ofNat int.lower h.1, .ofNat int.upper h.2⟩

@[simp] theorem Window.interval_ofInterval
    (int : Interval) (h : int.Sized) :
    (Window.ofInterval int h).interval = int := by
  simp [Window.ofInterval, Window.interval]

theorem Window.chars_ofInterval
    (int : Interval) (h : int.Sized) :
    (Window.ofInterval int h).chars = int.chars :=
  rfl

theorem Derivation.joinCommas_chars
    (first : Derivation) (rest : List Derivation) :
    joinCommas ((first :: rest).map chars) = first.chars ++ charsOfRest rest := by
  induction rest generalizing first with
  | nil => simp [charsOfRest]
  | cons d rest ih =>
      rw [List.map_cons, List.map_cons, joinCommas_cons_cons, ← List.map_cons, ih, charsOfRest]

theorem exists_derivations
    {subs : List Formula}
    (h : ∀ sub ∈ subs, ∃ d : Derivation, d.chars = sub.chars ∧ d.formula = sub.explicit) :
    ∃ ds : List Derivation, ds.map Derivation.chars = subs.map Formula.chars ∧
      ds.map Derivation.formula = subs.map Formula.explicit := by
  induction subs with
  | nil => exact ⟨[], rfl, rfl⟩
  | cons sub subs ih =>
      obtain ⟨d, hchars, hformula⟩ := h sub List.mem_cons_self
      obtain ⟨ds, hs, hf⟩ := ih fun s m => h s (List.mem_cons_of_mem _ m)
      exact ⟨d :: ds, by simp [hchars, hs], by simp [hformula, hf]⟩

/-- The written form is derived, with the complements of variables as negations. -/
theorem Formula.exists_derivation
    {f : Formula} (hlists : f.NoEmptyList) (hsized : f.Sized) :
    ∃ d : Derivation, d.chars = f.chars ∧ d.formula = f.explicit := by
  unfold NoEmptyList at hlists
  unfold Sized at hsized
  induction f with
  | literal l =>
      cases l with
      | top => exact ⟨.top, rfl, rfl⟩
      | bot => exact ⟨.letter, rfl, rfl⟩
      | var x =>
          obtain ⟨index, negated⟩ := x
          have var : (Derivation.var (.ofNat index hsized)).formula = .var index :=
            congrArg Formula.var (Numeral.value_ofNat index hsized)
          cases negated with
          | false => exact ⟨.var (.ofNat index hsized), rfl, var⟩
          | true => exact ⟨.neg (.var (.ofNat index hsized)), rfl, congrArg Formula.neg var⟩
  | neg sub ih =>
      obtain ⟨d, hchars, hformula⟩ := ih hlists hsized
      exact ⟨.neg d, by simp [Derivation.chars, chars, hchars],
        by simp [Derivation.formula, explicit, hformula]⟩
  | unary op int sub ih =>
      obtain ⟨d, hchars, hformula⟩ := ih hlists.2 hsized.2
      refine ⟨.unary op (.ofInterval int hsized.1) d, ?_, ?_⟩
      · rw [Derivation.chars, Window.chars_ofInterval, hchars, chars]
      · rw [Derivation.formula, Window.interval_ofInterval, hformula, explicit]
  | temporal lhs op int rhs ihl ihr =>
      obtain ⟨d, hchars, hformula⟩ := ihl hlists.1 hsized.1
      obtain ⟨e, hchars', hformula'⟩ := ihr hlists.2.2 hsized.2.2
      refine ⟨.temporal d op (.ofInterval int hsized.2.1) e, ?_, ?_⟩
      · rw [Derivation.chars, Window.chars_ofInterval, hchars, hchars', chars]
      · rw [Derivation.formula, Window.interval_ofInterval, hformula, hformula', explicit]
  | binary lhs op rhs ihl ihr =>
      obtain ⟨d, hchars, hformula⟩ := ihl hlists.1 hsized.1
      obtain ⟨e, hchars', hformula'⟩ := ihr hlists.2 hsized.2
      refine ⟨.binary d op e, ?_, ?_⟩
      · rw [Derivation.chars, hchars, hchars', chars]
      · rw [Derivation.formula, hformula, hformula', explicit]
  | list op subs ih =>
      have sublists := (everywhereInList_iff _ subs).mp hlists.2
      have subsizes := (everywhereInList_iff _ subs).mp hsized.2
      obtain ⟨ds, hchars, hformula⟩ := exists_derivations fun sub hsub =>
        ih sub hsub (sublists sub hsub) (subsizes sub hsub)
      cases ds with
      | nil =>
          obtain rfl : subs = [] := by simpa using hchars.symm
          exact absurd hlists.1 (Nat.lt_irrefl 0)
      | cons first rest =>
          refine ⟨.list op first rest, ?_, ?_⟩
          · rw [Derivation.chars, chars, charsOfList_eq_map, ← hchars, Derivation.joinCommas_chars,
              List.append_assoc]
          · rw [Derivation.formula_list, explicit_list, ← hformula, List.map_cons]

/-- A written formula is read with the complements of variables as negations. -/
theorem Formula.ofText_eq_explicit
    {f : Formula} (hlists : f.NoEmptyList) (hsized : f.Sized) :
    Formula.ofText f.text = .ok f.explicit := by
  obtain ⟨d, hchars, hformula⟩ := exists_derivation hlists hsized
  exact ofText_eq_ok_iff.mpr ⟨d, hchars.trans String.toList_ofList.symm, hformula⟩

end Printed

namespace NormalFormula

/-- Negations right before variables are taken back into literals. -/
theorem validate_explicit
    (x : NormalFormula) :
    validate x.toFormula.explicit = .ok x := by
  induction x with
  | literal l =>
      cases l with
      | var x =>
          obtain ⟨index, negated⟩ := x
          cases negated <;> rfl
      | _ => rfl
  | unary op int sub ih =>
      rw [toFormula, Formula.explicit, validate, ih]
      rfl
  | temporal lhs op int rhs ihl ihr =>
      rw [toFormula, Formula.explicit, validate, ihl, ihr]
      rfl
  | binary lhs op rhs ihl ihr =>
      rw [toFormula, Formula.explicit, validate, ihl, ihr]
      rfl
  | list op subs ih =>
      have members : validateList ((subs.map toFormula).map Formula.explicit) = .ok subs := by
        induction subs with
        | nil => rfl
        | cons sub subs ihs =>
            rw [List.map_cons, List.map_cons, validateList, ih sub List.mem_cons_self,
              ihs fun s m => ih s (List.mem_cons_of_mem _ m)]
            rfl
      rw [toFormula, toFormulas_eq_map, Formula.explicit_list, validate, members]
      rfl

/-- Negations right before variables are pushed back into literals. -/
theorem ofFormula_explicit
    (x : NormalFormula) :
    ofFormula x.toFormula.explicit = x := by
  induction x with
  | literal l =>
      cases l with
      | var x =>
          obtain ⟨index, negated⟩ := x
          cases negated with
          | false => rfl
          | true => simp [toFormula, Formula.explicit, Literal.explicit, ofFormula, Formula.var,
              negated, Literal.complement, Variable.flip]
      | _ => rfl
  | unary op int sub ih => simp only [toFormula, Formula.explicit, ofFormula, ih]
  | temporal lhs op int rhs ihl ihr => simp only [toFormula, Formula.explicit, ofFormula, ihl, ihr]
  | binary lhs op rhs ihl ihr => simp only [toFormula, Formula.explicit, ofFormula, ihl, ihr]
  | list op subs ih =>
      have members : subs.map (ofFormula ∘ Formula.explicit ∘ toFormula) = subs :=
        (List.map_congr_left ih).trans (List.map_id subs)
      simp only [toFormula, toFormulas_eq_map, Formula.explicit_list, ofFormula,
        ofFormulas_eq_map, List.map_map, members]

end NormalFormula

/-- Printing and reading are inverse. A formula without an empty list is read from its written form
with the complements of variables as negations, so as itself if it has none; printing what was read
and reading it once more changes nothing; and both ways to normal form give back a normal formula. -/
theorem Formula.ofText_text :
    (∀ f : Formula, f.NoEmptyList → f.Sized →
        Formula.ofText f.text = .ok f.explicit ∧ (f.Positive → Formula.ofText f.text = .ok f)) ∧
      (∀ text f, Formula.ofText text = .ok f → Formula.ofText f.text = .ok f) ∧
      ∀ x : NormalFormula, x.toFormula.NoEmptyList → x.toFormula.Sized →
        ∃ f, Formula.ofText x.text = .ok f ∧ NormalFormula.validate f = .ok x ∧
          NormalFormula.ofFormula f = x := by
  have positive : ∀ f : Formula, f.NoEmptyList → f.Sized → f.Positive →
      Formula.ofText f.text = .ok f := by
    intro f hlists hsized hpositive
    rw [ofText_eq_explicit hlists hsized, explicit_of_positive hpositive]
  refine ⟨fun f hlists hsized => ⟨ofText_eq_explicit hlists hsized, positive f hlists hsized⟩,
    fun text f h => positive f (noEmptyList_of_ofText h) (sized_of_ofText h)
      (positive_of_ofText h),
    fun x hlists hsized => ⟨x.toFormula.explicit, ofText_eq_explicit hlists hsized,
      x.validate_explicit, x.ofFormula_explicit⟩⟩

/-- A list of a complement and an operator in front of the letter `F`, as a formula and as a normal
formula; a conjunction without a complement; and a text with a leading zero that is printed as the
same conjunction. -/
theorem Formula.ofText_text_mixedList :
    Formula.ofText "(v[~p3,F[1,2]F])" =
        .ok (.list .or [.neg (.var 3), .unary .eventually ⟨1, 2⟩ (.literal .bot)]) ∧
      Formula.ofText "(p7&F)" = .ok (.binary (.var 7) .and (.literal .bot)) ∧
      (Formula.ofText "(p07&!)" = .ok (.binary (.var 7) .and (.literal .bot)) ∧
        Formula.ofText (Formula.binary (.var 7) .and (.literal .bot)).text =
          .ok (.binary (.var 7) .and (.literal .bot))) ∧
      ∃ f, Formula.ofText "(v[~p3,F[1,2]F])" = .ok f ∧
        NormalFormula.validate f = .ok (.list .or
          [.literal (.var ⟨3, true⟩), .unary .eventually ⟨1, 2⟩ (.literal .bot)]) := by
  let x : NormalFormula :=
    .list .or [.literal (.var ⟨3, true⟩), .unary .eventually ⟨1, 2⟩ (.literal .bot)]
  let f : Formula := .binary (.var 7) .and (.literal .bot)
  have lists : x.toFormula.NoEmptyList := ⟨by decide, trivial, ⟨trivial, trivial⟩, trivial⟩
  have sized : x.toFormula.Sized :=
    ⟨trivial, (by decide : 3 ≤ largest), ⟨⟨by decide, by decide⟩, trivial⟩, trivial⟩
  have listsf : f.NoEmptyList := ⟨trivial, trivial⟩
  have sizedf : f.Sized := ⟨(by decide : 7 ≤ largest), trivial⟩
  have positivef : f.Positive := ⟨rfl, trivial⟩
  have read : Formula.ofText "(p07&!)" = .ok f := by cbv
  have text : x.toFormula.text = "(v[~p3,F[1,2]F])" := rfl
  have textf : f.text = "(p7&F)" := rfl
  obtain ⟨g, hg, hvalidate, -⟩ := Formula.ofText_text.2.2 x lists sized
  have rereadx := (Formula.ofText_text.1 x.toFormula lists sized).1
  have rereadf := (Formula.ofText_text.1 f listsf sizedf).2 positivef
  rw [NormalFormula.text, text] at hg
  rw [text] at rereadx
  rw [textf] at rereadf
  exact ⟨rereadx, rereadf, ⟨read, Formula.ofText_text.2.1 _ _ read⟩, g, hg, hvalidate⟩

end MissionTime

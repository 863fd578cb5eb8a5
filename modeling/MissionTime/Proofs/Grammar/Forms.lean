import MissionTime.Proofs.Grammar.Entries

/-!
# The accepted texts

The texts that are read as formulas are the words of the grammar, each with one derivation. The form
of a text is the production at the root of that derivation; only a negation has none.

**Results.**
* `Production.recognizes_iff_derives`: a text has the form of a production exactly if it is derived
  with this production at the root;
* `Formula.ofText_iff_derives`: reading, derivations, and the forms of the accepted texts.
-/

namespace MissionTime

/-- A text has the form of a production exactly if it is derived with this production at the root. -/
theorem Production.recognizes_iff_derives
    {form : Production} (hform : form ∈ outermost) {text : String} :
    form.recognizes text = true ↔
      ∃ d : Derivation, d.chars = text.toList ∧ d.production? = some form := by
  rw [recognizes_iff hform]
  constructor
  · rintro ⟨f, hf, hp⟩
    obtain ⟨d, hd, rfl⟩ := Formula.ofText_eq_ok_iff.mp hf
    exact ⟨d, hd, d.production?_formula.symm.trans hp⟩
  · rintro ⟨d, hd, hp⟩
    exact ⟨d.formula, Formula.ofText_eq_ok_iff.mpr ⟨d, hd, rfl⟩, d.production?_formula.trans hp⟩

namespace Derivation

theorem mem_outermost_of_production?
    {d : Derivation} {form : Production} (h : d.production? = some form) :
    form ∈ Production.outermost := by
  cases d with
  | neg sub => cases h
  | _ =>
      obtain rfl := Option.some.inj h
      decide

theorem production?_eq_none_iff
    {d : Derivation} :
    d.production? = none ↔ ∃ sub, d = .neg sub := by
  cases d <;> simp [production?]

/-- The text of a negation. -/
theorem text_of_neg
    {sub : Derivation} {text : String} (h : (neg sub).chars = text.toList) :
    text = "~" ++ String.ofList sub.chars := by
  apply String.toList_inj.mp
  rw [← h, String.toList_append]
  simp [chars]

/-- The first character of a text tells whether it is a negation. -/
theorem production?_eq_none_of_text
    {d : Derivation} {rest : String} (h : d.chars = ("~" ++ rest).toList) :
    d.production? = none := by
  have tilde : '~' :: rest.toList = d.chars := by rw [h, String.toList_append]; rfl
  cases d with
  | neg sub => rfl
  | _ => simp [chars, UnaryOp.ne_symbol] at tilde

end Derivation

/-- A text is read as `f` exactly if it is derived with the syntax tree `f`, and then the derivation
is unique. So the form of a text is that of its derivation, and an accepted text is either a negation
of an accepted text, or has exactly one of the other forms. -/
theorem Formula.ofText_iff_derives
    (text : String) :
    (∀ f, Formula.ofText text = .ok f ↔
        ∃ d : Derivation, d.chars = text.toList ∧ d.formula = f) ∧
      (∀ d d' : Derivation, d.chars = text.toList → d'.chars = text.toList → d = d') ∧
      (∀ form ∈ Production.outermost, form.recognizes text = true ↔
        ∃ d : Derivation, d.chars = text.toList ∧ d.production? = some form) ∧
      ∀ f, Formula.ofText text = .ok f →
        ((∃ rest g, text = "~" ++ rest ∧ Formula.ofText rest = .ok g ∧ f = .neg g) ∧
            ∀ form ∈ Production.outermost, form.recognizes text = false) ∨
          ((¬ ∃ rest, text = "~" ++ rest) ∧
            ∃! form, form ∈ Production.outermost ∧ form.recognizes text = true) := by
  have unique : ∀ d d' : Derivation, d.chars = text.toList → d'.chars = text.toList → d = d' :=
    fun d d' hd hd' => Derivation.chars_injective (hd.trans hd'.symm)
  refine ⟨fun f => Formula.ofText_eq_ok_iff, unique,
    fun form hform => Production.recognizes_iff_derives hform, ?_⟩
  intro f hf
  obtain ⟨d, hd, rfl⟩ := Formula.ofText_eq_ok_iff.mp hf
  cases hp : d.production? with
  | none =>
      obtain ⟨sub, rfl⟩ := Derivation.production?_eq_none_iff.mp hp
      refine .inl ⟨⟨String.ofList sub.chars, sub.formula, Derivation.text_of_neg hd,
        Formula.ofText_eq_ok_iff.mpr ⟨sub, String.toList_ofList.symm, rfl⟩, rfl⟩, ?_⟩
      intro form hform
      rw [← Bool.not_eq_true, Production.recognizes_iff_derives hform]
      rintro ⟨d', hd', hp'⟩
      obtain rfl := unique _ d' hd hd'
      cases hp'
  | some form =>
      refine .inr ⟨?_, form, ?_, ?_⟩
      · rintro ⟨rest, rfl⟩
        rw [Derivation.production?_eq_none_of_text hd] at hp
        cases hp
      · have hform := Derivation.mem_outermost_of_production? hp
        exact ⟨hform, (Production.recognizes_iff_derives hform).mpr ⟨d, hd, hp⟩⟩
      · rintro form' ⟨hform', h⟩
        obtain ⟨d', hd', hp'⟩ := (Production.recognizes_iff_derives hform').mp h
        obtain rfl := unique d d' hd hd'
        exact Option.some.inj (hp'.symm.trans hp)

/-- A negated disjunction of a variable, written with a leading zero, and the letter `F`: the text is
read in one way and has none of the forms, and the text behind the negation has one. -/
theorem Formula.ofText_iff_derives_negatedDisjunction :
    Formula.ofText "~(p07vF)" = .ok (.neg (.binary (.var 7) .or (.literal .bot))) ∧
      (∃! d : Derivation, d.chars = "~(p07vF)".toList) ∧
      (∀ form ∈ Production.outermost, form.recognizes "~(p07vF)" = false) ∧
      ∃! form, form ∈ Production.outermost ∧ form.recognizes "(p07vF)" = true := by
  let inner : Derivation :=
    .binary (.var ⟨['0', '7'], by decide, List.all_eq_true.mp rfl, by decide⟩) .or .letter
  have read : Formula.ofText "~(p07vF)" = .ok (Derivation.neg inner).formula :=
    ((Formula.ofText_iff_derives _).1 _).mpr ⟨.neg inner, rfl, rfl⟩
  have readInner : Formula.ofText "(p07vF)" = .ok inner.formula :=
    ((Formula.ofText_iff_derives _).1 _).mpr ⟨inner, rfl, rfl⟩
  refine ⟨read, ⟨.neg inner, rfl, fun d hd => ?_⟩, ?_, ?_⟩
  · exact (Formula.ofText_iff_derives _).2.1 d (.neg inner) hd rfl
  · rcases (Formula.ofText_iff_derives _).2.2.2 _ read with h | h
    · exact h.2
    · exact absurd ⟨"(p07vF)", rfl⟩ h.1
  · rcases (Formula.ofText_iff_derives _).2.2.2 _ readInner with ⟨⟨rest, g, htext, -⟩, -⟩ | h
    · have first := congrArg (fun t => t.toList.head?) htext
      simp at first
    · exact h.2

end MissionTime

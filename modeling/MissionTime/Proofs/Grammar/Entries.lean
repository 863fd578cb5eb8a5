import MissionTime.Proofs.Grammar.Agreement

/-!
# The rules as entries

Each form of formulas has a rule that may be asked on its own. It succeeds where the rule of formulas
succeeds with a formula of that form: the alternatives before it fail there. An earlier alternative
never takes a text from a later one.

**Definitions.**
* `Production.outermost`: the forms of formulas by their outermost part.

**Results.**
* `Rule.value?_formula_of_binary` and its like: a form that succeeds is what the rule of formulas reads;
* `Production.recognizes_iff`: the rule of a form reads the texts of the formulas whose outermost part is of
  that form.
-/

namespace MissionTime

namespace Rule

section Exclusion

variable {text rest : List Char} {f : Formula}

theorem value?_char_bind_eq_some
    {α : Type} {c : Char} {next : Unit → Rule α} {result : α × List Char} :
    ((char c >>= next) text).value? = some result ↔
      ∃ rest, text = c :: rest ∧ (next () rest).value? = some result := by
  rw [value?_bind, Option.bind_eq_some_iff]
  constructor
  · rintro ⟨⟨u, rest⟩, hc, h⟩
    exact ⟨rest, value?_char_eq_some.mp hc, h⟩
  · rintro ⟨rest, rfl, h⟩
    exact ⟨((), rest), value?_char_eq_some.mpr rfl, h⟩

theorem value?_formula
    (text : List Char) :
    (formula text).value? =
      ((variableName >>= fun x => pure (.literal (.var x)) : Rule Formula) text).value?.or
        (((constant >>= fun l => pure (.literal l) : Rule Formula) text).value?.or
          ((negation formula text).value?.or ((unary formula text).value?.or
            ((list formula text).value?.or
              ((binary formula text).value?.or (temporal formula text).value?))))) := by
  conv_lhs => rw [formula_eq]
  simp only [alternatives, value?_choice_cons, value?_choice_nil, Option.or_none]

/-- A text in parentheses is of one of three forms. -/
theorem value?_formula_parenthesis
    (rest : List Char) :
    (formula ('(' :: rest)).value? =
      (list formula ('(' :: rest)).value?.or
        ((binary formula ('(' :: rest)).value?.or (temporal formula ('(' :: rest)).value?) := by
  have letter : Rule.letter.Refuses ('(' :: rest) _ := (refuses_char (by simp)).bind _
  rw [value?_formula, (Reader.refuses_variable (by simp)).fails,
    ((Reader.refuses_constant (by simp) (by simp) letter).bind _).fails,
    (Reader.refuses_negation (by simp)).fails, (Reader.refuses_unary (by simp) (by simp)).fails]
  simp only [Option.none_or]

/-- No formula begins with the connective of a list. -/
theorem value?_formula_symbol
    (op : ListOp) (rest : List Char) :
    (formula (op.symbol :: rest)).value? = none :=
  (Reader.refuses_of_follows (Reader.follows_formula _ [.left]) (Reader.enter_symbol [.left] op)).fails

theorem value?_formula_of_variable
    {x : Variable} (h : (variableName text).value? = some (x, rest)) :
    (formula text).value? = some (.literal (.var x), rest) := by
  rw [value?_formula, value?_bind, h]
  rfl

theorem value?_formula_of_constant
    {l : Literal} (h : (constant text).value? = some (l, rest)) :
    (formula text).value? = some (.literal l, rest) := by
  have other : 'p' ∉ text.head? := by
    rcases value?_constant_eq_some.mp h with ⟨rfl, -⟩ | ⟨rfl | ⟨rfl, -⟩, -⟩ <;> simp
  rw [value?_formula, (Reader.refuses_variable other).fails, Option.none_or, value?_bind, h]
  rfl

/-- The letter `F` before an interval is not read as the constant. -/
theorem value?_formula_of_unary
    (h : (unary formula text).value? = some (f, rest)) :
    (formula text).value? = some (f, rest) := by
  have first : 'F' ∈ text.head? ∨ 'G' ∈ text.head? := by
    by_contra hother
    rw [not_or] at hother
    rw [(Reader.refuses_unary hother.1 hother.2).fails] at h
    cases h
  have constants : ∃ E, constant.Refuses text E := by
    rcases first with hc | hc <;> obtain ⟨last, rfl⟩ := List.head?_eq_some_iff.mp hc
    · rw [unary, value?_bind] at h
      obtain ⟨last, rfl⟩ : ∃ tail, last = '[' :: tail := by
        obtain ⟨⟨int, tail⟩, hint, -⟩ := Option.bind_eq_some_iff.mp ((value?_bind _ _).symm.trans h)
        obtain ⟨tail, rfl, -⟩ := value?_char_bind_eq_some.mp hint
        exact ⟨tail, rfl⟩
      exact ⟨_, Reader.refuses_constant (by simp) (by simp) (Reader.refuses_letter last)⟩
    · exact ⟨_, Reader.refuses_constant (by simp) (by simp) ((refuses_char (by simp)).bind _)⟩
  obtain ⟨E, constants⟩ := constants
  have others : 'p' ∉ text.head? ∧ '~' ∉ text.head? := by
    rcases first with hc | hc <;> obtain ⟨last, rfl⟩ := List.head?_eq_some_iff.mp hc <;> simp
  rw [value?_formula, (Reader.refuses_variable others.1).fails, (constants.bind _).fails,
    (Reader.refuses_negation others.2).fails, h]
  rfl

theorem value?_formula_of_list
    (h : (list formula text).value? = some (f, rest)) :
    (formula text).value? = some (f, rest) := by
  obtain ⟨inner, rfl, -⟩ := value?_char_bind_eq_some.mp h
  rw [value?_formula_parenthesis, h, Option.some_or]

/-- Where a formula stands behind the parenthesis, no connective does. -/
theorem value?_list_of_formula
    {lhs : Formula} {last : List Char} (h : (formula rest).value? = some (lhs, last)) :
    (list formula ('(' :: rest)).value? = none := by
  have refuses : listOp.Refuses rest _ := Reader.refuses_listOp (by
    by_contra hknown
    obtain ⟨c, op, tail, rfl, hop⟩ := Reader.exists_head_of_known hknown
    obtain rfl := Reader.symbol_of_listOp? hop
    rw [value?_formula_symbol] at h
    cases h)
  by_contra hlist
  obtain ⟨result, hresult⟩ := Option.ne_none_iff_exists'.mp hlist
  obtain ⟨tail, ⟨⟩, hbehind⟩ := value?_char_bind_eq_some.mp hresult
  rw [(refuses.bind _).fails] at hbehind
  cases hbehind

theorem value?_formula_of_binary
    (h : (binary formula text).value? = some (f, rest)) :
    (formula text).value? = some (f, rest) := by
  obtain ⟨inner, rfl, hinner⟩ := value?_char_bind_eq_some.mp h
  rw [value?_bind, Option.bind_eq_some_iff] at hinner
  obtain ⟨⟨lhs, last⟩, hlhs, -⟩ := hinner
  rw [value?_formula_parenthesis, value?_list_of_formula hlhs, Option.none_or, h, Option.some_or]

/-- Behind the left operand a temporal operator is no connective. -/
theorem value?_formula_of_temporal
    (h : (temporal formula text).value? = some (f, rest)) :
    (formula text).value? = some (f, rest) := by
  obtain ⟨inner, rfl, hinner⟩ := value?_char_bind_eq_some.mp h
  rw [value?_bind, Option.bind_eq_some_iff] at hinner
  obtain ⟨⟨lhs, last⟩, hlhs, hbehind⟩ := hinner
  have refuses : binaryOp.Refuses last _ := Reader.refuses_binaryOp (by
    by_contra hknown
    obtain ⟨c, op, tail, rfl, hop⟩ := Reader.exists_head_of_known hknown
    obtain rfl := Reader.symbol_of_binaryOp? hop
    have temporal := Reader.refuses_temporalOp (Reader.temporalOp?_of_binary op tail)
    rw [(temporal.bind _).fails] at hbehind
    cases hbehind)
  have binary : (binary formula ('(' :: inner)).value? = none := by
    by_contra hbinary
    obtain ⟨result, hresult⟩ := Option.ne_none_iff_exists'.mp hbinary
    obtain ⟨tail, ⟨⟩, hbehind⟩ := value?_char_bind_eq_some.mp hresult
    rw [value?_bind, hlhs, Option.bind_some, (refuses.bind _).fails] at hbehind
    cases hbehind
  rw [value?_formula_parenthesis, value?_list_of_formula hlhs, binary, Option.none_or,
    Option.none_or, h]

end Exclusion

section Yielding

variable {α β : Type} {inner : Rule Formula}

/-- All values of the rule have the property. -/
def Yields (r : Rule α) (P : α → Prop) : Prop :=
  ∀ text a rest, (r text).value? = some (a, rest) → P a

theorem yields_pure
    {P : α → Prop} {a : α} (h : P a) :
    Yields (pure a) P := by
  rintro text b rest ⟨⟩
  exact h

theorem yields_bind
    {P : β → Prop} {r : Rule α} {next : α → Rule β} (h : ∀ a, Yields (next a) P) :
    Yields (r >>= next) P := by
  intro text b rest hb
  rw [value?_bind, Option.bind_eq_some_iff] at hb
  obtain ⟨⟨a, last⟩, -, hb⟩ := hb
  exact h a last b rest hb

theorem yields_negation :
    Yields (negation inner) (·.production? = none) :=
  yields_bind fun _ => yields_bind fun _ => yields_pure rfl

theorem yields_unary :
    Yields (unary inner) (·.production? = some .unaryTemporal) :=
  yields_bind fun _ => yields_bind fun _ => yields_bind fun _ => yields_pure rfl

theorem yields_list :
    Yields (list inner) (·.production? = some .list) :=
  yields_bind fun _ => yields_bind fun _ => yields_bind fun _ => yields_bind fun _ =>
    yields_bind fun _ => yields_bind fun _ => yields_pure rfl

theorem yields_binary :
    Yields (binary inner) (·.production? = some .binary) :=
  yields_bind fun _ => yields_bind fun _ => yields_bind fun _ => yields_bind fun _ =>
    yields_bind fun _ => yields_pure rfl

theorem yields_temporal :
    Yields (temporal inner) (·.production? = some .binaryTemporal) :=
  yields_bind fun _ => yields_bind fun _ => yields_bind fun _ => yields_bind fun _ =>
    yields_bind fun _ => yields_bind fun _ => yields_pure rfl

theorem production?_of_constant
    {text rest : List Char} {l : Literal} (h : (constant text).value? = some (l, rest)) :
    (Formula.literal l).production? = some .constant := by
  rcases value?_constant_eq_some.mp h with ⟨-, rfl⟩ | ⟨-, rfl⟩ <;> rfl

end Yielding

section Choosing

variable {text rest : List Char} {f : Formula}

/-- A formula is read by the rule of its own form. -/
theorem exists_form_of_value?_formula
    (h : (formula text).value? = some (f, rest)) :
    (∃ x, (variableName text).value? = some (x, rest) ∧ f = .literal (.var x)) ∨
      (∃ l, (constant text).value? = some (l, rest) ∧ f = .literal l) ∨
      (negation formula text).value? = some (f, rest) ∨
      (unary formula text).value? = some (f, rest) ∨
      (list formula text).value? = some (f, rest) ∨
      (binary formula text).value? = some (f, rest) ∨
      (temporal formula text).value? = some (f, rest) := by
  rw [value?_formula] at h
  simp only [Option.or_eq_some_iff] at h
  rcases h with hx | ⟨-, hl | ⟨-, hn | ⟨-, hu | ⟨-, hs | ⟨-, hb | ⟨-, ht⟩⟩⟩⟩⟩⟩
  · rw [value?_bind, Option.bind_eq_some_iff] at hx
    obtain ⟨⟨x, last⟩, hx, ⟨⟩⟩ := hx
    exact .inl ⟨x, hx, rfl⟩
  · rw [value?_bind, Option.bind_eq_some_iff] at hl
    obtain ⟨⟨l, last⟩, hl, ⟨⟩⟩ := hl
    exact .inr (.inl ⟨l, hl, rfl⟩)
  · exact .inr (.inr (.inl hn))
  · exact .inr (.inr (.inr (.inl hu)))
  · exact .inr (.inr (.inr (.inr (.inl hs))))
  · exact .inr (.inr (.inr (.inr (.inr (.inl hb)))))
  · exact .inr (.inr (.inr (.inr (.inr (.inr ht)))))

end Choosing

end Rule

section Recognition

theorem Rule.isOk_parse_iff
    {α : Type} {r : Rule α} {text : List Char} :
    (r.parse text).isOk = true ↔ ∃ a, (r text).value? = some (a, []) := by
  simp only [← Rule.parse_eq_ok_iff]
  cases r.parse text <;> simp [Except.isOk, Except.toBool]

theorem Formula.ofText_eq_ok_iff_value?
    {text : String} {f : Formula} :
    Formula.ofText text = .ok f ↔ (Rule.formula text.toList).value? = some (f, []) :=
  ofText_eq_ok_iff_parse.trans Rule.parse_eq_ok_iff

theorem Production.formula_recognizes_iff
    {text : String} :
    Production.formula.recognizes text = true ↔ ∃ f, Formula.ofText text = .ok f := by
  simp only [Formula.ofText_eq_ok_iff_value?]
  exact Rule.isOk_parse_iff

/-- The forms of formulas by their outermost part. -/
def Production.outermost : List Production :=
  [.variable, .constant, .unaryTemporal, .list, .binary, .binaryTemporal]

/-- The rule of the outermost part of a formula reads its text. -/
theorem Production.recognizes_of_ofText
    {text : String} {f : Formula} (h : Formula.ofText text = .ok f) {form : Production}
    (hform : f.production? = some form) :
    form.recognizes text = true := by
  rw [Formula.ofText_eq_ok_iff_value?] at h
  have settle {other : Production} (hother : f.production? = some other) : form = other :=
    Option.some.inj (hform.symm.trans hother)
  rcases Rule.exists_form_of_value?_formula h with
    ⟨x, hx, rfl⟩ | ⟨l, hl, rfl⟩ | hn | hu | hs | hb | ht
  · obtain rfl := settle rfl
    exact Rule.isOk_parse_iff.mpr ⟨x, hx⟩
  · obtain rfl := settle (Rule.production?_of_constant hl)
    exact Rule.isOk_parse_iff.mpr ⟨l, hl⟩
  · rw [Rule.yields_negation _ _ _ hn] at hform
    cases hform
  · obtain rfl := settle (Rule.yields_unary _ _ _ hu)
    exact Rule.isOk_parse_iff.mpr ⟨f, by rw [Rule.recording_eq Rule.guarded_unary, hu]⟩
  · obtain rfl := settle (Rule.yields_list _ _ _ hs)
    exact Rule.isOk_parse_iff.mpr ⟨f, by rw [Rule.recording_eq Rule.guarded_list, hs]⟩
  · obtain rfl := settle (Rule.yields_binary _ _ _ hb)
    exact Rule.isOk_parse_iff.mpr ⟨f, by rw [Rule.recording_eq Rule.guarded_binary, hb]⟩
  · obtain rfl := settle (Rule.yields_temporal _ _ _ ht)
    exact Rule.isOk_parse_iff.mpr ⟨f, by rw [Rule.recording_eq Rule.guarded_temporal, ht]⟩

/-- What the rule of a form reads is read as a formula of this form. -/
theorem Production.exists_ofText_of_recognizes
    {form : Production} (hform : form ∈ outermost) {text : String}
    (h : form.recognizes text = true) :
    ∃ f, Formula.ofText text = .ok f ∧ f.production? = some form := by
  simp only [outermost, List.mem_cons, List.not_mem_nil, or_false] at hform
  simp only [Formula.ofText_eq_ok_iff_value?]
  rcases hform with rfl | rfl | rfl | rfl | rfl | rfl <;>
    obtain ⟨a, ha⟩ := Rule.isOk_parse_iff.mp h
  · exact ⟨_, Rule.value?_formula_of_variable ha, rfl⟩
  · exact ⟨_, Rule.value?_formula_of_constant ha, Rule.production?_of_constant ha⟩
  · rw [Rule.recording_eq Rule.guarded_unary] at ha
    exact ⟨a, Rule.value?_formula_of_unary ha, Rule.yields_unary _ _ _ ha⟩
  · rw [Rule.recording_eq Rule.guarded_list] at ha
    exact ⟨a, Rule.value?_formula_of_list ha, Rule.yields_list _ _ _ ha⟩
  · rw [Rule.recording_eq Rule.guarded_binary] at ha
    exact ⟨a, Rule.value?_formula_of_binary ha, Rule.yields_binary _ _ _ ha⟩
  · rw [Rule.recording_eq Rule.guarded_temporal] at ha
    exact ⟨a, Rule.value?_formula_of_temporal ha, Rule.yields_temporal _ _ _ ha⟩

/-- The rule of a form reads the texts of the formulas whose outermost part is of that form. -/
theorem Production.recognizes_iff
    {form : Production} (hform : form ∈ outermost) {text : String} :
    form.recognizes text = true ↔ ∃ f, Formula.ofText text = .ok f ∧ f.production? = some form :=
  ⟨exists_ofText_of_recognizes hform, fun ⟨_, hf, hp⟩ => recognizes_of_ofText hf hp⟩

end Recognition

end MissionTime

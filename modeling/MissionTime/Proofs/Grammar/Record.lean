import MissionTime.Grammar.Syntax
import Mathlib.Tactic

/-!
# Recorded attempts

The rule of formulas looks up its attempts at shorter texts. It behaves as the alternatives that call
the rule itself: every form reads a character before it asks for a formula inside, and it asks only at
ends of the text.

**Definitions.**
* `Rule.Same`: two rules make the same attempt at a text, and leave an end of it;
* `Rule.SameInside`: two rules that do so at every end of a text;
* `Rule.Guarded`: a form that reads a character before it calls its inner rule.

**Results.**
* `Rule.recording_eq`: a guarded form with recorded attempts is the form over the rule of formulas;
* `Rule.formula_eq`: the rule of formulas is the ordered choice of the forms over itself.
-/

namespace MissionTime

namespace Rule

variable {α β : Type}

section Same

/-- The rules make the same attempt at a text, and leave an end of it. -/
structure Same (r r' : Rule α) (text : List Char) : Prop where
  eq : r text = r' text
  within : ∀ a rest, (r text).value? = some (a, rest) → rest <:+ text

variable {r r' : Rule α} {text : List Char}

theorem same_pure
    (a : α) (text : List Char) :
    Same (pure a) (pure a) text :=
  ⟨rfl, fun _ rest h => by
    obtain ⟨-, rfl⟩ := Prod.mk.inj (Option.some.inj h)
    exact List.suffix_refl text⟩

theorem same_char
    (c : Char) (text : List Char) :
    Same (char c) (char c) text :=
  ⟨rfl, fun _ _ h => ⟨[c], (value?_char_eq_some.mp h).symm⟩⟩

theorem Same.bind
    {next next' : α → Rule β} (h : Same r r' text)
    (hnext : ∀ a rest, (r text).value? = some (a, rest) → Same (next a) (next' a) rest) :
    Same (r >>= next) (r' >>= next') text := by
  refine ⟨?_, ?_⟩
  · have agree := congrArg Attempt.value? h.eq
    cases hr : (r text).value? with
    | none => rw [bind_of_none hr, bind_of_none (agree.symm.trans hr), h.eq]
    | some result =>
        rw [bind_of_some hr, bind_of_some (agree.symm.trans hr), h.eq,
          (hnext result.1 result.2 hr).eq]
  · intro b rest hb
    rw [value?_bind, Option.bind_eq_some_iff] at hb
    obtain ⟨⟨a, middle⟩, ha, hb⟩ := hb
    exact ((hnext a middle ha).within b rest hb).trans (h.within a middle ha)

theorem same_nothing
    (text : List Char) :
    Same (choice [] : Rule α) (choice []) text :=
  ⟨rfl, fun _ _ h => by cases h⟩

theorem Same.or
    {others others' : List (Rule α)} (h : Same r r' text)
    (hothers : Same (choice others) (choice others') text) :
    Same (choice (r :: others)) (choice (r' :: others')) text := by
  refine ⟨?_, ?_⟩
  · have agree := congrArg Attempt.value? h.eq
    cases hr : (r text).value? with
    | none => rw [choice_of_none hr, choice_of_none (agree.symm.trans hr), h.eq, hothers.eq]
    | some result => rw [choice_of_some hr, choice_of_some (agree.symm.trans hr), h.eq]
  · intro a rest ha
    rw [value?_choice_cons, Option.or_eq_some_iff] at ha
    rcases ha with ha | ⟨-, ha⟩
    · exact h.within a rest ha
    · exact hothers.within a rest ha

theorem same_oneOf
    (table : List (Char × α)) (text : List Char) :
    Same (oneOf table) (oneOf table) text :=
  ⟨rfl, fun _ rest h => by
    obtain ⟨c, rfl, -⟩ := value?_oneOf_eq_some.mp h
    exact List.suffix_cons c rest⟩

theorem same_number
    (text : List Char) :
    Same number number text := by
  refine Same.bind ⟨rfl, fun _ rest h => ?_⟩ fun run rest _ => ?_
  · unfold digits at h
    cases hrun : text.takeWhile Char.isDigit with
    | nil => simp [hrun] at h
    | cons c run =>
        simp only [hrun, Option.some.injEq, Prod.mk.injEq] at h
        rw [← h.2]
        exact List.dropWhile_suffix _
  · refine Same.bind ⟨rfl, fun u rest' h => ?_⟩ fun _ _ _ => same_pure _ _
    unfold ensure at h
    split at h
    · exact (same_pure () rest).within u rest' h
    · cases h

theorem same_interval
    (text : List Char) :
    Same interval interval text :=
  (same_char _ _).bind fun _ _ _ => (same_number _).bind fun _ _ _ => (same_char _ _).bind fun _ _ _ =>
    (same_number _).bind fun _ _ _ => (same_char _ _).bind fun _ _ _ => same_pure _ _

theorem same_variableName
    (text : List Char) :
    Same variableName variableName text :=
  (same_char _ _).bind fun _ _ _ => (same_number _).bind fun _ _ _ => same_pure _ _

theorem same_letter
    (text : List Char) :
    Same letter letter text := by
  refine (same_char _ _).bind fun _ rest _ => ⟨rfl, fun u last h => ?_⟩
  unfold unlessAhead at h
  split at h
  · cases h
  · exact (same_pure () rest).within u last h

theorem same_constant
    (text : List Char) :
    Same constant constant text := by
  refine (same_oneOf _ _).or (Same.or ?_ (same_nothing _))
  exact ((same_char _ _).or ((same_letter _).or (same_nothing _))).bind fun _ _ _ => same_pure _ _

end Same

section Guarded

variable {inner inner' : Rule Formula} {text : List Char}

/-- The rules agree at every end of a text. -/
def SameInside (inner inner' : Rule Formula) (text : List Char) : Prop :=
  ∀ rest, rest <:+ text → Same inner inner' rest

theorem SameInside.here
    (h : SameInside inner inner' text) :
    Same inner inner' text :=
  h text (List.suffix_refl text)

/-- What a rule leaves is an end of the text, so inner rules still agree there. -/
theorem SameInside.behind
    {r : Rule α} (h : SameInside inner inner' text) (hr : Same r r text) {a : α}
    {rest : List Char} (ha : (r text).value? = some (a, rest)) :
    SameInside inner inner' rest :=
  fun last hlast => h last (hlast.trans (hr.within a rest ha))

theorem SameInside.behind_inner
    (h : SameInside inner inner' text) {f : Formula} {rest : List Char}
    (hf : (inner text).value? = some (f, rest)) :
    SameInside inner inner' rest :=
  fun last hlast => h last (hlast.trans (h.here.within f rest hf))

/-- A form that reads a character before it calls its inner rule. -/
def Guarded (form : Rule Formula → Rule α) : Prop :=
  ∀ (inner inner' : Rule Formula) (text : List Char),
    (∀ c rest, text = c :: rest → SameInside inner inner' rest) → Same (form inner) (form inner') text

theorem guarded_char
    (c : Char) {next : Rule Formula → Rule α}
    (h : ∀ inner inner' rest, SameInside inner inner' rest → Same (next inner) (next inner') rest) :
    Guarded fun inner => char c >>= fun _ => next inner :=
  fun inner inner' text hinside => (same_char c text).bind fun _ rest hrest =>
    h inner inner' rest (hinside c rest (value?_char_eq_some.mp hrest))

theorem guarded_negation :
    Guarded negation :=
  guarded_char '~' fun _ _ _ h => h.here.bind fun _ _ _ => same_pure _ _

theorem guarded_unary :
    Guarded unary := by
  intro inner inner' text hinside
  refine (same_oneOf _ _).bind fun op rest hop => ?_
  obtain ⟨c, rfl, -⟩ := value?_oneOf_eq_some.mp hop
  refine (same_interval rest).bind fun int last hint => ?_
  have hlast := (hinside c rest rfl).behind (same_interval rest) hint
  exact hlast.here.bind fun _ _ _ => same_pure _ _

theorem SameInside.further
    (h : SameInside inner inner' text) (separator : Char) (rounds : Nat) :
    Same (further inner (char separator) rounds) (further inner' (char separator) rounds) text := by
  induction rounds generalizing text with
  | zero => exact same_pure _ _
  | succ rounds ih =>
      refine Same.or ?_ ((same_pure _ _).or (same_nothing _))
      refine (same_char _ _).bind fun _ rest hrest => ?_
      have hrest := h.behind (same_char separator text) hrest
      refine hrest.here.bind fun f last hf => ?_
      exact (ih (hrest.behind_inner hf)).bind fun _ _ _ => same_pure _ _

theorem SameInside.separated
    (h : SameInside inner inner' text) (separator : Char) :
    Same (separated inner (char separator)) (separated inner' (char separator)) text := by
  have both := h.here.bind fun f rest hf =>
    ((h.behind_inner hf).further separator (text.length + 1)).bind fun others last _ =>
      same_pure (f :: others) last
  exact ⟨both.eq, both.within⟩

theorem guarded_list :
    Guarded list := by
  refine guarded_char '(' fun inner inner' text h => ?_
  refine (same_oneOf _ _).bind fun op rest hop => ?_
  have hrest := h.behind (same_oneOf _ text) hop
  refine (same_char _ _).bind fun _ last hlast => ?_
  have hlast := hrest.behind (same_char _ rest) hlast
  exact (hlast.separated ',').bind fun _ _ _ => (same_char _ _).bind fun _ _ _ =>
    (same_char _ _).bind fun _ _ _ => same_pure _ _

theorem guarded_binary :
    Guarded binary := by
  refine guarded_char '(' fun inner inner' text h => ?_
  refine h.here.bind fun lhs rest hlhs => ?_
  refine (same_oneOf _ _).bind fun op last hop => ?_
  have hlast := (h.behind_inner hlhs).behind (same_oneOf _ rest) hop
  exact hlast.here.bind fun _ _ _ => (same_char _ _).bind fun _ _ _ => same_pure _ _

theorem guarded_temporal :
    Guarded temporal := by
  refine guarded_char '(' fun inner inner' text h => ?_
  refine h.here.bind fun lhs rest hlhs => ?_
  refine (same_oneOf _ _).bind fun op middle hop => ?_
  have hmiddle := (h.behind_inner hlhs).behind (same_oneOf _ rest) hop
  refine (same_interval middle).bind fun int last hint => ?_
  have hlast := hmiddle.behind (same_interval middle) hint
  exact hlast.here.bind fun _ _ _ => (same_char _ _).bind fun _ _ _ => same_pure _ _

theorem guarded_alternatives :
    Guarded alternatives := by
  intro inner inner' text h
  refine ((same_variableName text).bind fun _ _ _ => same_pure _ _).or ?_
  refine ((same_constant text).bind fun _ _ _ => same_pure _ _).or ?_
  exact (guarded_negation _ _ _ h).or ((guarded_unary _ _ _ h).or ((guarded_list _ _ _ h).or
    ((guarded_binary _ _ _ h).or ((guarded_temporal _ _ _ h).or (same_nothing text)))))

end Guarded

section Record

theorem size_record
    (text : List Char) :
    (record text).size = text.length + 1 := by
  induction text with
  | nil => rfl
  | cons c text ih => rw [record, Array.size_push, ih, List.length_cons]

/-- The record of a text holds the records of its ends. -/
theorem lookup_record_of_suffix
    {text rest : List Char} (h : rest <:+ text) :
    lookup (record text) rest = formula rest := by
  induction text with
  | nil =>
      obtain rfl := List.suffix_nil.mp h
      rfl
  | cons c text ih =>
      rcases List.suffix_cons_iff.mp h with rfl | h
      · rfl
      · have shorter : rest.length ≠ (record text).size := by
          have := h.length_le
          rw [size_record]
          omega
        rw [← ih h, lookup, lookup, record, Array.getElem?_push, if_neg shorter]

/-- The attempt at a text is made by the alternatives with the record of the next shorter text. -/
theorem formula_cons
    (c : Char) (rest : List Char) :
    formula (c :: rest) = alternatives (lookup (record rest)) (c :: rest) := by
  change lookup (record (c :: rest)) (c :: rest) = _
  rw [lookup, record, Array.getElem?_push, size_record, List.length_cons, if_pos rfl]
  rfl

/-- The attempts at the ends of a text leave ends of these. -/
theorem within_formula
    (text : List Char) :
    ∀ rest, rest <:+ text → ∀ f last, (formula rest).value? = some (f, last) → last <:+ rest := by
  induction text with
  | nil =>
      intro rest h
      obtain rfl := List.suffix_nil.mp h
      exact (guarded_alternatives (lookup #[]) (lookup #[]) [] nofun).within
  | cons c text ih =>
      intro rest h
      rcases List.suffix_cons_iff.mp h with rfl | h
      · rw [formula_cons]
        refine (guarded_alternatives (lookup (record text)) (lookup (record text)) _ ?_).within
        rintro _ _ ⟨⟩ rest hrest
        refine ⟨rfl, ?_⟩
        rw [lookup_record_of_suffix hrest]
        exact ih rest hrest
      · exact ih rest h

theorem sameInside_lookup
    (text : List Char) :
    SameInside (lookup (record text)) formula text := by
  intro rest hrest
  refine ⟨lookup_record_of_suffix hrest, ?_⟩
  rw [lookup_record_of_suffix hrest]
  exact within_formula text rest hrest

/-- A guarded form with recorded attempts is the form over the rule of formulas. -/
theorem recording_eq
    {form : Rule Formula → Rule α} (h : Guarded form) :
    recording form = form formula := by
  funext text
  refine (h _ _ text ?_).eq
  rintro c rest rfl last hlast
  exact sameInside_lookup (c :: rest) last (hlast.trans (List.suffix_cons c rest))

/-- The rule of formulas is the ordered choice of the forms over itself. -/
theorem formula_eq :
    formula = alternatives formula := by
  funext text
  cases text with
  | nil => exact (guarded_alternatives (lookup #[]) formula [] nofun).eq
  | cons c rest =>
      rw [formula_cons]
      refine (guarded_alternatives _ _ _ ?_).eq
      rintro _ _ ⟨⟩
      exact sameInside_lookup rest

end Record

end Rule

end MissionTime

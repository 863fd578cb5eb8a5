import MissionTime.Proofs.Grammar.Numbers
import MissionTime.Proofs.Grammar.Printing

/-!
# Beginnings of formulas

The grammar of written formulas with numbers of any size, and the texts that begin one of its
formulas. A beginning whose own numbers are small can also be continued without large numbers: the runs
of digits behind it are cut down to one digit each, and this keeps a formula a formula.

**Definitions.**
* `Grammatical`: the text is a formula, with numbers of any size;
* `Extendable`: the text can be extended to a formula.

**Results.**
* `Derivation.grammatical` and `Grammatical.exists_derivation`: the derived texts are the formulas
  with small numbers;
* `Grammatical.abridged`: an abridged formula is a formula;
* `Extendable.exists_derivation`: a beginning with small numbers begins a derived text.
-/

namespace MissionTime

section Grammar

/-- A run of digits, leading zeros allowed. -/
def IsNumber (digits : List Char) : Prop :=
  digits ≠ [] ∧ ∀ c ∈ digits, c.isDigit = true

/-- Two numbers in brackets. -/
inductive IsWindow : List Char → Prop
  | intro {lower upper : List Char} (hlower : IsNumber lower) (hupper : IsNumber upper) :
      IsWindow ('[' :: (lower ++ ',' :: (upper ++ [']'])))

/-- The texts of formulas, with numbers of any size. -/
inductive Grammatical : List Char → Prop
  | var {digits : List Char} (index : IsNumber digits) : Grammatical ('p' :: digits)
  | top : Grammatical ['T']
  | mark : Grammatical ['!']
  | letter : Grammatical ['F']
  | neg {sub : List Char} (hsub : Grammatical sub) : Grammatical ('~' :: sub)
  | unary (op : UnaryOp) {w sub : List Char} (hw : IsWindow w) (hsub : Grammatical sub) :
      Grammatical (op.symbol :: (w ++ sub))
  | list (op : ListOp) {subs : List (List Char)} (nonempty : subs ≠ [])
      (hsubs : ∀ sub ∈ subs, Grammatical sub) :
      Grammatical ('(' :: op.symbol :: '[' :: (joinCommas subs ++ [']', ')']))
  | binary {lhs rhs : List Char} (hlhs : Grammatical lhs) (op : BinaryOp)
      (hrhs : Grammatical rhs) :
      Grammatical ('(' :: (lhs ++ op.symbol :: (rhs ++ [')'])))
  | temporal {lhs w rhs : List Char} (hlhs : Grammatical lhs) (op : TemporalOp) (hw : IsWindow w)
      (hrhs : Grammatical rhs) :
      Grammatical ('(' :: (lhs ++ op.symbol :: (w ++ (rhs ++ [')']))))

/-- The text can be extended to the text of a formula. -/
def Extendable (text : List Char) : Prop :=
  ∃ rest, Grammatical (text ++ rest)

theorem Grammatical.extendable
    {text : List Char} (h : Grammatical text) :
    Extendable text :=
  ⟨[], by rwa [List.append_nil]⟩

theorem Extendable.of_append
    {u v : List Char} (h : Extendable (u ++ v)) :
    Extendable u := by
  obtain ⟨rest, hrest⟩ := h
  exact ⟨v ++ rest, by rwa [← List.append_assoc]⟩

theorem Extendable.of_isPrefix
    {u text : List Char} (h : Extendable text) (hu : u <+: text) :
    Extendable u := by
  obtain ⟨v, rfl⟩ := hu
  exact h.of_append

end Grammar

section Derivations

theorem Numeral.isNumber
    (n : Numeral) :
    IsNumber n.digits :=
  ⟨n.nonempty, n.digital⟩

theorem Window.isWindow
    (w : Window) :
    IsWindow w.chars :=
  .intro w.lower.isNumber w.upper.isNumber

/-- A derived text is a formula. -/
theorem Derivation.grammatical
    (d : Derivation) :
    Grammatical d.chars := by
  induction d with
  | var index => exact .var index.isNumber
  | top => exact .top
  | mark => exact .mark
  | letter => exact .letter
  | neg sub ih => exact .neg ih
  | unary op w sub ih => exact .unary op w.isWindow ih
  | list op first rest ihf ihr =>
      have members : ∀ sub ∈ (first :: rest).map Derivation.chars, Grammatical sub := by
        intro sub hsub
        obtain ⟨d, hd, rfl⟩ := List.mem_map.mp hsub
        rcases List.mem_cons.mp hd with rfl | hd
        · exact ihf
        · exact ihr d hd
      have whole := Grammatical.list op (by simp) members
      rwa [joinCommas_chars, List.append_assoc] at whole
  | binary lhs op rhs ihl ihr => exact .binary ihl op ihr
  | temporal lhs op w rhs ihl ihr => exact .temporal ihl op w.isWindow ihr

theorem isInfix_joinCommas
    {sub : List Char} {subs : List (List Char)} (h : sub ∈ subs) :
    sub <:+: joinCommas subs := by
  induction subs with
  | nil => cases h
  | cons part parts ih =>
      cases parts with
      | nil =>
          obtain rfl := List.mem_singleton.mp h
          rw [joinCommas_singleton]
      | cons next parts =>
          rw [joinCommas_cons_cons]
          rcases List.mem_cons.mp h with rfl | h
          · exact (List.prefix_append _ _).isInfix
          · exact (List.infix_cons (ih h)).trans (List.suffix_append _ _).isInfix

theorem IsNumber.exists_numeral
    {digits : List Char} (h : IsNumber digits) (small : SmallNumbers digits) :
    ∃ n : Numeral, n.digits = digits :=
  ⟨⟨digits, h.1, h.2, smallNumbers_iff.mp small digits List.infix_rfl h.2⟩, rfl⟩

theorem IsWindow.exists_window
    {text : List Char} (h : IsWindow text) (small : SmallNumbers text) :
    ∃ w : Window, w.chars = text := by
  cases h with
  | @intro lower upper hlower hupper =>
      obtain ⟨a, rfl⟩ := hlower.exists_numeral
        (small.of_isInfix ⟨['['], ',' :: (upper ++ [']']), by simp⟩)
      obtain ⟨b, rfl⟩ := hupper.exists_numeral
        (small.of_isInfix ⟨'[' :: (a.digits ++ [',']), [']'], by simp⟩)
      exact ⟨⟨a, b⟩, rfl⟩

/-- A formula with small numbers is derived. -/
theorem Grammatical.exists_derivation
    {text : List Char} (h : Grammatical text) (small : SmallNumbers text) :
    ∃ d : Derivation, d.chars = text := by
  induction h with
  | @var digits index =>
      obtain ⟨n, rfl⟩ := index.exists_numeral (small.of_isInfix ⟨['p'], [], by simp⟩)
      exact ⟨.var n, rfl⟩
  | top => exact ⟨.top, rfl⟩
  | mark => exact ⟨.mark, rfl⟩
  | letter => exact ⟨.letter, rfl⟩
  | @neg sub _ ih =>
      obtain ⟨d, rfl⟩ := ih (small.of_isInfix ⟨['~'], [], by simp⟩)
      exact ⟨.neg d, rfl⟩
  | @unary op text sub hw _ ih =>
      obtain ⟨w, rfl⟩ := hw.exists_window (small.of_isInfix ⟨[op.symbol], sub, by simp⟩)
      obtain ⟨d, rfl⟩ := ih (small.of_isInfix ⟨op.symbol :: w.chars, [], by simp⟩)
      exact ⟨.unary op w d, rfl⟩
  | @list op subs nonempty _ ih =>
      have inside : joinCommas subs <:+: '(' :: op.symbol :: '[' :: (joinCommas subs ++ [']', ')']) :=
        ⟨['(', op.symbol, '['], [']', ')'], by simp⟩
      have derived : subs ∈ Set.range (List.map Derivation.chars) := by
        rw [Set.range_list_map]
        exact fun sub hsub => ih sub hsub (small.of_isInfix ((isInfix_joinCommas hsub).trans inside))
      obtain ⟨ds, rfl⟩ := derived
      cases ds with
      | nil => exact absurd rfl nonempty
      | cons first rest =>
          refine ⟨.list op first rest, ?_⟩
          rw [Derivation.joinCommas_chars, List.append_assoc]
          rfl
  | @binary lhs rhs _ op _ ihl ihr =>
      obtain ⟨d, rfl⟩ := ihl (small.of_isInfix ⟨['('], op.symbol :: (rhs ++ [')']), by simp⟩)
      obtain ⟨e, rfl⟩ := ihr (small.of_isInfix ⟨'(' :: (d.chars ++ [op.symbol]), [')'], by simp⟩)
      exact ⟨.binary d op e, rfl⟩
  | @temporal lhs text rhs _ op hw _ ihl ihr =>
      obtain ⟨d, rfl⟩ :=
        ihl (small.of_isInfix ⟨['('], op.symbol :: (text ++ (rhs ++ [')'])), by simp⟩)
      obtain ⟨w, rfl⟩ := hw.exists_window
        (small.of_isInfix ⟨'(' :: (d.chars ++ [op.symbol]), rhs ++ [')'], by simp⟩)
      obtain ⟨e, rfl⟩ :=
        ihr (small.of_isInfix ⟨'(' :: (d.chars ++ op.symbol :: w.chars), [')'], by simp⟩)
      exact ⟨.temporal d op w e, rfl⟩

end Derivations

section Abridging

theorem IsNumber.abridged
    {digits : List Char} (h : IsNumber digits) (kept : Nat) :
    IsNumber (abridge kept false digits) := by
  refine ⟨?_, fun c hc => h.2 c ((abridge_sublist digits kept false).subset hc)⟩
  rw [ne_eq, abridge_eq_nil_iff]
  exact h.1

/-- An abridged window is a window, and what stands behind it is abridged for itself. -/
theorem IsWindow.abridged_append
    {w : List Char} (h : IsWindow w) (rest : List Char) (kept : Nat) :
    ∃ w' kept', IsWindow w' ∧ abridge kept false (w ++ rest) = w' ++ abridge kept' false rest := by
  cases h with
  | @intro lower upper hlower hupper =>
      rw [List.cons_append, List.append_assoc, List.cons_append, List.append_assoc,
        abridge_of_not_digit (by decide)]
      obtain ⟨k, hk⟩ := abridge_append (c := ',') (by decide) lower
        (upper ++ ([']'] ++ rest)) (kept - 1) false
      obtain ⟨l, hl⟩ := abridge_append (c := ']') (by decide) upper rest k false
      refine ⟨_, l, .intro (hlower.abridged (kept - 1)) (hupper.abridged k), ?_⟩
      simp only [List.singleton_append] at hk
      simp [hk, hl]

theorem abridge_joinCommas
    {subs : List (List Char)} (nonempty : subs ≠ [])
    (h : ∀ sub ∈ subs, ∀ kept, Grammatical (abridge kept false sub)) (kept : Nat) :
    ∃ subs', subs' ≠ [] ∧ (∀ sub ∈ subs', Grammatical sub) ∧
      abridge kept false (joinCommas subs) = joinCommas subs' := by
  induction subs generalizing kept with
  | nil => exact absurd rfl nonempty
  | cons first rest ih =>
      have head := h first List.mem_cons_self kept
      cases rest with
      | nil => exact ⟨[abridge kept false first], by simp, by simpa using head, by simp⟩
      | cons next rest =>
          obtain ⟨k, hk⟩ := abridge_append (c := ',') (by decide) first
            (joinCommas (next :: rest)) kept false
          obtain ⟨subs', hne, members, hrest⟩ :=
            ih (by simp) (fun sub hsub => h sub (List.mem_cons_of_mem _ hsub)) k
          obtain ⟨second, others, rfl⟩ := List.exists_cons_of_ne_nil hne
          refine ⟨abridge kept false first :: second :: others, by simp, ?_, ?_⟩
          · exact List.forall_mem_cons.mpr ⟨head, members⟩
          · rw [joinCommas_cons_cons, joinCommas_cons_cons, hk, hrest]

theorem BinaryOp.not_digit_symbol
    (op : BinaryOp) :
    op.symbol.isDigit = false := by
  cases op <;> decide

theorem ListOp.not_digit_symbol
    (op : ListOp) :
    op.symbol.isDigit = false :=
  op.toBinary.not_digit_symbol

theorem TemporalOp.not_digit_symbol
    (op : TemporalOp) :
    op.symbol.isDigit = false := by
  cases op <;> decide

theorem UnaryOp.not_digit_symbol
    (op : UnaryOp) :
    op.symbol.isDigit = false := by
  cases op <;> decide

/-- A formula whose later numbers are cut down is a formula. -/
theorem Grammatical.abridged
    {text : List Char} (h : Grammatical text) (kept : Nat) :
    Grammatical (abridge kept false text) := by
  induction h generalizing kept with
  | var index =>
      rw [abridge_of_not_digit (by decide)]
      exact .var (index.abridged _)
  | top =>
      rw [abridge_of_not_digit (by decide)]
      exact .top
  | mark =>
      rw [abridge_of_not_digit (by decide)]
      exact .mark
  | letter =>
      rw [abridge_of_not_digit (by decide)]
      exact .letter
  | neg _ ih =>
      rw [abridge_of_not_digit (by decide)]
      exact .neg (ih _)
  | @unary op w sub hw _ ih =>
      rw [abridge_of_not_digit op.not_digit_symbol]
      obtain ⟨w', k, hw', htext⟩ := hw.abridged_append sub (kept - 1)
      rw [htext]
      exact .unary op hw' (ih k)
  | @list op subs nonempty _ ih =>
      rw [abridge_of_not_digit (by decide), abridge_of_not_digit op.not_digit_symbol,
        abridge_of_not_digit (by decide)]
      obtain ⟨k, hk⟩ := abridge_append (c := ']') (by decide) (joinCommas subs) [')']
        (kept - 1 - 1 - 1) false
      obtain ⟨subs', hne, members, hsubs⟩ := abridge_joinCommas nonempty ih (kept - 1 - 1 - 1)
      rw [hk, hsubs, abridge_of_not_digit (by decide)]
      exact .list op hne members
  | @binary lhs rhs _ op _ ihl ihr =>
      rw [abridge_of_not_digit (by decide)]
      obtain ⟨k, hk⟩ := abridge_append op.not_digit_symbol lhs (rhs ++ [')']) (kept - 1) false
      obtain ⟨l, hl⟩ := abridge_append (c := ')') (by decide) rhs [] k false
      rw [hk, hl]
      exact .binary (ihl _) op (ihr _)
  | @temporal lhs w rhs _ op hw _ ihl ihr =>
      rw [abridge_of_not_digit (by decide)]
      obtain ⟨k, hk⟩ :=
        abridge_append op.not_digit_symbol lhs (w ++ (rhs ++ [')'])) (kept - 1) false
      obtain ⟨w', l, hw', htext⟩ := hw.abridged_append (rhs ++ [')']) k
      obtain ⟨m, hm⟩ := abridge_append (c := ')') (by decide) rhs [] l false
      rw [hk, htext, hm]
      exact .temporal (ihl _) op hw' (ihr _)

/-- A beginning of a formula that has small numbers itself begins a derived text. -/
theorem Extendable.exists_derivation
    {u : List Char} (h : Extendable u) (small : SmallNumbers u) :
    ∃ (d : Derivation) (v : List Char), d.chars = u ++ v := by
  obtain ⟨rest, hrest⟩ := h
  obtain ⟨v, hv, smallNumbers⟩ := small.abridge_append rest
  have shorter := hrest.abridged u.length
  rw [hv] at shorter
  obtain ⟨d, hd⟩ := shorter.exists_derivation smallNumbers
  exact ⟨d, v, hd⟩

end Abridging

end MissionTime

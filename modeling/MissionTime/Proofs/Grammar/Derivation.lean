import MissionTime.Capped
import MissionTime.Grammar.Production
import Mathlib.Tactic

/-!
# Derivations of formulas

The grammar of written formulas, independent of any reader. With `N` a number and `I` for `[N,N]`,

    W ::= pN | T | ! | F | ~W | FI W | GI W | (∘[W,…,W]) | (W∘W) | (W U I W) | (W R I W)

where `∘` is one of the connectives and a list has at least one member. A derivation is a tree with
one constructor for each production. It has a text and a formula.

**Definitions.**
* `Numeral`: a run of digits whose value may stand in a text, and `Window`, two of them in brackets;
* `Derivation`, its text `Derivation.chars` and its syntax tree `Derivation.formula`;
* `Derivation.production?`: the production at the root;
* `Stops`: what may follow a formula without being read as a part of it.

**Results.**
* `Derivation.determined`: a derivation is determined by its text, wherever the text is continued, as
  long as it may stop there;
* `Derivation.chars_injective`: the grammar is unambiguous.
-/

namespace MissionTime

section Symbols

theorem UnaryOp.symbol_injective
    {op op' : UnaryOp} (h : op.symbol = op'.symbol) :
    op = op' := by
  revert h
  cases op <;> cases op' <;> decide

theorem TemporalOp.symbol_injective
    {op op' : TemporalOp} (h : op.symbol = op'.symbol) :
    op = op' := by
  revert h
  cases op <;> cases op' <;> decide

theorem BinaryOp.symbol_injective
    {op op' : BinaryOp} (h : op.symbol = op'.symbol) :
    op = op' := by
  revert h
  cases op <;> cases op' <;> decide

theorem ListOp.symbol_injective
    {op op' : ListOp} (h : op.symbol = op'.symbol) :
    op = op' := by
  revert h
  cases op <;> cases op' <;> decide

theorem UnaryOp.ne_symbol
    (op : UnaryOp) {c : Char} (hF : c ≠ 'F') (hG : c ≠ 'G') :
    c ≠ op.symbol := by
  cases op
  · exact hF
  · exact hG

theorem BinaryOp.symbol_ne_temporal
    (op : BinaryOp) (op' : TemporalOp) :
    op.symbol ≠ op'.symbol := by
  cases op <;> cases op' <;> decide

end Symbols

/-- A run of digits, leading zeros allowed, whose value is not too large. -/
structure Numeral where
  digits : List Char
  nonempty : digits ≠ []
  digital : ∀ c ∈ digits, c.isDigit = true
  small : Nat.ofDigitChars 10 digits 0 ≤ largest

/-- The number that the digits denote. -/
def Numeral.value (n : Numeral) : Nat :=
  Nat.ofDigitChars 10 n.digits 0

theorem Numeral.ext
    {m n : Numeral} (h : m.digits = n.digits) :
    m = n := by
  cases m
  cases n
  congr

/-- The two bounds of an interval. -/
structure Window where
  lower : Numeral
  upper : Numeral

namespace Window

/-- The text `[a,b]`. -/
def chars (w : Window) : List Char :=
  '[' :: (w.lower.digits ++ ',' :: (w.upper.digits ++ [']']))

/-- The interval between the bounds. -/
def interval (w : Window) : Interval :=
  ⟨w.lower.value, w.upper.value⟩

end Window

/-- The form of a formula by its outermost part; a negation has none of its own. -/
def Formula.production? : Formula → Option Production
  | .literal (.var _) => some .variable
  | .literal _ => some .constant
  | .neg _ => none
  | .unary .. => some .unaryTemporal
  | .temporal .. => some .binaryTemporal
  | .binary .. => some .binary
  | .list .. => some .list

/-- A derivation of a formula, one constructor for each production. -/
inductive Derivation
  | var (index : Numeral)
  | top
  | mark
  | letter
  | neg (sub : Derivation)
  | unary (op : UnaryOp) (w : Window) (sub : Derivation)
  | list (op : ListOp) (first : Derivation) (rest : List Derivation)
  | binary (lhs : Derivation) (op : BinaryOp) (rhs : Derivation)
  | temporal (lhs : Derivation) (op : TemporalOp) (w : Window) (rhs : Derivation)

namespace Derivation

/-- Induction on derivations with one hypothesis for every member of a list. -/
@[elab_as_elim, induction_eliminator]
theorem induct
    {motive : Derivation → Prop}
    (var : ∀ index, motive (.var index))
    (top : motive .top)
    (mark : motive .mark)
    (letter : motive .letter)
    (neg : ∀ sub, motive sub → motive (.neg sub))
    (unary : ∀ op w sub, motive sub → motive (.unary op w sub))
    (list : ∀ op first rest, motive first → (∀ d ∈ rest, motive d) →
      motive (.list op first rest))
    (binary : ∀ lhs op rhs, motive lhs → motive rhs → motive (.binary lhs op rhs))
    (temporal : ∀ lhs op w rhs, motive lhs → motive rhs → motive (.temporal lhs op w rhs))
    (d : Derivation) :
    motive d :=
  @Derivation.rec motive (fun rest => ∀ d ∈ rest, motive d)
    var top mark letter neg unary list binary temporal
    (by simp)
    (fun _ _ head tail => by simpa using ⟨head, tail⟩)
    d

section Texts

mutual

/-- The derived text. -/
def chars : Derivation → List Char
  | .var index => 'p' :: index.digits
  | .top => ['T']
  | .mark => ['!']
  | .letter => ['F']
  | .neg sub => '~' :: chars sub
  | .unary op w sub => op.symbol :: (w.chars ++ chars sub)
  | .list op first rest =>
    '(' :: op.symbol :: '[' :: (chars first ++ (charsOfRest rest ++ [']', ')']))
  | .binary lhs op rhs => '(' :: (chars lhs ++ op.symbol :: (chars rhs ++ [')']))
  | .temporal lhs op w rhs =>
    '(' :: (chars lhs ++ op.symbol :: (w.chars ++ (chars rhs ++ [')'])))

/-- The texts of further members of a list, each behind a comma. -/
def charsOfRest : List Derivation → List Char
  | [] => []
  | d :: rest => ',' :: (chars d ++ charsOfRest rest)

end

mutual

/-- The syntax tree. -/
def formula : Derivation → Formula
  | .var index => .var index.value
  | .top => .literal .top
  | .mark => .literal .bot
  | .letter => .literal .bot
  | .neg sub => .neg (formula sub)
  | .unary op w sub => .unary op w.interval (formula sub)
  | .list op first rest => .list op (formula first :: formulas rest)
  | .binary lhs op rhs => .binary (formula lhs) op (formula rhs)
  | .temporal lhs op w rhs => .temporal (formula lhs) op w.interval (formula rhs)

/-- The syntax trees of further members of a list. -/
def formulas : List Derivation → List Formula
  | [] => []
  | d :: rest => formula d :: formulas rest

end

@[simp] theorem formulas_eq_map
    (rest : List Derivation) :
    formulas rest = rest.map formula := by
  induction rest with
  | nil => rfl
  | cons d rest ih => simp [formulas, ih]

@[simp] theorem formula_list
    (op : ListOp) (first : Derivation) (rest : List Derivation) :
    (list op first rest).formula = .list op (first.formula :: rest.map formula) := by
  rw [formula, formulas_eq_map]

theorem unary_append
    (op : UnaryOp) (w : Window) (sub : Derivation) (u : List Char) :
    (unary op w sub).chars ++ u = op.symbol :: (w.chars ++ (sub.chars ++ u)) := by
  simp [chars]

theorem list_append
    (op : ListOp) (first : Derivation) (rest : List Derivation) (u : List Char) :
    (list op first rest).chars ++ u =
      '(' :: op.symbol :: '[' :: (first.chars ++ (charsOfRest rest ++ ']' :: ')' :: u)) := by
  simp [chars]

theorem binary_append
    (lhs : Derivation) (op : BinaryOp) (rhs : Derivation) (u : List Char) :
    (binary lhs op rhs).chars ++ u =
      '(' :: (lhs.chars ++ op.symbol :: (rhs.chars ++ ')' :: u)) := by
  simp [chars]

theorem temporal_append
    (lhs : Derivation) (op : TemporalOp) (w : Window) (rhs : Derivation) (u : List Char) :
    (temporal lhs op w rhs).chars ++ u =
      '(' :: (lhs.chars ++ op.symbol :: (w.chars ++ (rhs.chars ++ ')' :: u))) := by
  simp [chars]

/-- The production at the root; a negation has none of its own. -/
def production? : Derivation → Option Production
  | .var _ => some .variable
  | .top => some .constant
  | .mark => some .constant
  | .letter => some .constant
  | .neg _ => none
  | .unary .. => some .unaryTemporal
  | .list .. => some .list
  | .binary .. => some .binary
  | .temporal .. => some .binaryTemporal

theorem production?_formula
    (d : Derivation) :
    d.formula.production? = d.production? := by
  cases d <;> rfl

end Texts

section Ambiguity

/-- The text goes on with neither a digit nor a bracket. -/
def Stops (rest : List Char) : Prop :=
  ∀ c ∈ rest.head?, c.isDigit = false ∧ c ≠ '['

theorem stops_cons
    {c : Char} (hdigit : c.isDigit = false) (hbracket : c ≠ '[') (rest : List Char) :
    Stops (c :: rest) := by
  intro c' hc'
  obtain rfl := Option.some.inj hc'
  exact ⟨hdigit, hbracket⟩

theorem stops_nil :
    Stops [] := by
  intro c hc
  cases hc

theorem stops_close
    (rest : List Char) :
    Stops (')' :: rest) :=
  stops_cons (by decide) (by decide) rest

theorem stops_rest
    (rest : List Derivation) (u : List Char) :
    Stops (charsOfRest rest ++ ']' :: u) := by
  cases rest with
  | nil => exact stops_cons (by decide) (by decide) u
  | cons d rest => exact stops_cons (by decide) (by decide) _

theorem stops_binary
    (op : BinaryOp) (u : List Char) :
    Stops (op.symbol :: u) := by
  cases op <;> exact stops_cons (by decide) (by decide) u

theorem stops_temporal
    (op : TemporalOp) (u : List Char) :
    Stops (op.symbol :: u) := by
  cases op <;> exact stops_cons (by decide) (by decide) u

/-- Digits end where the text stops. -/
theorem digits_append_inj
    {m n : Numeral} {u v : List Char} (hu : ∀ c ∈ u.head?, c.isDigit = false)
    (hv : ∀ c ∈ v.head?, c.isDigit = false) (h : m.digits ++ u = n.digits ++ v) :
    m = n ∧ u = v := by
  have ends : ∀ {rest : List Char}, (∀ c ∈ rest.head?, c.isDigit = false) →
      rest.takeWhile Char.isDigit = [] := by
    intro rest hrest
    cases rest with
    | nil => rfl
    | cons c rest => exact List.takeWhile_cons_of_neg (by simp [hrest c rfl])
  have runs := congrArg (List.takeWhile Char.isDigit) h
  rw [List.takeWhile_append_of_pos m.digital, List.takeWhile_append_of_pos n.digital, ends hu,
    ends hv, List.append_nil, List.append_nil] at runs
  rw [runs] at h
  exact ⟨Numeral.ext runs, List.append_cancel_left h⟩

theorem window_append_inj
    {w w' : Window} {u v : List Char} (h : w.chars ++ u = w'.chars ++ v) :
    w = w' ∧ u = v := by
  simp only [Window.chars, List.cons_append, List.append_assoc, List.cons.injEq, true_and] at h
  obtain ⟨hlower, htail⟩ := digits_append_inj (by simp) (by simp) h
  obtain ⟨hupper, hrest⟩ := digits_append_inj (by simp) (by simp) (List.cons.inj htail).2
  refine ⟨?_, (List.cons.inj hrest).2⟩
  cases w
  cases w'
  rw [Window.mk.injEq]
  exact ⟨hlower, hupper⟩

theorem not_stops_window
    (w : Window) (u : List Char) :
    ¬ Stops (w.chars ++ u) :=
  fun h => (h '[' rfl).2 rfl

/-- What one derivation derives is determined by its beginning, wherever it is continued. -/
def Determined (d : Derivation) : Prop :=
  ∀ (d' : Derivation) (u v : List Char), Stops u → Stops v → d.chars ++ u = d'.chars ++ v →
    d = d' ∧ u = v

/-- A formula does not begin with a connective. -/
theorem chars_ne_symbol_cons
    (d : Derivation) (op : ListOp) (u v : List Char) :
    d.chars ++ u ≠ op.symbol :: v := by
  cases d with
  | unary op' => cases op' <;> cases op <;> simp [chars, UnaryOp.symbol, ListOp.symbol,
      ListOp.toBinary, BinaryOp.symbol]
  | _ => cases op <;> simp [chars, ListOp.symbol, ListOp.toBinary, BinaryOp.symbol]

/-- The members of a list are determined one after the other, each by the comma or the bracket behind
it. -/
theorem charsOfRest_append_inj
    {rest rest' : List Derivation} (hrest : ∀ d ∈ rest, Determined d) {u v : List Char}
    (h : charsOfRest rest ++ ']' :: u = charsOfRest rest' ++ ']' :: v) :
    rest = rest' ∧ u = v := by
  induction rest generalizing rest' with
  | nil =>
      cases rest' with
      | nil => exact ⟨rfl, (List.cons.inj h).2⟩
      | cons d' rest' => simp [charsOfRest] at h
  | cons d rest ih =>
      cases rest' with
      | nil => simp [charsOfRest] at h
      | cons d' rest' =>
          simp only [charsOfRest, List.cons_append, List.append_assoc, List.cons.injEq,
            true_and] at h
          obtain ⟨rfl, htail⟩ := hrest d List.mem_cons_self d' _ _ (stops_rest rest u)
            (stops_rest rest' v) h
          obtain ⟨rfl, huv⟩ := ih (fun e he => hrest e (List.mem_cons_of_mem d he)) htail
          exact ⟨rfl, huv⟩

/-- A list and two formulas around something are told apart behind the parenthesis. -/
theorem chars_list_ne
    (op : ListOp) (first : Derivation) (rest : List Derivation) (lhs : Derivation)
    (u v : List Char) :
    (list op first rest).chars ++ u ≠ '(' :: (lhs.chars ++ v) := by
  intro h
  rw [list_append] at h
  exact chars_ne_symbol_cons lhs op v _ (List.cons.inj h).2.symm

section Determined

variable {index : Numeral} {sub lhs rhs first : Derivation} {rest : List Derivation}

/-- A number ends where the text stops. -/
theorem determined_var :
    Determined (.var index) := by
  intro d' u v hu hv h
  cases d' with
  | var index' =>
      obtain ⟨rfl, huv⟩ := digits_append_inj (fun c hc => (hu c hc).1) (fun c hc => (hv c hc).1)
        (List.cons.inj h).2
      exact ⟨rfl, huv⟩
  | _ => simp [chars, UnaryOp.ne_symbol] at h

theorem determined_top :
    Determined .top := by
  intro d' u v _ _ h
  cases d' with
  | top => exact ⟨rfl, (List.cons.inj h).2⟩
  | _ => simp [chars, UnaryOp.ne_symbol] at h

theorem determined_mark :
    Determined .mark := by
  intro d' u v _ _ h
  cases d' with
  | mark => exact ⟨rfl, (List.cons.inj h).2⟩
  | _ => simp [chars, UnaryOp.ne_symbol] at h

/-- The letter `F` does not stop before an interval. -/
theorem determined_letter :
    Determined .letter := by
  intro d' u v hu _ h
  cases d' with
  | letter => exact ⟨rfl, (List.cons.inj h).2⟩
  | unary op w sub =>
      rw [unary_append] at h
      have tail : u = w.chars ++ (sub.chars ++ v) := (List.cons.inj h).2
      rw [tail] at hu
      exact absurd hu (not_stops_window w _)
  | _ => simp [chars] at h

theorem Determined.neg
    (hsub : Determined sub) :
    Determined (.neg sub) := by
  intro d' u v hu hv h
  cases d' with
  | neg sub' =>
      obtain ⟨rfl, huv⟩ := hsub sub' u v hu hv (List.cons.inj h).2
      exact ⟨rfl, huv⟩
  | _ => simp [chars, UnaryOp.ne_symbol] at h

/-- An operator before a formula ends where the formula ends. -/
theorem Determined.unary
    (op : UnaryOp) (w : Window) (hsub : Determined sub) :
    Determined (.unary op w sub) := by
  intro d' u v hu hv h
  cases d' with
  | letter =>
      rw [unary_append] at h
      have tail : w.chars ++ (sub.chars ++ u) = v := (List.cons.inj h).2
      rw [← tail] at hv
      exact absurd hv (not_stops_window w _)
  | unary op' w' sub' =>
      rw [unary_append, unary_append] at h
      obtain ⟨hop, htail⟩ := List.cons.inj h
      obtain ⟨rfl, hrest⟩ := window_append_inj htail
      obtain ⟨rfl, huv⟩ := hsub sub' u v hu hv hrest
      obtain rfl := UnaryOp.symbol_injective hop
      exact ⟨rfl, huv⟩
  | _ => cases op <;> simp [chars, UnaryOp.symbol] at h

/-- A list ends with its parenthesis, as the two other forms in parentheses do. -/
theorem Determined.list
    (op : ListOp) (hfirst : Determined first) (hrest : ∀ d ∈ rest, Determined d) :
    Determined (.list op first rest) := by
  intro d' u v _ _ h
  cases d' with
  | list op' first' rest' =>
      rw [list_append, list_append] at h
      obtain ⟨hop, htail⟩ := List.cons.inj (List.cons.inj h).2
      obtain ⟨rfl, hmembers⟩ := hfirst first' _ _ (stops_rest rest _) (stops_rest rest' _)
        (List.cons.inj htail).2
      obtain ⟨rfl, huv⟩ := charsOfRest_append_inj hrest hmembers
      obtain rfl := ListOp.symbol_injective hop
      exact ⟨rfl, (List.cons.inj huv).2⟩
  | binary lhs op' rhs =>
      rw [binary_append] at h
      exact absurd h (chars_list_ne op first rest lhs u _)
  | temporal lhs op' w rhs =>
      rw [temporal_append] at h
      exact absurd h (chars_list_ne op first rest lhs u _)
  | _ => simp [chars, UnaryOp.ne_symbol] at h

theorem Determined.binary
    (op : BinaryOp) (hlhs : Determined lhs) (hrhs : Determined rhs) :
    Determined (.binary lhs op rhs) := by
  intro d' u v _ _ h
  cases d' with
  | list op' first rest =>
      rw [binary_append] at h
      exact absurd h.symm (chars_list_ne op' first rest lhs v _)
  | binary lhs' op' rhs' =>
      rw [binary_append, binary_append] at h
      obtain ⟨rfl, htail⟩ := hlhs lhs' _ _ (stops_binary op _) (stops_binary op' _)
        (List.cons.inj h).2
      obtain ⟨hop, hright⟩ := List.cons.inj htail
      obtain ⟨rfl, huv⟩ := hrhs rhs' _ _ (stops_close _) (stops_close _) hright
      obtain rfl := BinaryOp.symbol_injective hop
      exact ⟨rfl, (List.cons.inj huv).2⟩
  | temporal lhs' op' w rhs' =>
      rw [binary_append, temporal_append] at h
      obtain ⟨rfl, htail⟩ := hlhs lhs' _ _ (stops_binary op _) (stops_temporal op' _)
        (List.cons.inj h).2
      -- The left operands agree, so the operators behind them would have to.
      exact absurd (List.cons.inj htail).1 (BinaryOp.symbol_ne_temporal op op')
  | _ => simp [chars, UnaryOp.ne_symbol] at h

theorem Determined.temporal
    (op : TemporalOp) (w : Window) (hlhs : Determined lhs) (hrhs : Determined rhs) :
    Determined (.temporal lhs op w rhs) := by
  intro d' u v _ _ h
  cases d' with
  | list op' first rest =>
      rw [temporal_append] at h
      exact absurd h.symm (chars_list_ne op' first rest lhs v _)
  | binary lhs' op' rhs' =>
      rw [temporal_append, binary_append] at h
      obtain ⟨rfl, htail⟩ := hlhs lhs' _ _ (stops_temporal op _) (stops_binary op' _)
        (List.cons.inj h).2
      exact absurd (List.cons.inj htail).1.symm (BinaryOp.symbol_ne_temporal op' op)
  | temporal lhs' op' w' rhs' =>
      rw [temporal_append, temporal_append] at h
      obtain ⟨rfl, htail⟩ := hlhs lhs' _ _ (stops_temporal op _) (stops_temporal op' _)
        (List.cons.inj h).2
      obtain ⟨hop, hwindow⟩ := List.cons.inj htail
      obtain ⟨rfl, hright⟩ := window_append_inj hwindow
      obtain ⟨rfl, huv⟩ := hrhs rhs' _ _ (stops_close _) (stops_close _) hright
      obtain rfl := TemporalOp.symbol_injective hop
      exact ⟨rfl, (List.cons.inj huv).2⟩
  | _ => simp [chars, UnaryOp.ne_symbol] at h

/-- Every derivation is determined. The first characters differ for different productions, but for the
letter `F` and the operator, and for the three productions in parentheses. -/
theorem determined
    (d : Derivation) :
    Determined d := by
  induction d with
  | var index => exact determined_var
  | top => exact determined_top
  | mark => exact determined_mark
  | letter => exact determined_letter
  | neg sub ih => exact ih.neg
  | unary op w sub ih => exact ih.unary op w
  | list op first rest ihf ihr => exact ihf.list op ihr
  | binary lhs op rhs ihl ihr => exact ihl.binary op ihr
  | temporal lhs op w rhs ihl ihr => exact ihl.temporal op w ihr

end Determined

/-- No two derivations have the same text. -/
theorem chars_injective
    {d d' : Derivation} (h : d.chars = d'.chars) :
    d = d' :=
  (determined d d' [] [] stops_nil stops_nil (congrArg (· ++ []) h)).1

end Ambiguity

end Derivation

end MissionTime

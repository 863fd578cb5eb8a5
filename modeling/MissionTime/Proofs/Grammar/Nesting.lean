import MissionTime.Proofs.Grammar.Derivation
import MissionTime.Scan

/-!
# Nested words

The scans for a connective and for a separator count brackets. A word whose brackets are nested leaves
the count as it was, so such a scan runs over the text of a formula and comes out as it went in.

**Definitions.**
* `Scan.Nested`: nested words over the symbols of formulas, with the places of connectives and commas;
* `Scan.foundBehind`: the connective that the search has found, one symbol later.

**Results.**
* `Scan.nested_derivation`: the text of a formula is nested;
* `Scan.connectiveFrom_nested` and `Scan.separatorFrom_nested`: the scans run over nested words.
-/

namespace MissionTime

namespace Scan

section Words

/-- A symbol of formulas that is neither a bracket nor a comma nor a connective. -/
def isLetter (c : Char) : Bool :=
  c.isDigit || c == 'p' || c == 'T' || c == 'F' || c == '!' || c == 'G' || c == '~'

/-- A symbol of formulas that is neither a bracket nor a comma. -/
def isPlain (c : Char) : Bool :=
  isLetter c || isConnective c

/-- Words of formula symbols whose brackets are nested. A connective stands in parentheses only and a
comma in brackets only, within the word or around it, as `rounded` and `bracketed` tell. -/
inductive Nested : (rounded bracketed : Bool) → List Char → Prop
  | nil {r b : Bool} : Nested r b []
  | letter {r b : Bool} {c : Char} (h : isLetter c = true) : Nested r b [c]
  | connective {b : Bool} {c : Char} (h : isConnective c = true) : Nested true b [c]
  | comma {r : Bool} : Nested r true [',']
  | append {r b : Bool} {u v : List Char} (hu : Nested r b u) (hv : Nested r b v) :
      Nested r b (u ++ v)
  | round {r b : Bool} {u : List Char} (hu : Nested true true u) : Nested r b ('(' :: (u ++ [')']))
  | square {r b : Bool} {u : List Char} (hu : Nested r true u) : Nested r b ('[' :: (u ++ [']']))

theorem isPlain_of_isLetter
    {c : Char} (h : isLetter c = true) :
    isPlain c = true := by
  rw [isPlain, h, Bool.true_or]

theorem isPlain_of_isConnective
    {c : Char} (h : isConnective c = true) :
    isPlain c = true := by
  rw [isPlain, h, Bool.or_true]

theorem isFormulaSymbol_of_isPlain
    {c : Char} (h : isPlain c = true) :
    isFormulaSymbol c = true := by
  simp only [isPlain, isLetter, Bool.or_eq_true] at h
  simp only [isFormulaSymbol, Bool.or_eq_true]
  tauto

/-- A plain symbol is none of the others. -/
theorem ne_of_isPlain
    {c d : Char} (h : isPlain c = true) (hd : isPlain d = false) :
    c ≠ d := by
  rintro rfl
  rw [h] at hd
  cases hd

theorem eq_of_isConnective
    {c : Char} (h : isConnective c = true) :
    c = 'v' ∨ c = '&' ∨ c = '=' ∨ c = '>' ∨ c = 'U' ∨ c = 'R' := by
  simpa [isConnective, or_assoc] using h

theorem isConnective_of_isLetter
    {c : Char} (h : isLetter c = true) :
    isConnective c = false := by
  by_contra hc
  rw [Bool.not_eq_false] at hc
  rcases eq_of_isConnective hc with rfl | rfl | rfl | rfl | rfl | rfl <;> exact absurd h (by decide)

theorem utf8Size_of_isConnective
    {c : Char} (h : isConnective c = true) :
    c.utf8Size = 1 := by
  rcases eq_of_isConnective h with rfl | rfl | rfl | rfl | rfl | rfl <;> rfl

theorem isLetter_of_isDigit
    {c : Char} (h : c.isDigit = true) :
    isLetter c = true := by
  simp [isLetter, h]

theorem isLetter_unary
    (op : UnaryOp) :
    isLetter op.symbol = true := by
  cases op <;> rfl

theorem isConnective_binary
    (op : BinaryOp) :
    isConnective op.symbol = true := by
  cases op <;> rfl

theorem isConnective_temporal
    (op : TemporalOp) :
    isConnective op.symbol = true := by
  cases op <;> rfl

theorem Nested.isFormulaSymbol
    {r b : Bool} {u : List Char} (h : Nested r b u) {c : Char} (hc : c ∈ u) :
    isFormulaSymbol c = true := by
  induction h with
  | nil => cases hc
  | letter h =>
      obtain rfl := List.mem_singleton.mp hc
      exact isFormulaSymbol_of_isPlain (isPlain_of_isLetter h)
  | connective h =>
      obtain rfl := List.mem_singleton.mp hc
      exact isFormulaSymbol_of_isPlain (isPlain_of_isConnective h)
  | comma =>
      obtain rfl := List.mem_singleton.mp hc
      rfl
  | append _ _ ihu ihv => exact (List.mem_append.mp hc).elim ihu ihv
  | round _ ih | square _ ih =>
      simp only [List.mem_cons, List.mem_append, List.not_mem_nil, or_false] at hc
      rcases hc with rfl | hc | rfl
      · rfl
      · exact ih hc
      · rfl

end Words

section Formulas

variable {r b : Bool}

theorem nested_digits
    (n : Numeral) :
    Nested r b n.digits := by
  have letters : ∀ digits : List Char, (∀ c ∈ digits, c.isDigit = true) → Nested r b digits := by
    intro digits h
    induction digits with
    | nil => exact .nil
    | cons c digits ih =>
        have letter := isLetter_of_isDigit (h c List.mem_cons_self)
        exact .append (.letter letter) (ih fun d hd => h d (List.mem_cons_of_mem c hd))
  exact letters n.digits n.digital

theorem nested_window
    (w : Window) :
    Nested r b w.chars := by
  have bounds : Nested r true (w.lower.digits ++ ([','] ++ w.upper.digits)) :=
    .append (nested_digits w.lower) (.append .comma (nested_digits w.upper))
  simpa [Window.chars] using Nested.square bounds

theorem nested_charsOfRest
    {rest : List Derivation} (h : ∀ d ∈ rest, Nested r true d.chars) :
    Nested r true (Derivation.charsOfRest rest) := by
  induction rest with
  | nil => exact .nil
  | cons d rest ih =>
      have tail := ih fun e he => h e (List.mem_cons_of_mem d he)
      exact .append .comma (.append (h d List.mem_cons_self) tail)

/-- The text of a formula is nested, wherever it stands. -/
theorem nested_derivation
    (d : Derivation) :
    Nested r b d.chars := by
  -- The connective of a formula in parentheses stands beside its operands, so these are taken as words
  -- that have parentheses around them.
  induction d generalizing r b with
  | var index => exact .append (.letter (c := 'p') rfl) (nested_digits index)
  | top | mark | letter => exact .letter rfl
  | neg sub ih => exact .append (.letter (c := '~') rfl) ih
  | unary op w sub ih =>
      exact .append (.letter (isLetter_unary op)) (.append (nested_window w) ih)
  | list op first rest ihf ihr =>
      have members : Nested true true (first.chars ++ Derivation.charsOfRest rest) :=
        .append ihf (nested_charsOfRest fun d hd => ihr d hd)
      have inner : Nested true true _ :=
        .append (.connective (isConnective_binary op.toBinary)) (.square members)
      simpa [Derivation.chars, ListOp.symbol] using Nested.round inner
  | binary lhs op rhs ihl ihr =>
      have inner : Nested true true _ :=
        .append ihl (.append (.connective (isConnective_binary op)) ihr)
      simpa [Derivation.chars] using Nested.round inner
  | temporal lhs op w rhs ihl ihr =>
      have inner : Nested true true _ :=
        .append ihl (.append (.connective (isConnective_temporal op)) (.append (nested_window w) ihr))
      simpa [Derivation.chars] using Nested.round inner

end Formulas

section Runs

variable {r b : Bool} {u : List Char}

/-- What the search for a connective has found behind a symbol that is no parenthesis: the first connective
directly inside the outermost pair is remembered. -/
def foundBehind (outer : List Nat) (found : Option Nat) (c : Char) (position : Nat) : Option Nat :=
  if outer.isEmpty && found.isNone && isConnective c then some position else found

theorem connectiveFrom_other
    {c : Char} (known : isFormulaSymbol c = true) (hopen : c ≠ '(') (hclose : c ≠ ')') (i : Nat)
    (outer : List Nat) (found : Option Nat) (position : Nat) (rest : List Char) :
    connectiveFrom (i :: outer) found position (c :: rest) =
      connectiveFrom (i :: outer) (foundBehind outer found c position) (position + c.utf8Size)
        rest := by
  rw [connectiveFrom, if_neg hopen, if_neg hclose, known, foundBehind]
  cases outer.isEmpty && found.isNone && isConnective c <;> rfl

theorem connectiveFrom_step
    {c : Char} (known : isFormulaSymbol c = true) (hopen : c ≠ '(') (hclose : c ≠ ')')
    {outer : List Nat} (hc : outer ≠ [] ∨ isConnective c = false) (i : Nat) (found : Option Nat)
    (position : Nat) (rest : List Char) :
    connectiveFrom (i :: outer) found position (c :: rest) =
      connectiveFrom (i :: outer) found (position + c.utf8Size) rest := by
  have overlooked : foundBehind outer found c position = found := by
    rcases hc with hc | hc
    · rw [foundBehind, List.isEmpty_eq_false_iff.mpr hc]
      rfl
    · rw [foundBehind, hc, Bool.and_false]
      rfl
  rw [connectiveFrom_other known hopen hclose, overlooked]

theorem connectiveFrom_plain
    {c : Char} (h : isPlain c = true) {outer : List Nat}
    (hc : outer ≠ [] ∨ isConnective c = false) (i : Nat) (found : Option Nat) (position : Nat)
    (rest : List Char) :
    connectiveFrom (i :: outer) found position (c :: rest) =
      connectiveFrom (i :: outer) found (position + c.utf8Size) rest :=
  connectiveFrom_step (isFormulaSymbol_of_isPlain h) (ne_of_isPlain h rfl)
    (ne_of_isPlain h rfl) hc i found position rest

/-- The search for the connective runs over a nested word and remembers nothing of it, behind a second
open parenthesis or if the word has its connectives in parentheses. -/
theorem connectiveFrom_nested
    (h : Nested r b u) {outer : List Nat} (houter : r = true → outer ≠ []) (i : Nat)
    (found : Option Nat) (position : Nat) (rest : List Char) :
    connectiveFrom (i :: outer) found position (u ++ rest) =
      connectiveFrom (i :: outer) found (position + byteLength u) rest := by
  induction h generalizing outer i position rest with
  | nil => rfl
  | letter h =>
      exact connectiveFrom_plain (isPlain_of_isLetter h) (.inr (isConnective_of_isLetter h)) i found
        position rest
  | connective h =>
      exact connectiveFrom_plain (isPlain_of_isConnective h) (.inl (houter rfl)) i found position rest
  | comma =>
      exact connectiveFrom_step rfl (by decide) (by decide) (.inr rfl) i found
        position rest
  | append _ _ ihu ihv =>
      rw [List.append_assoc, ihu houter, ihv houter, byteLength_append, Nat.add_assoc]
  | round _ ih =>
      simp only [List.cons_append, List.append_assoc, List.nil_append]
      rw [connectiveFrom, if_pos rfl, ih (fun _ => List.cons_ne_nil i outer), connectiveFrom,
        if_neg (by decide), if_pos rfl]
      simp [Nat.add_assoc]
  | square _ ih =>
      simp only [List.cons_append, List.append_assoc, List.nil_append]
      rw [connectiveFrom_step rfl (by decide) (by decide) (.inr rfl), ih houter,
        connectiveFrom_step rfl (by decide) (by decide) (.inr rfl)]
      simp [Nat.add_assoc]

/-- The first comma outside all brackets would be remembered. -/
theorem separatorFrom_step
    {c : Char} (known : isFormulaSymbol c = true) (hopen : opens? c = none)
    (hclose : closes? c = none) {opened : List (Bracket × Nat)} {found : Option Nat}
    (hc : ¬ (c = ',' ∧ opened = [] ∧ found = none)) (position : Nat) (rest : List Char) :
    separatorFrom opened found position (c :: rest) =
      separatorFrom opened found (position + c.utf8Size) rest := by
  rw [separatorFrom, known, hopen, hclose]
  exact if_neg hc

theorem separatorFrom_plain
    {c : Char} (h : isPlain c = true) (opened : List (Bracket × Nat)) (found : Option Nat)
    (position : Nat) (rest : List Char) :
    separatorFrom opened found position (c :: rest) =
      separatorFrom opened found (position + c.utf8Size) rest := by
  refine separatorFrom_step (isFormulaSymbol_of_isPlain h) ?_ ?_ ?_ position rest
  · rw [opens?, if_neg (ne_of_isPlain h rfl), if_neg (ne_of_isPlain h rfl)]
  · rw [closes?, if_neg (ne_of_isPlain h rfl), if_neg (ne_of_isPlain h rfl)]
  · exact fun hc => ne_of_isPlain h rfl hc.1

/-- The search for a separator runs over a nested word and remembers nothing of it, behind an open
bracket or if the word has its commas in brackets. -/
theorem separatorFrom_nested
    (h : Nested r b u) {opened : List (Bracket × Nat)} (hopened : b = true → opened ≠ [])
    (found : Option Nat) (position : Nat) (rest : List Char) :
    separatorFrom opened found position (u ++ rest) =
      separatorFrom opened found (position + byteLength u) rest := by
  induction h generalizing opened position rest with
  | nil => rfl
  | letter h => exact separatorFrom_plain (isPlain_of_isLetter h) opened found position rest
  | connective h => exact separatorFrom_plain (isPlain_of_isConnective h) opened found position rest
  | comma =>
      exact separatorFrom_step rfl rfl rfl
        (fun hc => hopened rfl hc.2.1) position rest
  | append _ _ ihu ihv =>
      rw [List.append_assoc, ihu hopened, ihv hopened, byteLength_append, Nat.add_assoc]
  | @round r b u _ ih =>
      have inside := @ih ((.round, position) :: opened) fun _ => List.cons_ne_nil _ _
      simp only [List.cons_append, List.append_assoc, List.nil_append]
      change separatorFrom ((.round, position) :: opened) found _ (u ++ ')' :: rest) = _
      rw [inside]
      change separatorFrom opened found _ rest = _
      simp [Nat.add_assoc]
  | @square r b u _ ih =>
      have inside := @ih ((.square, position) :: opened) fun _ => List.cons_ne_nil _ _
      simp only [List.cons_append, List.append_assoc, List.nil_append]
      change separatorFrom ((.square, position) :: opened) found _ (u ++ ']' :: rest) = _
      rw [inside]
      change separatorFrom opened found _ rest = _
      simp [Nat.add_assoc]

end Runs

end Scan

end MissionTime

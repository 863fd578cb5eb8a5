import MissionTime.Scan
import MissionTime.Text
import Mathlib.Tactic

/-!
# Balanced texts

A text is balanced if every bracket in it has its counterpart and no two pairs cross. What comes before
a place in such a text is in general not balanced but leaves some brackets open, one inside the other.
Only brackets of given kinds count; those of another kind are symbols like all others.

**Definitions.**
* `Scan.Balanced`: texts whose brackets of some kinds are properly nested;
* `Scan.InnermostOpen`: a bracket of a text with a balanced text behind it;
* `Scan.LeavesOpen`: the brackets that a text leaves open, the innermost first;
* `Scan.surplus`: how many more brackets a text opens than it closes.

**Results.**
* `Scan.Balanced.surplus_le`: no end of a balanced text opens more brackets than it closes;
* `Scan.InnermostOpen.unique` and `Scan.InnermostOpen.not_balanced`: at most one bracket is innermost and
  open, and none in a balanced text;
* `Scan.Balanced.exists_innermostOpen`: in a balanced text every closing bracket closes the innermost
  open one;
* `Scan.LeavesOpen.opening`, `Scan.LeavesOpen.closing` and `Scan.LeavesOpen.symbol`: what one more symbol
  leaves open.
-/

namespace MissionTime

namespace Scan

section Places

variable {u before : List Char} {c d : Char}

theorem not_place_nil :
    ¬ before ++ [d] <+: [] := by
  rw [List.prefix_nil]
  exact List.append_ne_nil_of_right_ne_nil before (List.cons_ne_nil d [])

/-- The places of a text with one more symbol are those of the text, and the end. -/
theorem place_concat_iff :
    before ++ [d] <+: u ++ [c] ↔ (before = u ∧ d = c) ∨ before ++ [d] <+: u := by
  rw [List.prefix_concat_iff, List.append_singleton_inj]

end Places

section Symbols

/-- The symbol that opens a bracket. -/
def Bracket.opening : Bracket → Char
  | .round => '('
  | .square => '['

/-- The symbol that closes a bracket. -/
def Bracket.closing : Bracket → Char
  | .round => ')'
  | .square => ']'

theorem Bracket.opening_injective
    {b b' : Bracket} (h : b.opening = b'.opening) :
    b = b' := by
  revert h
  cases b <;> cases b' <;> decide

theorem Bracket.closing_injective
    {b b' : Bracket} (h : b.closing = b'.closing) :
    b = b' := by
  revert h
  cases b <;> cases b' <;> decide

theorem Bracket.closing_ne_opening
    (b b' : Bracket) :
    b.closing ≠ b'.opening := by
  cases b <;> cases b' <;> decide

/-- The symbol is no bracket of the given kinds. -/
def IsOther (kinds : List Bracket) (c : Char) : Prop :=
  ∀ b ∈ kinds, c ≠ b.opening ∧ c ≠ b.closing

theorem symbol_cases
    (kinds : List Bracket) (c : Char) :
    (∃ b ∈ kinds, c = b.opening) ∨ (∃ b ∈ kinds, c = b.closing) ∨ IsOther kinds c := by
  by_cases hopen : ∃ b ∈ kinds, c = b.opening
  · exact .inl hopen
  · by_cases hclose : ∃ b ∈ kinds, c = b.closing
    · exact .inr (.inl hclose)
    · exact .inr (.inr fun b hb => ⟨fun h => hopen ⟨b, hb, h⟩, fun h => hclose ⟨b, hb, h⟩⟩)

end Symbols

variable {kinds : List Bracket} {b b' : Bracket} {u v outside outside' : List Char} {c : Char}

section Balance

/-- Texts in which the brackets of the given kinds are properly nested, each closed by its own
counterpart. All other symbols may stand anywhere. -/
inductive Balanced (kinds : List Bracket) : List Char → Prop
  | nil : Balanced kinds []
  | symbol {c : Char} (h : IsOther kinds c) : Balanced kinds [c]
  | append {u v : List Char} (hu : Balanced kinds u) (hv : Balanced kinds v) : Balanced kinds (u ++ v)
  | enclosed {b : Bracket} {u : List Char} (hb : b ∈ kinds) (hu : Balanced kinds u) :
      Balanced kinds (b.opening :: (u ++ [b.closing]))

/-- The bracket behind `outside` is the innermost one that the text leaves open: a balanced text follows
it. -/
def InnermostOpen (kinds : List Bracket) (text : List Char) (b : Bracket) (outside : List Char) : Prop :=
  b ∈ kinds ∧ ∃ inside, text = outside ++ b.opening :: inside ∧ Balanced kinds inside

/-- One for a symbol that opens a bracket, minus one for a symbol that closes one. -/
def step (kinds : List Bracket) (c : Char) : Int :=
  if ∃ b ∈ kinds, c = b.opening then 1
  else if ∃ b ∈ kinds, c = b.closing then -1
  else 0

/-- How many more brackets a text opens than it closes. -/
def surplus (kinds : List Bracket) (text : List Char) : Int :=
  (text.map (step kinds)).sum

theorem surplus_append
    (u v : List Char) :
    surplus kinds (u ++ v) = surplus kinds u + surplus kinds v := by
  rw [surplus, List.map_append, List.sum_append]
  rfl

theorem surplus_opening
    (hb : b ∈ kinds) (u : List Char) :
    surplus kinds (b.opening :: u) = 1 + surplus kinds u := by
  rw [surplus, List.map_cons, List.sum_cons, step, if_pos ⟨b, hb, rfl⟩]
  rfl

theorem surplus_closing
    (hb : b ∈ kinds) :
    surplus kinds [b.closing] = -1 := by
  have hopen : ¬ ∃ b' ∈ kinds, b.closing = b'.opening :=
    fun ⟨b', _, h⟩ => b.closing_ne_opening b' h
  rw [surplus, List.map_singleton, List.sum_singleton, step, if_neg hopen, if_pos ⟨b, hb, rfl⟩]

theorem surplus_other
    (h : IsOther kinds c) :
    surplus kinds [c] = 0 := by
  have hopen : ¬ ∃ b ∈ kinds, c = b.opening := fun ⟨b, hb, hc⟩ => (h b hb).1 hc
  have hclose : ¬ ∃ b ∈ kinds, c = b.closing := fun ⟨b, hb, hc⟩ => (h b hb).2 hc
  rw [surplus, List.map_singleton, List.sum_singleton, step, if_neg hopen, if_neg hclose]

theorem Balanced.surplus_eq
    (h : Balanced kinds u) :
    surplus kinds u = 0 := by
  induction h with
  | nil => rfl
  | symbol hc => exact surplus_other hc
  | append _ _ ihu ihv => rw [surplus_append, ihu, ihv, add_zero]
  | enclosed hb _ ih => rw [surplus_opening hb, surplus_append, ih, surplus_closing hb]; rfl

/-- No end of a balanced text opens more brackets than it closes. -/
theorem Balanced.surplus_le
    (h : Balanced kinds u) (hv : v <:+ u) :
    surplus kinds v ≤ 0 := by
  induction h generalizing v with
  | nil =>
      rw [List.suffix_nil.mp hv]
      exact le_refl _
  | symbol hc =>
      rcases List.suffix_cons_iff.mp hv with rfl | hv
      · exact (surplus_other hc).le
      · rw [List.suffix_nil.mp hv]
        exact le_refl _
  | @append u w hu hw ihu ihw =>
      rcases List.suffix_or_suffix_of_suffix hv (List.suffix_append u w) with hvw | ⟨t, rfl⟩
      · exact ihw hvw
      · -- The end goes on into the left part, and the right part counts for nothing.
        obtain ⟨front, hfront⟩ := hv
        rw [← List.append_assoc] at hfront
        have ht : t <:+ u := ⟨front, List.append_cancel_right hfront⟩
        rw [surplus_append, hw.surplus_eq, add_zero]
        exact ihu ht
  | @enclosed b u hb hu ih =>
      rcases List.suffix_cons_iff.mp hv with rfl | hv
      · exact (Balanced.enclosed hb hu).surplus_eq.le
      · rcases List.suffix_concat_iff.mp hv with rfl | ⟨t, rfl, ht⟩
        · exact le_refl _
        · rw [surplus_append, surplus_closing hb]
          have := ih ht
          omega

/-- A bracket with a balanced text behind it is no end of a balanced text. -/
theorem Balanced.not_suffix
    (hv : Balanced kinds v) (hb : b ∈ kinds) (hu : Balanced kinds u) :
    ¬ b.opening :: u <:+ v := by
  intro hsuffix
  have bound := hv.surplus_le hsuffix
  rw [surplus_opening hb, hu.surplus_eq] at bound
  omega

/-- A balanced text leaves no bracket open. -/
theorem InnermostOpen.not_balanced
    (h : InnermostOpen kinds u b outside) :
    ¬ Balanced kinds u := by
  obtain ⟨hb, inside, rfl, hinside⟩ := h
  intro hu
  exact hu.not_suffix hb hinside (List.suffix_append _ _)

/-- At most one bracket is the innermost open one. -/
theorem InnermostOpen.unique
    (h : InnermostOpen kinds u b outside) (h' : InnermostOpen kinds u b' outside') :
    b = b' ∧ outside = outside' := by
  obtain ⟨hb, inside, htext, hinside⟩ := h
  obtain ⟨hb', inside', htext', hinside'⟩ := h'
  -- Both brackets begin an end of the text, and neither end can lie behind the other bracket.
  have hend : b.opening :: inside <:+ u := ⟨outside, htext.symm⟩
  have hend' : b'.opening :: inside' <:+ u := ⟨outside', htext'.symm⟩
  have ends : b.opening :: inside = b'.opening :: inside' := by
    rcases List.suffix_or_suffix_of_suffix hend hend' with hsuffix | hsuffix
    · exact (List.suffix_cons_iff.mp hsuffix).resolve_right (hinside'.not_suffix hb hinside)
    · exact ((List.suffix_cons_iff.mp hsuffix).resolve_right (hinside.not_suffix hb' hinside')).symm
  rw [htext, ends] at htext'
  exact ⟨Bracket.opening_injective (List.cons.inj ends).1, List.append_cancel_right htext'⟩

theorem InnermostOpen.append_left
    (h : InnermostOpen kinds v b outside) (u : List Char) :
    InnermostOpen kinds (u ++ v) b (u ++ outside) := by
  obtain ⟨hb, inside, rfl, hinside⟩ := h
  exact ⟨hb, inside, (List.append_assoc _ _ _).symm, hinside⟩

/-- In a balanced text every closing bracket closes the innermost bracket that is open before it. -/
theorem Balanced.exists_innermostOpen
    (h : Balanced kinds u) (hb : b ∈ kinds) {before : List Char}
    (hplace : before ++ [b.closing] <+: u) :
    ∃ outside, InnermostOpen kinds before b outside := by
  induction h generalizing before with
  | nil => exact absurd hplace not_place_nil
  | @symbol c hc =>
      rw [← List.nil_append [c], place_concat_iff] at hplace
      rcases hplace with ⟨-, rfl⟩ | hnil
      · exact absurd rfl (hc b hb).2
      · exact absurd hnil not_place_nil
  | @append u v _ _ ihu ihv =>
      rcases List.prefix_or_prefix_of_prefix hplace (List.prefix_append u v) with hleft | hright
      · exact ihu hleft
      · rcases List.prefix_concat_iff.mp hright with rfl | ⟨middle, rfl⟩
        · exact ihu List.prefix_rfl
        · rw [List.append_assoc, List.prefix_append_right_inj] at hplace
          obtain ⟨outside, inner⟩ := ihv hplace
          exact ⟨u ++ outside, inner.append_left u⟩
  | @enclosed b' u hb' hu ih =>
      cases before with
      | nil => exact absurd (List.cons_prefix_cons.mp hplace).1 (b.closing_ne_opening b')
      | cons d before =>
          obtain ⟨rfl, hrest⟩ := List.cons_prefix_cons.mp hplace
          rcases place_concat_iff.mp hrest with ⟨rfl, hclosing⟩ | hinside
          · obtain rfl := Bracket.closing_injective hclosing
            exact ⟨[], hb, _, rfl, hu⟩
          · obtain ⟨outside, inner⟩ := ih hinside
            exact ⟨b'.opening :: outside, inner.append_left [b'.opening]⟩

end Balance

section OpenBrackets

variable {opened : List (Bracket × Nat)} {position : Nat}

/-- The brackets that a text leaves open, the innermost first, each with its position. -/
inductive LeavesOpen (kinds : List Bracket) : List Char → List (Bracket × Nat) → Prop
  | nothing {u : List Char} (h : Balanced kinds u) : LeavesOpen kinds u []
  | bracket {u v : List Char} {opened : List (Bracket × Nat)} {b : Bracket}
      (hu : LeavesOpen kinds u opened) (hb : b ∈ kinds) (hv : Balanced kinds v) :
      LeavesOpen kinds (u ++ b.opening :: v) ((b, byteLength u) :: opened)

theorem LeavesOpen.balanced
    (h : LeavesOpen kinds u []) :
    Balanced kinds u := by
  cases h with
  | nothing h => exact h

theorem LeavesOpen.exists_innermostOpen
    (h : LeavesOpen kinds u ((b, position) :: opened)) :
    ∃ outside, InnermostOpen kinds u b outside ∧ byteLength outside = position := by
  cases h with
  | bracket hu hb hv => exact ⟨_, ⟨hb, _, rfl, hv⟩, rfl⟩

/-- A text is balanced exactly if it leaves no bracket open. -/
theorem LeavesOpen.balanced_iff
    (h : LeavesOpen kinds u opened) :
    Balanced kinds u ↔ opened = [] := by
  constructor
  · intro hu
    cases opened with
    | nil => rfl
    | cons top outer =>
        obtain ⟨outside, inner, -⟩ := h.exists_innermostOpen
        exact absurd hu inner.not_balanced
  · rintro rfl
    exact h.balanced

/-- The innermost bracket that a text leaves open stands first. -/
theorem LeavesOpen.exists_innermostOpen_iff
    (h : LeavesOpen kinds u opened) :
    (∃ outside, InnermostOpen kinds u b outside) ↔ ∃ position outer, opened = (b, position) :: outer := by
  constructor
  · rintro ⟨outside, inner⟩
    cases opened with
    | nil => exact absurd h.balanced inner.not_balanced
    | cons top outer =>
        obtain ⟨outside', inner', -⟩ := h.exists_innermostOpen
        obtain ⟨rfl, -⟩ := inner'.unique inner
        exact ⟨_, _, rfl⟩
  · rintro ⟨position, outer, rfl⟩
    obtain ⟨outside, inner, -⟩ := h.exists_innermostOpen
    exact ⟨outside, inner⟩

theorem LeavesOpen.append
    (h : LeavesOpen kinds u opened) (hv : Balanced kinds v) :
    LeavesOpen kinds (u ++ v) opened := by
  cases h with
  | nothing hu => exact .nothing (hu.append hv)
  | bracket hu hb hw =>
      rw [List.append_assoc]
      exact .bracket hu hb (hw.append hv)

theorem LeavesOpen.symbol
    (h : LeavesOpen kinds u opened) (hc : IsOther kinds c) :
    LeavesOpen kinds (u ++ [c]) opened :=
  h.append (.symbol hc)

theorem LeavesOpen.opening
    (h : LeavesOpen kinds u opened) (hb : b ∈ kinds) :
    LeavesOpen kinds (u ++ [b.opening]) ((b, byteLength u) :: opened) :=
  .bracket h hb .nil

theorem LeavesOpen.closing
    (h : LeavesOpen kinds u ((b, position) :: opened)) :
    LeavesOpen kinds (u ++ [b.closing]) opened := by
  cases h with
  | bracket hu hb hv =>
      rw [List.append_assoc]
      exact hu.append (.enclosed hb hv)

end OpenBrackets

end Scan

end MissionTime

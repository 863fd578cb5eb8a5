import MissionTime.Error
import Mathlib.Tactic

/-!
# Computations that return

A computation that may fail returns under a condition if it does not fail and its answer meets the
condition. What a sequence of steps returns is put together from what the steps return.

**Definitions.**
* `Returns`.

**Results.**
* `Returns.bind`: one step after the other;
* `Returns.foldlM` and `Returns.foldlM_range'`: what each step preserves, a whole fold preserves;
* `bind_eq_ok_iff`: what the answer of two steps tells of each of them;
* `exists_of_mem_mapM`: what the answers of a list of computations tell of the computations.
-/

namespace MissionTime

/-- The computation does not fail, and its answer meets the condition. -/
def Returns {α : Type} (run : Except Error α) (post : α → Prop) : Prop :=
  ∃ a, run = .ok a ∧ post a

namespace Returns

variable {α β : Type}

theorem pure
    {a : α} {post : α → Prop} (h : post a) :
    Returns (.ok a) post :=
  ⟨a, rfl, h⟩

/-- What a computation returns is what it answers. -/
theorem of_eq_ok
    {run : Except Error α} {a : α} {post : α → Prop} (h : Returns run post) (hrun : run = .ok a) :
    post a := by
  rcases h with ⟨b, hb, hpost⟩
  obtain rfl := Except.ok.inj (hb.symm.trans hrun)
  exact hpost

theorem mono
    {run : Except Error α} {pre post : α → Prop} (h : Returns run pre)
    (himp : ∀ a, pre a → post a) :
    Returns run post := by
  rcases h with ⟨a, ha, hpre⟩
  exact ⟨a, ha, himp a hpre⟩

theorem bind
    {run : Except Error α} {next : α → Except Error β} {mid : α → Prop} {post : β → Prop}
    (h : Returns run mid) (hnext : ∀ a, mid a → Returns (next a) post) :
    Returns (run >>= next) post := by
  rcases h with ⟨a, rfl, hmid⟩
  exact hnext a hmid

/-- What each step of a fold preserves, the fold preserves. -/
theorem foldlM
    {step : β → α → Except Error β} (inv : List α → β → Prop) {items : List α} {start : β}
    (hstart : inv [] start)
    (hstep : ∀ done x state, x ∈ items → inv done state →
      Returns (step state x) (inv (done ++ [x]))) :
    Returns (items.foldlM step start) (inv items) := by
  have general : ∀ (rest done : List α) (state : β), (∀ x ∈ rest, x ∈ items) → inv done state →
      Returns (rest.foldlM step state) (inv (done ++ rest)) := by
    intro rest
    induction rest with
    | nil =>
        intro done state _ hstate
        rw [List.append_nil]
        exact ⟨state, rfl, hstate⟩
    | cons x rest ih =>
        intro done state hrest hstate
        rw [List.foldlM_cons]
        refine (hstep done x state (hrest x List.mem_cons_self) hstate).bind fun next hnext => ?_
        have tail := ih (done ++ [x]) next (fun y hy => hrest y (List.mem_cons_of_mem x hy)) hnext
        rwa [List.append_assoc] at tail
  exact general items [] start (fun _ hx => hx) hstart

/-- What each step of a fold over successive numbers preserves, the fold preserves. -/
theorem foldlM_range'
    {step : β → Nat → Except Error β} (inv : Nat → β → Prop) {first count : Nat} {start : β}
    (hstart : inv first start)
    (hstep : ∀ i state, first ≤ i → i < first + count → inv i state →
      Returns (step state i) (inv (i + 1))) :
    Returns ((List.range' first count).foldlM step start) (inv (first + count)) := by
  induction count generalizing first start with
  | zero => exact ⟨start, rfl, hstart⟩
  | succ count ih =>
      rw [List.range'_succ, List.foldlM_cons]
      have head := hstep first start (Nat.le_refl first) (by omega) hstart
      refine head.bind fun next hnext => ?_
      have rest : Returns ((List.range' (first + 1) count).foldlM step next)
          (inv (first + 1 + count)) :=
        ih hnext fun i state hi hlt => hstep i state (by omega) (by omega)
      rwa [show first + 1 + count = first + (count + 1) by omega] at rest

end Returns

section Steps

variable {ε α β : Type} {run : Except ε α} {next : α → Except ε β}

/-- Two steps answer if the first one answers and the second one does on its answer. -/
theorem bind_eq_ok_iff
    {b : β} :
    (run >>= next) = .ok b ↔ ∃ a, run = .ok a ∧ next a = .ok b := by
  constructor
  · cases run with
    | ok a => exact fun h => ⟨a, rfl, h⟩
    | error e => exact fun h => by cases h
  · rintro ⟨a, rfl, h⟩
    exact h

/-- Each answer of a list of computations is the answer of one of them. -/
theorem exists_of_mem_mapM
    {f : α → Except ε β} {items : List α} {answers : List β} (h : items.mapM f = .ok answers)
    {b : β} (hb : b ∈ answers) :
    ∃ a ∈ items, f a = .ok b := by
  induction items generalizing answers with
  | nil =>
      cases h
      exact absurd hb List.not_mem_nil
  | cons a items ih =>
      rw [List.mapM_cons] at h
      obtain ⟨first, hfirst, hrest⟩ := bind_eq_ok_iff.mp h
      obtain ⟨rest, htail, hanswers⟩ := bind_eq_ok_iff.mp hrest
      cases hanswers
      rcases List.mem_cons.mp hb with rfl | hb
      · exact ⟨a, List.mem_cons_self, hfirst⟩
      · obtain ⟨a', ha', hfound⟩ := ih htail hb
        exact ⟨a', List.mem_cons_of_mem a ha', hfound⟩

end Steps

end MissionTime

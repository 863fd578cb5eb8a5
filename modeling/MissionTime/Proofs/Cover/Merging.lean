import MissionTime.Cover.Simplify
import MissionTime.Proofs.Cover.Coverage
import MissionTime.Proofs.Returns

/-!
# Merging rows

A run of passes over the rows of a cover is a sequence of single merges, in each of which two rows are
replaced by one. What a single merge keeps, the whole run keeps: how long the rows are, what they cover
and that they exclude each other. The run ends with rows of which no two merge, and rows of which no two
merge are left as they are.

**Definitions.**
* `Cover.Even`: rows of one length;
* `Cover.Merges`: rows that are made from others by single merges;
* `Cover.Unmerged`: rows of which no two merge.

**Results.**
* `Cover.Merges.even`, `Cover.Merges.length_le`, `Cover.Merges.rowsCover`, `Cover.Merges.exclusive`;
* `Cover.returns_mergeAll`: merging ends, with rows of which no two merge;
* `Cover.mergeAll_of_unmerged`: merging stops at such rows.
-/

namespace MissionTime

namespace Cover

section Rows

variable {length : Nat} {rows : List Word}

/-- All rows have one length. -/
def Even (length : Nat) (rows : List Word) : Prop :=
  ∀ w ∈ rows, w.length = length

theorem even_cons
    {w : Word} :
    Even length (w :: rows) ↔ w.length = length ∧ Even length rows := by
  simp [Even]

theorem Even.dvd
    {vars blocks : Nat} (h : Even (blocks * vars) rows) {w : Word} (hw : w ∈ rows) :
    vars ∣ w.length := by
  rw [h w hw]
  exact Nat.dvd_mul_left _ _

theorem even_perm
    {others : List Word} (h : rows.Perm others) (heven : Even length rows) :
    Even length others :=
  fun w hw => heven w (h.mem_iff.mpr hw)

theorem rowsCover_perm
    {others : List Word} (h : rows.Perm others) (σ : Tape) :
    RowsCover rows σ ↔ RowsCover others σ :=
  exists_congr fun _ => and_congr_left' h.mem_iff

/-- No two rows merge. -/
def Unmerged (rows : List Word) : Prop :=
  rows.Pairwise fun v w => Word.merge v w = none

end Rows

section Merges

variable {length : Nat} {rows merged : List Word}

/-- The rows on the right are made from those on the left by merges: in each of them, two rows that merge
are taken out and the merged row is put in, wherever they stand. -/
inductive Merges : List Word → List Word → Prop
  | perm {rows merged : List Word} (h : rows.Perm merged) : Merges rows merged
  | merge {rows rest merged : List Word} {u v w : Word} (hrows : rows.Perm (v :: w :: rest))
      (h : Word.merge v w = some u) (hrest : Merges (u :: rest) merged) : Merges rows merged

namespace Merges

theorem refl
    (rows : List Word) :
    Merges rows rows :=
  .perm (.refl rows)

theorem trans
    {next : List Word} (h : Merges rows merged) (hnext : Merges merged next) :
    Merges rows next := by
  induction h with
  | perm h =>
      cases hnext with
      | perm hnext => exact .perm (h.trans hnext)
      | merge hrows hmerge hrest => exact .merge (h.trans hrows) hmerge hrest
  | merge hrows hmerge _ ih => exact .merge hrows hmerge (ih hnext)

theorem cons
    (row : Word) (h : Merges rows merged) :
    Merges (row :: rows) (row :: merged) := by
  induction h with
  | perm h => exact .perm (h.cons row)
  | @merge rows rest merged u v w hrows hmerge _ ih =>
      have front : (row :: rows).Perm (v :: w :: row :: rest) :=
        (hrows.cons row).trans ((List.Perm.swap v row _).trans ((List.Perm.swap w row rest).cons v))
      exact .merge front hmerge ((Merges.perm (.swap row u rest)).trans ih)

theorem even
    (h : Merges rows merged) (heven : Even length rows) :
    Even length merged := by
  induction h with
  | perm h => exact even_perm h heven
  | merge hrows hmerge _ ih =>
      obtain ⟨hv, hw⟩ := even_cons.mp (even_perm hrows heven)
      obtain ⟨-, hrest⟩ := even_cons.mp hw
      exact ih (even_cons.mpr ⟨(Word.length_merge hmerge).trans hv, hrest⟩)

theorem length_le
    (h : Merges rows merged) :
    merged.length ≤ rows.length := by
  induction h with
  | perm h => exact Nat.le_of_eq h.length_eq.symm
  | merge hrows _ _ ih =>
      rw [hrows.length_eq]
      exact Nat.le_succ_of_le ih

theorem rowsCover
    (h : Merges rows merged) (σ : Tape) :
    RowsCover merged σ ↔ RowsCover rows σ := by
  induction h with
  | perm h => exact (rowsCover_perm h σ).symm
  | merge hrows hmerge _ ih =>
      rw [ih, rowsCover_perm hrows, rowsCover_cons, rowsCover_cons, rowsCover_cons,
        Word.matches_merge hmerge, or_assoc]

/-- Rows that exclude each other are merged to rows that do. -/
theorem exclusive
    (h : Merges rows merged) (hrows : rows.Pairwise Word.Exclusive) :
    merged.Pairwise Word.Exclusive := by
  induction h with
  | perm h => exact (h.pairwise_iff Word.Exclusive.symm).mp hrows
  | merge hperm hmerge _ ih =>
      have sorted := (hperm.pairwise_iff Word.Exclusive.symm).mp hrows
      obtain ⟨hv, htail⟩ := List.pairwise_cons.mp sorted
      obtain ⟨hw, hrest⟩ := List.pairwise_cons.mp htail
      refine ih (List.pairwise_cons.mpr ⟨fun x hx => ?_, hrest⟩)
      have excluded := (hv x (List.mem_cons_of_mem _ hx)).symm.merge (hw x hx).symm hmerge
      exact excluded.symm

end Merges

end Merges

section Passes

variable {length : Nat} {row : Word} {rows : List Word}

/-- A row either absorbs some of the rows behind it or merges with none of them. -/
theorem returns_absorb
    (hrow : row.length = length) (hrows : Even length rows) :
    Returns (absorb row rows) fun found =>
      Merges (row :: rows) (found.1 :: found.2) ∧
        (found.2.length < rows.length ∨
          (found = (row, rows) ∧ ∀ other ∈ rows, Word.merge row other = none)) := by
  induction rows generalizing row with
  | nil => exact Returns.pure ⟨Merges.refl _, Or.inr ⟨rfl, by simp⟩⟩
  | cons other rest ih =>
      obtain ⟨hother, hrest⟩ := even_cons.mp hrows
      rw [absorb, Pattern.mergeWords, if_pos (hrow.trans hother.symm)]
      cases hmerge : Word.merge row other with
      | some merged =>
          have hlength := (Word.length_merge hmerge).trans hrow
          refine (ih hlength hrest).mono fun found hfound => ⟨?_, Or.inl ?_⟩
          · exact .merge (.refl _) hmerge hfound.1
          · rcases hfound.2 with fewer | ⟨rfl, -⟩
            · exact Nat.lt_succ_of_lt fewer
            · exact Nat.lt_succ_self _
      | none =>
          refine (ih hrow hrest).bind fun found hfound => Returns.pure ⟨?_, ?_⟩
          · have swapped := (Merges.perm (.swap other row rest)).trans (hfound.1.cons other)
            exact swapped.trans (.perm (.swap found.1 other found.2))
          · rcases hfound.2 with fewer | ⟨rfl, hnone⟩
            · exact Or.inl (Nat.succ_lt_succ fewer)
            · exact Or.inr ⟨rfl, List.forall_mem_cons.mpr ⟨hmerge, hnone⟩⟩

theorem mergePass_cons
    {grown : Word} {left : List Word} (h : absorb row rows = .ok (grown, left)) :
    mergePass (row :: rows) = (mergePass left).map (grown :: ·) := by
  rw [mergePass]
  split
  · rename_i e he
    rw [h] at he
    cases he
  · rename_i grown' left' hfound
    obtain ⟨rfl, rfl⟩ := Prod.mk.inj (Except.ok.inj (h.symm.trans hfound))
    cases mergePass left <;> rfl

/-- A pass either merges some rows or has compared any two of them and changed nothing. -/
theorem returns_mergePass
    (hrows : Even length rows) :
    Returns (mergePass rows) fun merged =>
      Merges rows merged ∧ (merged.length < rows.length ∨ (merged = rows ∧ Unmerged rows)) := by
  induction hn : rows.length using Nat.strong_induction_on generalizing rows with
  | h n ih =>
      subst hn
      cases rows with
      | nil =>
          rw [mergePass]
          exact Returns.pure ⟨Merges.refl [], Or.inr ⟨rfl, List.Pairwise.nil⟩⟩
      | cons row rest =>
          obtain ⟨hrow, hrest⟩ := even_cons.mp hrows
          obtain ⟨⟨grown, left⟩, hfound, habsorb, hcases⟩ := returns_absorb hrow hrest
          obtain ⟨-, hleft⟩ := even_cons.mp (habsorb.even hrows)
          have shorter : left.length < (row :: rest).length :=
            Nat.lt_succ_of_le (length_absorb_le hfound)
          obtain ⟨others, hothers, hmerges, hpass⟩ := ih left.length shorter hleft rfl
          rw [mergePass_cons hfound, hothers]
          refine Returns.pure ⟨habsorb.trans (hmerges.cons grown), ?_⟩
          rcases hcases with fewer | ⟨hsame, hnone⟩
          · exact Or.inl (Nat.succ_lt_succ (Nat.lt_of_le_of_lt hmerges.length_le fewer))
          · obtain ⟨rfl, rfl⟩ := Prod.mk.inj hsame
            rcases hpass with fewer | ⟨rfl, hunmerged⟩
            · exact Or.inl (Nat.succ_lt_succ fewer)
            · exact Or.inr ⟨rfl, List.pairwise_cons.mpr ⟨hnone, hunmerged⟩⟩

/-- Merging ends, with rows of which no two merge. -/
theorem returns_mergeAll
    (hrows : Even length rows) :
    Returns (mergeAll rows) fun merged => Merges rows merged ∧ Unmerged merged := by
  induction hn : rows.length using Nat.strong_induction_on generalizing rows with
  | h n ih =>
      subst hn
      obtain ⟨merged, hpass, hmerges, hcases⟩ := returns_mergePass hrows
      rw [mergeAll, hpass]
      dsimp only
      split
      · rename_i fewer
        refine (ih merged.length fewer (hmerges.even hrows) rfl).mono fun final hfinal => ?_
        exact ⟨hmerges.trans hfinal.1, hfinal.2⟩
      · rename_i stable
        obtain ⟨rfl, hunmerged⟩ := hcases.resolve_left stable
        exact Returns.pure ⟨hmerges, hunmerged⟩

/-- Rows of which no two merge can only be put in another order. -/
theorem Merges.perm_of_unmerged
    {merged : List Word} (h : Merges rows merged) (hrows : Unmerged rows) :
    rows.Perm merged := by
  cases h with
  | perm h => exact h
  | @merge _ rest _ u v w hperm hmerge _ =>
      have sorted := (hperm.pairwise_iff fun hxy => (Word.merge_comm _ _).trans hxy).mp hrows
      have none := (List.pairwise_cons.mp sorted).1 w List.mem_cons_self
      rw [hmerge] at none
      cases none

/-- Merging stops at rows of which no two merge. -/
theorem mergeAll_of_unmerged
    (hrows : Even length rows) (hunmerged : Unmerged rows) :
    mergeAll rows = .ok rows := by
  obtain ⟨merged, hpass, hmerges, hcases⟩ := returns_mergePass hrows
  have same := (hmerges.perm_of_unmerged hunmerged).length_eq
  obtain ⟨rfl, -⟩ := hcases.resolve_left (Nat.not_lt.mpr (Nat.le_of_eq same))
  rw [mergeAll, hpass]
  exact if_neg (Nat.lt_irrefl _)

end Passes

end Cover

end MissionTime

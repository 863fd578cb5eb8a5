import MissionTime.Proofs.Cover.Alignment
import MissionTime.Proofs.Cover.Shape

/-!
# Irreducible covers

Merging the members of a cover ends when no two of them merge, that is, when any two differ in at least
two positions. Members that are trimmed or delayed afterwards are still told apart in the same
positions, once they are padded to a common length.

**Definitions.**
* `Word.differences`: in how many positions two words differ;
* `Word.Distinct`: two words that do not merge when they are padded to a common length;
* `Cover.Irreducible` and `Cover.Reduced`: covers of which no two members merge.

**Results.**
* `Word.merge_eq_none_iff`: words of one length do not merge if they differ in two positions;
* `Cover.irreducible_of_simplify`, `Cover.Irreducible.shifted`: simplified and delayed covers;
* `Cover.Whole.join_reduced`, `Cover.Whole.intersect_reduced`: what is simplified is irreducible,
  whatever the operands are.
-/

namespace MissionTime

namespace Word

section Differences

variable {v w : Word}

/-- In how many positions two words of one length differ. -/
def differences : Word → Word → Nat
  | a :: v, b :: w => (if a = b then 0 else 1) + differences v w
  | _, _ => 0

theorem differences_eq_zero_iff
    (h : v.length = w.length) :
    differences v w = 0 ↔ v = w := by
  induction v generalizing w with
  | nil =>
      rw [List.length_nil] at h
      simp [List.eq_nil_of_length_eq_zero h.symm, differences]
  | cons a v ih =>
      cases w with
      | nil => simp at h
      | cons b w =>
          have tails := ih (Nat.succ.inj h)
          by_cases hab : a = b <;> simp [differences, hab, tails]

/-- Words of one length merge unless they differ in at least two positions. -/
theorem merge_eq_none_iff
    (h : v.length = w.length) :
    merge v w = none ↔ 2 ≤ differences v w := by
  induction v generalizing w with
  | nil =>
      rw [List.length_nil] at h
      simp [List.eq_nil_of_length_eq_zero h.symm, differences, merge]
  | cons a v ih =>
      cases w with
      | nil => simp at h
      | cons b w =>
          have tails := Nat.succ.inj h
          have same := differences_eq_zero_iff tails
          rw [merge, differences]
          by_cases hab : a = b
          · rw [if_pos hab, if_pos hab, Option.map_eq_none_iff, ih tails, Nat.zero_add]
          · rw [if_neg hab, if_neg hab]
            by_cases hvw : v = w
            · have none := same.mpr hvw
              simp [hvw] at none ⊢
              omega
            · have some := mt same.mp hvw
              rw [if_neg hvw]
              exact iff_of_true rfl (by omega)

end Differences

section Distinct

variable {v w : Word}

/-- The words do not merge when they are padded to the longer one. -/
def Distinct (v w : Word) : Prop :=
  merge (padTo (max v.length w.length) v) (padTo (max v.length w.length) w) = none

theorem length_padTo_of_le
    {length : Nat} (h : v.length ≤ length) :
    (padTo length v).length = length := by
  rw [length_padTo, Nat.max_eq_left h]

theorem padTo_add
    {length : Nat} (h : v.length ≤ length) (more : Nat) :
    padTo (length + more) v = framed 0 more (padTo length v) := by
  rw [← padTo_padTo (Nat.le_add_right length more) v, padTo_eq_framed, length_padTo_of_le h,
    Nat.add_sub_cancel_left]

/-- Whether words merge does not depend on the common length. -/
theorem distinct_iff_padTo
    {length : Nat} (hv : v.length ≤ length) (hw : w.length ≤ length) :
    Distinct v w ↔ merge (padTo length v) (padTo length w) = none := by
  obtain ⟨more, rfl⟩ := Nat.exists_eq_add_of_le (Nat.max_le.mpr ⟨hv, hw⟩)
  have left := Nat.le_max_left v.length w.length
  have right := Nat.le_max_right v.length w.length
  have same := (length_padTo_of_le left).trans (length_padTo_of_le right).symm
  rw [padTo_add left, padTo_add right, merge_framed same, Option.map_eq_none_iff]
  rfl

/-- Delayed words are told apart in the same positions. -/
theorem distinct_shift
    (count : Nat) :
    Distinct (List.replicate count .wild ++ v) (List.replicate count .wild ++ w) ↔
      Distinct v w := by
  have left : (List.replicate count Bit.wild ++ v).length ≤ count + max v.length w.length := by
    simp
  have right : (List.replicate count Bit.wild ++ w).length ≤ count + max v.length w.length := by
    simp
  have delayed : ∀ u : Word, padTo (count + max v.length w.length)
      (List.replicate count .wild ++ u) =
        List.replicate count .wild ++ padTo (max v.length w.length) u := by
    intro u
    rw [padTo, padTo, List.append_assoc, List.length_append, List.length_replicate,
      Nat.add_sub_add_left]
  rw [distinct_iff_padTo left right, delayed, delayed, merge_append_left, Option.map_eq_none_iff]
  rfl

end Distinct

end Word

/-- Patterns of one width and length merge as their bits do. -/
theorem Pattern.merge_eq
    {p q : Pattern} (hwidth : p.width = q.width) (hlength : p.bits.length = q.bits.length) :
    p.merge q = .ok ((Word.merge p.bits q.bits).map (⟨p.width, ·⟩)) := by
  rw [Pattern.merge, requireWidth, if_pos hwidth, mergeWords, if_pos hlength]
  rfl

theorem Pattern.merge_eq_none
    {p q : Pattern} (hwidth : p.width = q.width) (hlength : p.bits.length = q.bits.length)
    (h : Word.merge p.bits q.bits = none) :
    Pattern.merge p q = .ok none := by
  rw [Pattern.merge_eq hwidth hlength, h]
  rfl

namespace Cover

section Irreducibility

variable {vars blocks : Nat} {c d : Cover}

/-- No two members merge, however they are padded. -/
def Irreducible (c : Cover) : Prop :=
  c.rows.Pairwise Word.Distinct

theorem Divided.irreducible_iff_paddedTo
    (h : c.Divided vars) (hle : c.blockCount ≤ blocks) :
    c.Irreducible ↔ Unmerged (c.paddedTo blocks).rows := by
  rw [Irreducible, Unmerged, rows_paddedTo, List.pairwise_map, h.width]
  exact List.Pairwise.iff_of_mem fun hv hw =>
    Word.distinct_iff_padTo (h.length_le hle hv) (h.length_le hle hw)

/-- Two members of an irreducible cover do not merge, however they are padded. -/
theorem Divided.merge_padded
    (h : c.Divided vars) (hirreducible : c.Irreducible) :
    c.members.Pairwise fun p q => ∀ blocks, p.blockCount ≤ blocks → q.blockCount ≤ blocks →
      Word.merge (p.padded blocks).bits (q.padded blocks).bits = none := by
  rw [members, List.pairwise_map]
  refine hirreducible.imp_of_mem fun {v w} hv hw hdistinct blocks hp hq => ?_
  have left := h.length_member_le (List.mem_map_of_mem hv) hp
  have right := h.length_member_le (List.mem_map_of_mem hw) hq
  exact (Word.distinct_iff_padTo left right).mp hdistinct

theorem Irreducible.shifted
    (h : c.Irreducible) (steps : Nat) :
    (c.shifted steps).Irreducible := by
  rw [Irreducible, Cover.shifted, List.pairwise_map]
  exact h.imp fun hvw => (Word.distinct_shift (steps * c.width)).mpr hvw

/-- A simplified cover is irreducible: what is trimmed after merging is free, hence told apart by
nothing. -/
theorem irreducible_of_simplify
    (h : c.Divided vars) (hd : c.simplify = .ok d) :
    d.Irreducible := by
  have outcome := h.returns_simplify.of_eq_ok hd
  obtain ⟨rows, rfl, -, hunmerged, even⟩ := h.rows_of_simplify hd
  rwa [outcome.divided.irreducible_iff_paddedTo outcome.short, paddedTo_trimmed even]

/-- A whole cover of which no two members merge. -/
structure Reduced (c : Cover) (vars : Nat) : Prop where
  whole : c.Whole vars
  irreducible : c.Irreducible

theorem reduced_of_subsingleton
    (h : c.Whole vars) (hrows : c.rows.length ≤ 1) :
    c.Reduced vars := by
  refine ⟨h, ?_⟩
  rw [Irreducible]
  match hc : c.rows with
  | [] => exact List.Pairwise.nil
  | [w] => exact List.pairwise_singleton _ w
  | _ :: _ :: _ => simp [hc] at hrows

theorem reduced_empty
    (vars : Nat) :
    (empty vars).Reduced vars :=
  reduced_of_subsingleton (fits_empty vars 0).whole (Nat.zero_le 1)

theorem reduced_top
    (vars : Nat) :
    (top vars).Reduced vars := by
  refine reduced_of_subsingleton (fits_top vars (Nat.le_refl 1)).whole ?_
  rw [top]
  split
  · exact Nat.zero_le 1
  · exact Nat.le_refl 1

theorem Reduced.shifted
    (h : c.Reduced vars) (steps : Nat) :
    (c.shifted steps).Reduced vars :=
  ⟨h.whole.shifted steps, h.irreducible.shifted steps⟩

theorem Whole.simplify_reduced
    (h : c.Whole vars) :
    Returns c.simplify (·.Reduced vars) := by
  obtain ⟨d, hd, hwhole⟩ := h.simplify
  exact ⟨d, hd, hwhole, irreducible_of_simplify h.divided hd⟩

theorem Whole.join_reduced
    (hc : c.Whole vars) (hd : d.Whole vars) :
    Returns (joinWith (reduction true) c d) (·.Reduced vars) :=
  (hc.append hd).bind fun _ he => he.simplify_reduced

/-- An intersection is simplified, unless it is empty already. -/
theorem Whole.intersect_reduced
    (hc : c.Whole vars) (hd : d.Whole vars) :
    Returns (intersectWith (reduction true) c d) (·.Reduced vars) := by
  have meets := hc.divided.meetAll hd.divided (Nat.le_refl _)
  rw [hc.divided.intersectWith_eq _ hd.divided]
  split
  · exact Returns.pure (reduced_empty vars)
  · exact (meets.whole hc.filled).simplify_reduced

end Irreducibility

end Cover

end MissionTime

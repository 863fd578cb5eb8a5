import MissionTime.Proofs.Cover.Combination

/-!
# Rows between free positions

Delaying a cover puts the same free positions before every row, and padding it puts free positions
behind every row until all are equally long. Merging and meeting rows do not see what stands around
them, so they may be done before or after; only trimming has to be looked at twice.

**Definitions.**
* `Word.framed`: a word between free positions.

**Results.**
* `Word.merge_framed` and `Word.meet_framed`: framing commutes with merging and meeting;
* `Cover.mergeAll_framed` and `Cover.meetRows_framed`: the same for all rows of a cover;
* `Word.trimmed_framed`: free blocks behind a word do not change what trimming leaves;
* `Word.padTo_trimmed`: what trimming drops is free.
-/

namespace MissionTime

namespace Word

section Frames

/-- The word between so many free positions before it and behind it. -/
def framed (before after : Nat) (w : Word) : Word :=
  List.replicate before .wild ++ (w ++ List.replicate after .wild)

@[simp] theorem length_framed
    (before after : Nat) (w : Word) :
    (framed before after w).length = before + w.length + after := by
  simp only [framed, List.length_append, List.length_replicate]
  omega

theorem framed_zero
    (before : Nat) (w : Word) :
    framed before 0 w = List.replicate before .wild ++ w := by
  simp [framed]

theorem padTo_eq_framed
    (length : Nat) (w : Word) :
    padTo length w = framed 0 (length - w.length) w := by
  simp [framed, padTo]

theorem padTo_padTo
    {length more : Nat} (h : length ≤ more) (w : Word) :
    padTo more (padTo length w) = padTo more w := by
  rw [padTo, length_padTo, padTo, padTo, List.append_assoc, List.replicate_append_replicate]
  congr 2
  omega

theorem merge_self
    (w : Word) :
    merge w w = some w := by
  induction w with
  | nil => rfl
  | cons b w ih => simp [merge, ih]

theorem merge_append_left
    (u v w : Word) :
    merge (u ++ v) (u ++ w) = (merge v w).map (u ++ ·) := by
  induction u with
  | nil => simp
  | cons b u ih =>
      rw [List.cons_append, List.cons_append, merge, if_pos rfl, ih, Option.map_map]
      rfl

theorem merge_append_right
    {v w : Word} (h : v.length = w.length) (u : Word) :
    merge (v ++ u) (w ++ u) = (merge v w).map (· ++ u) := by
  induction v generalizing w with
  | nil =>
      rw [List.length_nil] at h
      rw [List.eq_nil_of_length_eq_zero h.symm, List.nil_append, merge_self]
      rfl
  | cons a v ih =>
      cases w with
      | nil => simp at h
      | cons b w =>
          simp only [List.cons_append, merge, List.append_cancel_right_eq]
          split
          · rw [ih (Nat.succ.inj h), Option.map_map, Option.map_map]
            rfl
          · split <;> rfl

/-- Words of one length merge as they do between free positions. -/
theorem merge_framed
    {v w : Word} (h : v.length = w.length) (before after : Nat) :
    merge (framed before after v) (framed before after w) =
      (merge v w).map (framed before after) := by
  rw [framed, framed, merge_append_left, merge_append_right h, Option.map_map]
  rfl

theorem meet_append_left
    (count : Nat) (v w : Word) :
    meet (List.replicate count .wild ++ v) (List.replicate count .wild ++ w) =
      (meet v w).map (List.replicate count .wild ++ ·) := by
  induction count with
  | zero => simp
  | succ count ih =>
      rw [List.replicate_succ, List.cons_append, List.cons_append, meet, Bit.meet_wild_left]
      simp only [ih, Option.map_map]
      rfl

theorem meet_append_right
    {v w : Word} (h : v.length = w.length) (count : Nat) :
    meet (v ++ List.replicate count .wild) (w ++ List.replicate count .wild) =
      (meet v w).map (· ++ List.replicate count .wild) := by
  induction v generalizing w with
  | nil =>
      rw [List.length_nil] at h
      have free := meet_append_left count [] []
      rw [List.append_nil] at free
      rw [List.eq_nil_of_length_eq_zero h.symm, List.nil_append, free]
      simp [meet]
  | cons a v ih =>
      cases w with
      | nil => simp at h
      | cons b w =>
          simp only [List.cons_append, meet]
          cases a.meet b with
          | none => rfl
          | some c =>
              simp only [ih (Nat.succ.inj h), Option.map_map]
              rfl

/-- Words of one length meet as they do between free positions. -/
theorem meet_framed
    {v w : Word} (h : v.length = w.length) (before after : Nat) :
    meet (framed before after v) (framed before after w) =
      (meet v w).map (framed before after) := by
  rw [framed, framed, meet_append_left, meet_append_right h, Option.map_map]
  rfl

end Frames

section Trimming

variable {width : Nat} {w : Word}

/-- The blocks that remain are counted on the blocks that are looked at. -/
theorem trimmedCount_append
    (v : Word) {count : Nat} (h : count * width ≤ w.length) :
    trimmedCount width (w ++ v) count = trimmedCount width w count := by
  induction count with
  | zero => rfl
  | succ count ih =>
      cases count with
      | zero => rfl
      | succ count =>
          rw [Nat.succ_mul (count + 1)] at h
          have block : ((w ++ v).drop ((count + 1) * width)).take width =
              (w.drop ((count + 1) * width)).take width := by
            rw [List.drop_append_of_le_length (by omega),
              List.take_append_of_le_length (by rw [List.length_drop]; omega)]
          rw [trimmedCount, trimmedCount, block, ih (by omega)]

/-- Blocks behind the word that are free do not remain, as long as the word has a block. -/
theorem trimmedCount_framed
    {count : Nat} (hcount : 0 < count) (h : w.length = count * width) (more : Nat) :
    trimmedCount width (framed 0 (more * width) w) (count + more) = trimmedCount width w count := by
  induction more with
  | zero => simp [framed]
  | succ more ih =>
      obtain ⟨rest, hrest⟩ := Nat.exists_eq_add_of_lt hcount
      have free : IsWild (((framed 0 ((more + 1) * width) w).drop ((count + more) * width)).take
          width) := by
        have behind : w.length ≤ (count + more) * width := by
          rw [h]
          exact Nat.mul_le_mul_right width (Nat.le_add_right _ _)
        intro b hb
        have late := List.mem_of_mem_take hb
        rw [framed, List.replicate_zero, List.nil_append,
          List.drop_append, List.drop_eq_nil_of_le behind, List.nil_append] at late
        exact isWild_replicate _ b (List.mem_of_mem_drop late)
      have split : framed 0 ((more + 1) * width) w =
          framed 0 (more * width) w ++ List.replicate width .wild := by
        simp [framed, Nat.succ_mul]
      have room : (count + more) * width ≤ (framed 0 (more * width) w).length := by
        rw [length_framed, h, Nat.add_mul]
        omega
      rw [show count + (more + 1) = rest + more + 2 by omega, trimmedCount,
        show rest + more + 1 = count + more by omega, if_pos free, split,
        trimmedCount_append _ room, ih]

/-- Free blocks behind a word that has a block do not change what trimming leaves. -/
theorem trimmed_framed
    (hwidth : 0 < width) {count : Nat} (hcount : 0 < count) (h : w.length = count * width)
    (more : Nat) :
    trimmed width (framed 0 (more * width) w) = trimmed width w := by
  have blocks : (framed 0 (more * width) w).length / width = count + more := by
    rw [length_framed, h, Nat.zero_add, ← Nat.add_mul, Nat.mul_div_cancel _ hwidth]
  have fewer := Nat.mul_le_mul_right width (trimmedCount_le width w count)
  rw [trimmed, trimmed, blocks, trimmedCount_framed hcount h, h, Nat.mul_div_cancel _ hwidth,
    framed, List.replicate_zero, List.nil_append, List.take_append_of_le_length (by omega)]

/-- Dropping free blocks one by one from the end drops free positions. -/
theorem exists_take_trimmedCount
    (width : Nat) (w : Word) (count : Nat) :
    ∃ dropped, w.take (count * width) =
      w.take (trimmedCount width w count * width) ++ List.replicate dropped .wild := by
  induction count with
  | zero => exact ⟨0, by simp [trimmedCount]⟩
  | succ count ih =>
      cases count with
      | zero => exact ⟨0, by simp [trimmedCount]⟩
      | succ count =>
          rw [trimmedCount]
          split
          · rename_i free
            obtain ⟨dropped, hdropped⟩ := ih
            have block := List.eq_replicate_of_mem free
            refine ⟨dropped + ((w.drop ((count + 1) * width)).take width).length, ?_⟩
            rw [Nat.succ_mul (count + 1), List.take_add, hdropped, block, List.length_replicate,
              ← List.replicate_append_replicate, List.append_assoc]
          · exact ⟨0, by simp⟩

/-- What trimming drops is free. -/
theorem padTo_trimmed
    (h : width ∣ w.length) :
    padTo w.length (trimmed width w) = w := by
  obtain ⟨dropped, hdropped⟩ := exists_take_trimmedCount width w (w.length / width)
  rw [Nat.div_mul_cancel h, List.take_length] at hdropped
  have total := congrArg List.length hdropped
  rw [List.length_append, List.length_replicate] at total
  rw [padTo, trimmed]
  conv =>
    rhs
    rw [hdropped]
  congr 2
  omega

end Trimming

end Word

namespace Cover

section Rows

variable {length : Nat} {rows : List Word}

theorem even_framed
    (h : Even length rows) (before after : Nat) :
    Even (before + length + after) (rows.map (Word.framed before after)) := by
  intro u hu
  obtain ⟨w, hw, rfl⟩ := List.mem_map.mp hu
  rw [Word.length_framed, h w hw]

/-- A row between free positions absorbs what it absorbs without them. -/
theorem absorb_framed
    {row grown : Word} {left : List Word} (hrow : row.length = length) (hrows : Even length rows)
    (h : absorb row rows = .ok (grown, left)) (before after : Nat) :
    absorb (Word.framed before after row) (rows.map (Word.framed before after)) =
      .ok (Word.framed before after grown, left.map (Word.framed before after)) := by
  induction rows generalizing row left with
  | nil =>
      cases h
      rfl
  | cons other rest ih =>
      obtain ⟨hother, hrest⟩ := even_cons.mp hrows
      have same : row.length = other.length := hrow.trans hother.symm
      have framedSame : (Word.framed before after row).length =
          (Word.framed before after other).length := by
        rw [Word.length_framed, Word.length_framed, same]
      rw [absorb, Pattern.mergeWords, if_pos same] at h
      rw [List.map_cons, absorb, Pattern.mergeWords, if_pos framedSame, Word.merge_framed same]
      cases hmerge : Word.merge row other with
      | some merged =>
          rw [hmerge] at h
          exact ih ((Word.length_merge hmerge).trans hrow) hrest h
      | none =>
          rw [hmerge] at h
          change (absorb row rest >>= fun found => Except.ok (found.1, other :: found.2)) = _ at h
          obtain ⟨found, hfound, hmade⟩ := bind_eq_ok_iff.mp h
          cases hmade
          change (absorb _ (rest.map _) >>= fun found => Except.ok (found.1, _ :: found.2)) = _
          rw [ih hrow hrest hfound]
          rfl

/-- Rows that are framed alike are merged as they are without the frames. -/
theorem mergePass_framed
    {merged : List Word} (hrows : Even length rows) (h : mergePass rows = .ok merged)
    (before after : Nat) :
    mergePass (rows.map (Word.framed before after)) =
      .ok (merged.map (Word.framed before after)) := by
  induction hn : rows.length using Nat.strong_induction_on generalizing rows merged with
  | h n ih =>
      subst hn
      cases rows with
      | nil =>
          rw [mergePass] at h
          cases h
          rw [List.map_nil, mergePass]
      | cons row rest =>
          obtain ⟨hrow, hrest⟩ := even_cons.mp hrows
          obtain ⟨⟨grown, left⟩, hfound, habsorb, -⟩ := returns_absorb hrow hrest
          obtain ⟨-, hleft⟩ := even_cons.mp (habsorb.even hrows)
          have shorter : left.length < (row :: rest).length :=
            Nat.lt_succ_of_le (length_absorb_le hfound)
          obtain ⟨others, hothers, -⟩ := returns_mergePass hleft
          rw [mergePass_cons hfound, hothers] at h
          cases h
          rw [List.map_cons, mergePass_cons (absorb_framed hrow hrest hfound before after),
            ih left.length shorter hleft hothers rfl]
          rfl

theorem mergeAll_framed
    {merged : List Word} (hrows : Even length rows) (h : mergeAll rows = .ok merged)
    (before after : Nat) :
    mergeAll (rows.map (Word.framed before after)) =
      .ok (merged.map (Word.framed before after)) := by
  induction hn : rows.length using Nat.strong_induction_on generalizing rows with
  | h n ih =>
      subst hn
      obtain ⟨passed, hpass, hmerges, -⟩ := returns_mergePass hrows
      rw [mergeAll, hpass] at h
      rw [mergeAll, mergePass_framed hrows hpass]
      dsimp only at h ⊢
      rw [List.length_map, List.length_map]
      split at h
      · rename_i fewer
        rw [if_pos fewer]
        exact ih passed.length fewer (hmerges.even hrows) h rfl
      · rename_i stable
        rw [if_neg stable]
        cases h
        rfl

/-- Rows that are framed alike meet as they do without the frames. -/
theorem meetRows_framed
    {others : List Word} (hrows : Even length rows) (hothers : Even length others)
    (before after : Nat) :
    meetRows (rows.map (Word.framed before after)) (others.map (Word.framed before after)) =
      (meetRows rows others).map (Word.framed before after) := by
  rw [meetRows, meetRows, List.flatMap_map, List.map_flatMap]
  refine List.flatMap_congr fun v hv => ?_
  rw [List.filterMap_map, List.map_filterMap]
  refine List.filterMap_congr fun w hw => ?_
  exact Word.meet_framed ((hrows v hv).trans (hothers w hw).symm) before after

end Rows

section Frames

variable {vars : Nat} {c : Cover}

theorem rows_shifted
    (steps : Nat) (c : Cover) :
    (c.shifted steps).rows = c.rows.map (Word.framed (steps * c.width) 0) :=
  List.map_congr_left fun w _ => (Word.framed_zero (steps * c.width) w).symm

/-- Padding further frames all rows alike. -/
theorem Divided.rows_paddedTo_add
    (h : c.Divided vars) {target : Nat} (ht : c.blockCount ≤ target) (more : Nat) :
    (c.paddedTo (target + more)).rows =
      (c.paddedTo target).rows.map (Word.framed 0 (more * vars)) := by
  simp only [rows_paddedTo, List.map_map]
  refine List.map_congr_left fun w hw => ?_
  have padded := h.length_paddedTo ht (rows_paddedTo target c ▸ List.mem_map_of_mem hw)
  rw [Word.length_padTo, h.width] at padded
  simp only [Function.comp_apply, Word.padTo, Word.framed, List.replicate_zero, List.nil_append,
    List.append_assoc, List.replicate_append_replicate, h.width]
  rw [Nat.add_mul]
  congr 2
  omega

theorem paddedTo_paddedTo
    {target more : Nat} (h : target ≤ more) (c : Cover) :
    (c.paddedTo target).paddedTo more = c.paddedTo more := by
  simp only [paddedTo_eq, List.map_map, mk.injEq, true_and]
  refine List.map_congr_left fun w _ => ?_
  exact Word.padTo_padTo (Nat.mul_le_mul_right c.width h) w

/-- A delayed cover is padded as the cover is. -/
theorem paddedTo_shifted
    (steps target : Nat) (c : Cover) :
    (c.shifted steps).paddedTo (steps + target) = (c.paddedTo target).shifted steps := by
  simp only [shifted, paddedTo_eq, List.map_map, mk.injEq, true_and]
  refine List.map_congr_left fun w _ => ?_
  simp only [Function.comp_apply, Word.padTo, List.length_append, List.length_replicate,
    List.append_assoc]
  rw [Nat.add_mul, Nat.add_sub_add_left]

theorem shifted_shifted
    (steps more : Nat) (c : Cover) :
    (c.shifted steps).shifted more = c.shifted (more + steps) := by
  simp only [shifted, List.map_map, mk.injEq, true_and]
  refine List.map_congr_left fun w _ => ?_
  simp only [Function.comp_apply]
  rw [Nat.add_mul, ← List.replicate_append_replicate, List.append_assoc]

end Frames

end Cover

end MissionTime

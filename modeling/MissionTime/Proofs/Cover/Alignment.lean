import MissionTime.Proofs.Cover.Framing

/-!
# Covers that runs cannot tell apart

A simplified cover keeps no free blocks at the ends of its members, but a delayed one may: a free
member that is delayed becomes several free blocks. If covers are simplified, such ends make no
difference to what is computed next; if they are not, no such ends come up.

**Definitions.**
* `Cover.Alike`: covers that are equal, or equal up to padding if covers are simplified.

**Results.**
* `Cover.Alike.intersect`: alike covers have the same intersections;
* `Cover.alike_intersect_shifted`: delaying an intersection and intersecting delayed covers give
  alike covers.
-/

namespace MissionTime

namespace Cover

variable {vars blocks : Nat} {c d e : Cover}

section Intersections

theorem Fits.even_paddedTo
    (h : c.Fits vars blocks) {target : Nat} (ht : c.blockCount ≤ target) :
    Even (target * vars) (c.paddedTo target).rows :=
  h.divided.even_paddedTo ht

theorem intersectWith_eq
    (reduce : Cover → Except Error Cover) (hc : c.Fits vars blocks) (hd : d.Fits vars blocks) :
    intersectWith reduce c d =
      if c.rows = [] ∨ d.rows = [] then .ok (empty vars)
      else reduce (meetAll (commonBlocks c d) c d) :=
  hc.divided.intersectWith_eq reduce hd.divided

/-- The meets of members that fit fit, if there is room for a member. -/
theorem fits_meetAll
    (hc : c.Fits vars blocks) (hd : d.Fits vars blocks) {target : Nat}
    (ht : commonBlocks c d ≤ target) :
    (meetAll target c d).Fits vars target :=
  (hc.divided.meetAll hd.divided ht).fits hc.filled (Nat.le_refl target)

/-- Meets of members that are padded further are the padded meets. -/
theorem meetAll_eq_paddedTo
    (hc : c.Fits vars blocks) (hd : d.Fits vars blocks) {target more : Nat}
    (ht : commonBlocks c d ≤ target) (hmore : target ≤ more) :
    meetAll more c d = (meetAll target c d).paddedTo more := by
  obtain ⟨extra, rfl⟩ := Nat.exists_eq_add_of_le hmore
  have left := Nat.le_trans (Nat.le_max_left _ _) ht
  have right := Nat.le_trans (Nat.le_max_right _ _) ht
  have evenc := hc.even_paddedTo left
  have evend := hd.even_paddedTo right
  have rows : meetRows (c.paddedTo (target + extra)).rows (d.paddedTo (target + extra)).rows =
      (meetRows (c.paddedTo target).rows (d.paddedTo target).rows).map
        (Word.padTo ((target + extra) * vars)) := by
    rw [hc.divided.rows_paddedTo_add left, hd.divided.rows_paddedTo_add right, meetRows_framed evenc evend]
    refine List.map_congr_left fun u hu => ?_
    rw [Word.padTo_eq_framed, even_meetRows evenc evend u hu, Nat.add_mul, Nat.add_sub_cancel_left]
  rw [meetAll, rows, ← hc.width, paddedTo_eq (target + extra)]
  rfl

theorem blockCount_shifted
    (h : c.Fits vars blocks) (hne : c.rows ≠ []) (steps : Nat) :
    (c.shifted steps).blockCount = steps + c.blockCount := by
  have hvars : 0 < vars := Nat.pos_of_mul_pos_left (h.blockCount_pos hne)
  have later : ∀ w : Word, (List.replicate (steps * c.width) Bit.wild ++ w).length / c.width =
      steps + w.length / c.width := by
    intro w
    rw [List.length_append, List.length_replicate, Nat.add_comm,
      Nat.add_mul_div_right _ _ (h.width ▸ hvars), Nat.add_comm]
  apply Nat.le_antisymm
  · refine blockCount_le fun u hu => ?_
    obtain ⟨w, hw, rfl⟩ := List.mem_map.mp hu
    exact (later w).trans_le (Nat.add_le_add_left (le_blockCount hw) steps)
  · have each : ∀ w ∈ c.rows, steps + w.length / c.width ≤ (c.shifted steps).blockCount := by
      intro w hw
      rw [← later w]
      exact le_blockCount (c := c.shifted steps) (List.mem_map_of_mem hw)
    obtain ⟨w, hw⟩ := List.exists_mem_of_ne_nil _ hne
    have first := each w hw
    have most : c.blockCount ≤ (c.shifted steps).blockCount - steps :=
      blockCount_le fun w hw => Nat.le_sub_of_add_le' (each w hw)
    have delayed := Nat.le_of_add_right_le first
    omega

/-- Meets of delayed members are the delayed meets. -/
theorem meetAll_shifted
    (hc : c.Fits vars blocks) (hd : d.Fits vars blocks) {target : Nat}
    (ht : commonBlocks c d ≤ target) (steps : Nat) :
    meetAll (steps + target) (c.shifted steps) (d.shifted steps) =
      (meetAll target c d).shifted steps := by
  have left := hc.even_paddedTo (Nat.le_trans (Nat.le_max_left _ _) ht)
  have right := hd.even_paddedTo (Nat.le_trans (Nat.le_max_right _ _) ht)
  have width : d.width = c.width := hd.width.trans hc.width.symm
  have rows := meetRows_framed left right (steps * c.width) 0
  have delayed : meetRows ((c.paddedTo target).shifted steps).rows
      ((d.paddedTo target).shifted steps).rows = ((meetAll target c d).shifted steps).rows := by
    rw [rows_shifted, rows_shifted, rows_shifted]
    change meetRows (List.map (Word.framed (steps * c.width) 0) _)
      (List.map (Word.framed (steps * d.width) 0) _) = _
    rw [width]
    exact rows
  rw [meetAll, paddedTo_shifted, paddedTo_shifted, delayed]
  rfl

/-- Intersecting delayed covers is intersecting the covers and delaying the meets before they are
reduced. -/
theorem intersectWith_shifted
    (reduce : Cover → Except Error Cover) (hc : c.Fits vars blocks) (hd : d.Fits vars blocks)
    (hcne : c.rows ≠ []) (hdne : d.rows ≠ []) (steps : Nat) :
    intersectWith reduce (c.shifted steps) (d.shifted steps) =
      reduce ((meetAll (commonBlocks c d) c d).shifted steps) := by
  have members : ¬ ((c.shifted steps).rows = [] ∨ (d.shifted steps).rows = []) := by
    simp [shifted, hcne, hdne]
  have common : commonBlocks (c.shifted steps) (d.shifted steps) = steps + commonBlocks c d := by
    rw [commonBlocks, blockCount_shifted hc hcne, blockCount_shifted hd hdne, commonBlocks]
    omega
  rw [intersectWith_eq reduce (hc.shifted steps) (hd.shifted steps), if_neg members, common,
    meetAll_shifted hc hd (Nat.le_refl _)]

end Intersections

section Simplification

/-- However far the members are padded before they are merged, they are merged and trimmed to the
same. -/
theorem Fits.simplify_eq
    (h : c.Fits vars blocks) {target : Nat} (ht : c.blockCount ≤ target) :
    c.simplify = (mergeAll (c.paddedTo target).rows).map fun rows =>
      ⟨vars, rows.map (Word.trimmed vars)⟩ := by
  obtain ⟨more, rfl⟩ := Nat.exists_eq_add_of_le ht
  have even := h.divided.even_padded
  obtain ⟨merged, hmerged, hmerges, -⟩ := returns_mergeAll even
  have far : mergeAll (c.paddedTo (c.blockCount + more)).rows =
      .ok (merged.map (Word.framed 0 (more * vars))) := by
    rw [h.divided.rows_paddedTo_add (Nat.le_refl _)]
    exact mergeAll_framed even hmerged 0 (more * vars)
  rw [simplify, h.requireBlocks, far]
  change (mergeAll c.padded.rows >>= fun rows => _) = _
  rw [hmerged, h.width]
  refine congrArg (fun rows => Except.ok (⟨vars, rows⟩ : Cover)) ?_
  rw [List.map_map]
  refine List.map_congr_left fun w hw => ?_
  obtain ⟨v, hv⟩ := exists_member_of_merges hmerges hw
  have pos := h.blockCount_pos (List.ne_nil_of_mem hv)
  exact (Word.trimmed_framed (Nat.pos_of_mul_pos_left pos) (Nat.pos_of_mul_pos_right pos)
    (hmerges.even even w hw) more).symm

theorem simplify_paddedTo
    (h : c.Fits vars blocks) {target : Nat} (ht : c.blockCount ≤ target) :
    (c.paddedTo target).simplify = c.simplify := by
  have even := h.even_paddedTo ht
  have fits : (c.paddedTo target).Fits vars target := by
    refine ⟨h.width, fun w hw => ?_⟩
    obtain ⟨v, hv, rfl⟩ := mem_rows_paddedTo.mp hw
    rw [Word.Fills, even _ hw]
    have some := h.blockCount_pos (List.ne_nil_of_mem hv)
    have room := Nat.mul_le_mul_right vars ht
    exact ⟨Nat.lt_of_lt_of_le some room, Nat.dvd_mul_left _ _, Nat.le_refl _⟩
  have again : (c.paddedTo target).paddedTo target = c.paddedTo target := by
    refine paddedTo_eq_self fun w hw => ?_
    rw [fits.width, even w hw]
  rw [fits.simplify_eq fits.blockCount_le, again, h.simplify_eq ht]

/-- Rows that are trimmed and padded again are the rows. -/
theorem paddedTo_trimmed
    {rows : List Word} (h : Even (blocks * vars) rows) :
    paddedTo blocks ⟨vars, rows.map (Word.trimmed vars)⟩ = ⟨vars, rows⟩ := by
  rw [paddedTo_eq, List.map_map]
  refine congrArg (Cover.mk vars) ((List.map_congr_left fun w hw => ?_).trans (List.map_id _))
  have restored := Word.padTo_trimmed (h.dvd hw)
  rwa [h w hw] at restored

end Simplification

section Likeness

/-- Both covers fit and are the same when they are padded; if covers are not simplified, they are the
same as they stand. -/
structure Alike (simplify : Bool) (vars blocks : Nat) (c d : Cover) : Prop where
  left : c.Fits vars blocks
  right : d.Fits vars blocks
  padded : c.paddedTo blocks = d.paddedTo blocks
  same : simplify = false → c = d

variable {simplify : Bool}

theorem Alike.refl
    (simplify : Bool) (h : c.Fits vars blocks) :
    Alike simplify vars blocks c c :=
  ⟨h, h, rfl, fun _ => rfl⟩

theorem Alike.mono
    {more : Nat} (h : Alike simplify vars blocks c d) (hle : blocks ≤ more) :
    Alike simplify vars more c d where
  left := h.left.mono hle
  right := h.right.mono hle
  padded := by rw [← paddedTo_paddedTo hle c, h.padded, paddedTo_paddedTo hle d]
  same := h.same

theorem Alike.rows_eq_nil_iff
    (h : Alike simplify vars blocks c d) :
    c.rows = [] ↔ d.rows = [] := by
  have count := congrArg size h.padded
  rw [size, size, rows_paddedTo, rows_paddedTo, List.length_map, List.length_map] at count
  rw [← List.length_eq_zero_iff, count, List.length_eq_zero_iff]

/-- Alike covers have the same intersections. -/
theorem Alike.intersect
    (h : Alike simplify vars blocks c d) (he : e.Fits vars blocks) :
    intersectWith (reduction simplify) c e = intersectWith (reduction simplify) d e := by
  cases simplify with
  | false => rw [h.same rfl]
  | true =>
      have simplified : ∀ {x : Cover}, x.Fits vars blocks →
          (meetAll (commonBlocks x e) x e).simplify = (meetAll blocks x e).simplify := by
        intro x hx
        have room : commonBlocks x e ≤ blocks := hx.commonBlocks_le he
        have fits := fits_meetAll hx he (Nat.le_refl _)
        rw [meetAll_eq_paddedTo hx he (Nat.le_refl _) room,
          simplify_paddedTo fits (Nat.le_trans fits.blockCount_le room)]
      have meets : meetAll blocks c e = meetAll blocks d e := by
        rw [meetAll, meetAll, h.padded, h.left.width, h.right.width]
      rw [intersectWith_eq _ h.left he, intersectWith_eq _ h.right he]
      refine if_congr (or_congr_left h.rows_eq_nil_iff) rfl ?_
      change (meetAll (commonBlocks c e) c e).simplify = (meetAll (commonBlocks d e) d e).simplify
      rw [simplified h.left, simplified h.right, meets]

/-- Simplifying a delayed cover and delaying a simplified one differ in free blocks at the ends. -/
theorem alike_simplify_shifted
    {x : Cover} (h : c.Fits vars blocks) (hx : c.simplify = .ok x) (steps : Nat) :
    Returns (c.shifted steps).simplify fun y =>
      Alike true vars (steps + blocks) (x.shifted steps) y := by
  have even := h.even_paddedTo h.blockCount_le
  obtain ⟨merged, hmerged, hmerges, -⟩ := returns_mergeAll even
  have heven := hmerges.even even
  have delayed := mergeAll_framed even hmerged (steps * vars) 0
  have evenDelayed : Even ((steps + blocks) * vars) (merged.map (Word.framed (steps * vars) 0)) := by
    rw [Nat.add_mul]
    exact even_framed heven (steps * vars) 0
  obtain ⟨x', hx', hfits, -⟩ := returns_simplify h
  obtain ⟨y, hy, hfits', -⟩ := returns_simplify (h.shifted steps)
  obtain rfl : x' = x := Except.ok.inj (hx'.symm.trans hx)
  rw [h.simplify_eq h.blockCount_le, hmerged] at hx
  have hyrows := hy
  have rows : ((c.shifted steps).paddedTo (steps + blocks)).rows =
      (c.paddedTo blocks).rows.map (Word.framed (steps * vars) 0) := by
    rw [paddedTo_shifted, rows_shifted, ← h.width]
    rfl
  rw [(h.shifted steps).simplify_eq (h.shifted steps).blockCount_le, rows, delayed] at hyrows
  cases hx
  cases hyrows
  refine ⟨_, hy, hfits.shifted steps, hfits', ?_, fun hfalse => absurd hfalse (by decide)⟩
  rw [paddedTo_shifted, paddedTo_trimmed heven, paddedTo_trimmed evenDelayed]
  exact congrArg (Cover.mk vars) (rows_shifted steps ⟨vars, merged⟩)

/-- Delaying an intersection and intersecting delayed covers give alike covers. -/
theorem alike_intersect_shifted
    {x : Cover} (hc : c.Fits vars blocks) (hd : d.Fits vars blocks)
    (hx : intersectWith (reduction simplify) c d = .ok x) (steps : Nat) :
    Returns (intersectWith (reduction simplify) (c.shifted steps) (d.shifted steps)) fun y =>
      Alike simplify vars (steps + blocks) (x.shifted steps) y := by
  rw [intersectWith_eq _ hc hd] at hx
  by_cases hempty : c.rows = [] ∨ d.rows = []
  · have empties : (c.shifted steps).rows = [] ∨ (d.shifted steps).rows = [] := by
      simpa [shifted] using hempty
    rw [if_pos hempty] at hx
    cases hx
    rw [intersectWith_eq _ (hc.shifted steps) (hd.shifted steps), if_pos empties]
    exact Returns.pure (Alike.refl simplify (fits_empty vars _))
  · obtain ⟨hcne, hdne⟩ := not_or.mp hempty
    rw [if_neg hempty] at hx
    rw [intersectWith_shifted _ hc hd hcne hdne]
    have common : commonBlocks c d ≤ blocks := hc.commonBlocks_le hd
    have fits := (fits_meetAll hc hd (Nat.le_refl _)).mono common
    cases simplify with
    | false =>
        cases hx
        exact Returns.pure (Alike.refl false (fits.shifted steps))
    | true => exact alike_simplify_shifted fits hx steps

end Likeness

end Cover

end MissionTime

import MissionTime.Cover.Algebra
import MissionTime.Proofs.Cover.Merging

/-!
# Combining covers

Covers that are made of blocks never fail to combine. Simplifying keeps what is covered, joining is
union and intersecting is intersection, whether or not the result is simplified. No member becomes
longer than the longest one was, and none loses its last block.

**Definitions.**
* `Cover.Outcome`: what an operation makes of covers that are made of blocks;
* `Cover.meetAll`: the intersection before it is reduced.

**Results.**
* `Cover.Divided.simplify_rows`: a cover is simplified to its merged and trimmed members;
* `Cover.Divided.returns_simplify`, `Cover.Divided.returns_join`, `Cover.Divided.returns_intersect`;
* `Cover.returns_simplify`, `Cover.returns_join`, `Cover.returns_intersect`: the same for covers that
  fit a number of blocks.
-/

namespace MissionTime

namespace Cover

section Outcomes

variable {vars blocks : Nat} {filled : Prop} {P Q : Tape → Prop} {c : Cover}

/-- A divided cover of at most so many blocks that covers the tapes with a property. Under the condition
that the operands are filled, it is filled. -/
structure Outcome (c : Cover) (vars blocks : Nat) (filled : Prop) (P : Tape → Prop) : Prop where
  divided : c.Divided vars
  short : c.blockCount ≤ blocks
  filled : filled → c.Filled
  covers : ∀ σ, c.Covers σ ↔ P σ

theorem Outcome.fits
    (h : c.Outcome vars blocks filled P) (hfilled : filled) {more : Nat} (hle : blocks ≤ more) :
    c.Fits vars more :=
  h.divided.fits (h.short.trans hle) (h.filled hfilled)

/-- An outcome of an outcome. -/
theorem Outcome.trans
    {d : Cover} (h : c.Outcome vars blocks filled P)
    (hd : d.Outcome vars c.blockCount c.Filled c.Covers) :
    d.Outcome vars blocks filled P where
  divided := hd.divided
  short := hd.short.trans h.short
  filled hfilled := hd.filled (h.filled hfilled)
  covers σ := (hd.covers σ).trans (h.covers σ)

end Outcomes

section Simplification

variable {vars blocks : Nat} {c : Cover}

theorem length_rows_padded
    (c : Cover) :
    c.padded.rows.length = c.rows.length := by
  simp [padded, rows_paddedTo]

theorem Divided.even_paddedTo
    (h : c.Divided vars) {target : Nat} (ht : c.blockCount ≤ target) :
    Even (target * vars) (c.paddedTo target).rows :=
  fun _ hw => h.length_paddedTo ht hw

theorem Divided.even_padded
    (h : c.Divided vars) :
    Even (c.blockCount * vars) c.padded.rows :=
  h.even_paddedTo (Nat.le_refl _)

/-- A divided cover is simplified by merging its padded members until no two of them merge and trimming
what they have become. -/
theorem Divided.simplify_rows
    (h : c.Divided vars) :
    ∃ rows, c.simplify = .ok ⟨vars, rows.map (Word.trimmed vars)⟩ ∧
      Merges c.padded.rows rows ∧ Unmerged rows ∧ Even (c.blockCount * vars) rows := by
  have even := h.even_padded
  obtain ⟨rows, hrows, hmerges, hunmerged⟩ := returns_mergeAll even
  refine ⟨rows, ?_, hmerges, hunmerged, hmerges.even even⟩
  rw [simplify, h.requireBlocks, ← h.width]
  change (mergeAll c.padded.rows >>= fun rows => _) = _
  rw [hrows]
  rfl

theorem Divided.rows_of_simplify
    {d : Cover} (h : c.Divided vars) (hd : c.simplify = .ok d) :
    ∃ rows, d = ⟨vars, rows.map (Word.trimmed vars)⟩ ∧
      Merges c.padded.rows rows ∧ Unmerged rows ∧ Even (c.blockCount * vars) rows := by
  obtain ⟨rows, hmade, hrows⟩ := h.simplify_rows
  exact ⟨rows, Except.ok.inj (hd.symm.trans hmade), hrows⟩

/-- A row is made of members only if there are some. -/
theorem exists_member_of_merges
    {rows : List Word} (h : Merges c.padded.rows rows) {v : Word} (hv : v ∈ rows) :
    ∃ w, w ∈ c.rows := by
  have count := h.length_le
  rw [length_rows_padded] at count
  exact List.exists_mem_of_length_pos (Nat.lt_of_lt_of_le (List.length_pos_of_mem hv) count)

/-- Simplifying a divided cover succeeds and keeps what is covered. -/
theorem Divided.returns_simplify
    (h : c.Divided vars) :
    Returns c.simplify (·.Outcome vars c.blockCount c.Filled c.Covers) := by
  obtain ⟨rows, hmade, hmerges, -, even⟩ := h.simplify_rows
  refine ⟨_, hmade, ⟨rfl, fun u hu => ?_⟩, blockCount_le_of_length rfl fun u hu => ?_,
    fun hfilled u hu => ?_, fun σ => ?_⟩
  · obtain ⟨v, hv, rfl⟩ := List.mem_map.mp hu
    obtain ⟨w, hw⟩ := exists_member_of_merges hmerges hv
    exact ⟨(h.rows w hw).1, Word.dvd_length_trimmed vars v⟩
  · obtain ⟨v, hv, rfl⟩ := List.mem_map.mp hu
    rw [← even v hv]
    exact Word.length_trimmed_le vars v
  · obtain ⟨v, hv, rfl⟩ := List.mem_map.mp hu
    obtain ⟨w, hw⟩ := exists_member_of_merges hmerges hv
    have full := Nat.lt_of_lt_of_le (hfilled w hw) (h.length_le (Nat.le_refl _) hw)
    rw [← even v hv] at full
    exact Word.length_trimmed_pos full (even.dvd hv)
  · have trimmed : RowsCover (rows.map (Word.trimmed vars)) σ ↔ RowsCover rows σ :=
      rowsCover_map fun w hw => Word.matches_trimmed (even.dvd hw) σ
    exact trimmed.trans ((hmerges.rowsCover σ).trans (covers_paddedTo _ c σ))

theorem Divided.returns_reduction
    (simplify : Bool) (h : c.Divided vars) :
    Returns (reduction simplify c) (·.Outcome vars c.blockCount c.Filled c.Covers) := by
  cases simplify with
  | true => exact h.returns_simplify
  | false => exact Returns.pure ⟨h, Nat.le_refl _, id, fun σ => Iff.rfl⟩

/-- Simplifying a cover that fits succeeds and keeps what is covered. -/
theorem returns_simplify
    (h : c.Fits vars blocks) :
    Returns c.simplify fun d => d.Fits vars blocks ∧ ∀ σ, d.Covers σ ↔ c.Covers σ :=
  h.divided.returns_simplify.mono fun _ hd => ⟨hd.fits h.filled h.blockCount_le, hd.covers⟩

end Simplification

section Union

variable {vars blocks : Nat} {c d : Cover}

/-- The larger number of blocks of two covers. -/
def commonBlocks (c d : Cover) : Nat :=
  max c.blockCount d.blockCount

theorem Fits.commonBlocks_le
    (hc : c.Fits vars blocks) (hd : d.Fits vars blocks) :
    commonBlocks c d ≤ blocks :=
  Nat.max_le.mpr ⟨hc.blockCount_le, hd.blockCount_le⟩

/-- The members of two divided covers make a divided cover. -/
theorem Divided.append
    (hc : c.Divided vars) (hd : d.Divided vars) :
    Returns (c.append d) (·.Outcome vars (commonBlocks c d) (c.Filled ∧ d.Filled)
      fun σ => c.Covers σ ∨ d.Covers σ) := by
  rw [Cover.append, Pattern.requireWidth, if_pos (hc.width.trans hd.width.symm)]
  refine Returns.pure ⟨⟨hc.width, fun w hw => ?_⟩, blockCount_le_of_length hc.width fun w hw => ?_,
    fun hfilled w hw => ?_, rowsCover_append c.rows d.rows⟩
  all_goals rcases List.mem_append.mp hw with hw | hw
  · exact hc.rows w hw
  · exact hd.rows w hw
  · exact hc.length_le (Nat.le_max_left _ _) hw
  · exact hd.length_le (Nat.le_max_right _ _) hw
  · exact hfilled.1 w hw
  · exact hfilled.2 w hw

/-- Joining divided covers of one width is union. -/
theorem Divided.returns_join
    (simplify : Bool) (hc : c.Divided vars) (hd : d.Divided vars) :
    Returns (joinWith (reduction simplify) c d) (·.Outcome vars (commonBlocks c d)
      (c.Filled ∧ d.Filled) fun σ => c.Covers σ ∨ d.Covers σ) :=
  (hc.append hd).bind fun _ hx => (hx.divided.returns_reduction simplify).mono fun _ => hx.trans

/-- Joining covers of one width is union. -/
theorem returns_join
    (simplify : Bool) (hc : c.Fits vars blocks) (hd : d.Fits vars blocks) :
    Returns (joinWith (reduction simplify) c d) fun e =>
      e.Fits vars blocks ∧ ∀ σ, e.Covers σ ↔ c.Covers σ ∨ d.Covers σ :=
  (hc.divided.returns_join simplify hd.divided).mono fun _ he =>
    ⟨he.fits ⟨hc.filled, hd.filled⟩ (hc.commonBlocks_le hd), he.covers⟩

end Union

section Intersection

variable {vars blocks : Nat} {c d : Cover}

/-- The meets of all pairs of equally long rows cover what both lists of rows cover. -/
theorem rowsCover_meetRows
    {length : Nat} {rows others : List Word} (hrows : Even length rows)
    (hothers : Even length others) (σ : Tape) :
    RowsCover (meetRows rows others) σ ↔ RowsCover rows σ ∧ RowsCover others σ := by
  have same : ∀ v ∈ rows, ∀ w ∈ others, v.length = w.length := fun v hv w hw =>
    (hrows v hv).trans (hothers w hw).symm
  constructor
  · rintro ⟨u, hu, hm⟩
    obtain ⟨v, hv, hu⟩ := List.mem_flatMap.mp hu
    obtain ⟨w, hw, hmeet⟩ := List.mem_filterMap.mp hu
    have both := (Word.matches_meet (same v hv w hw) σ).mpr ⟨u, hmeet, hm⟩
    exact ⟨⟨v, hv, both.1⟩, ⟨w, hw, both.2⟩⟩
  · rintro ⟨⟨v, hv, hvm⟩, ⟨w, hw, hwm⟩⟩
    obtain ⟨u, hmeet, hm⟩ := (Word.matches_meet (same v hv w hw) σ).mp ⟨hvm, hwm⟩
    refine ⟨u, List.mem_flatMap.mpr ⟨v, hv, ?_⟩, hm⟩
    exact List.mem_filterMap.mpr ⟨w, hw, hmeet⟩

theorem even_meetRows
    {length : Nat} {rows others : List Word} (hrows : Even length rows)
    (hothers : Even length others) :
    Even length (meetRows rows others) := by
  intro u hu
  obtain ⟨v, hv, hu⟩ := List.mem_flatMap.mp hu
  obtain ⟨w, hw, hmeet⟩ := List.mem_filterMap.mp hu
  have same := (hrows v hv).trans (hothers w hw).symm
  exact (Word.length_meet same hmeet).trans (hrows v hv)

/-- The meets of all pairs of members, padded to so many blocks. -/
def meetAll (blocks : Nat) (c d : Cover) : Cover :=
  ⟨c.width, meetRows (c.paddedTo blocks).rows (d.paddedTo blocks).rows⟩

theorem rows_meetAll_eq_nil
    (blocks : Nat) (h : c.rows = [] ∨ d.rows = []) :
    (meetAll blocks c d).rows = [] := by
  rcases h with h | h <;> simp [meetAll, meetRows, rows_paddedTo, h]

/-- The meets of the members of two divided covers make a divided cover. -/
theorem Divided.meetAll
    (hc : c.Divided vars) (hd : d.Divided vars) {target : Nat} (ht : commonBlocks c d ≤ target) :
    (meetAll target c d).Outcome vars target c.Filled fun σ => c.Covers σ ∧ d.Covers σ := by
  have left := hc.even_paddedTo (Nat.le_trans (Nat.le_max_left _ _) ht)
  have right := hd.even_paddedTo (Nat.le_trans (Nat.le_max_right _ _) ht)
  have even := even_meetRows left right
  have member : ∀ u ∈ (Cover.meetAll target c d).rows, ∃ w, w ∈ c.rows := by
    intro u hu
    refine List.exists_mem_of_ne_nil _ fun hnil => ?_
    rw [rows_meetAll_eq_nil target (Or.inl hnil)] at hu
    exact absurd hu List.not_mem_nil
  refine ⟨⟨hc.width, fun u hu => ?_⟩, blockCount_le_of_length hc.width fun u hu => ?_,
    fun hfilled u hu => ?_, fun σ => (rowsCover_meetRows left right σ).trans ?_⟩
  · obtain ⟨w, hw⟩ := member u hu
    rw [even u hu]
    exact ⟨(hc.rows w hw).1, Nat.dvd_mul_left _ _⟩
  · exact Nat.le_of_eq (even u hu)
  · obtain ⟨w, hw⟩ := member u hu
    rw [even u hu]
    exact Nat.lt_of_lt_of_le (hfilled w hw)
      (hc.length_le (Nat.le_trans (Nat.le_max_left _ _) ht) hw)
  · exact and_congr (covers_paddedTo _ c σ) (covers_paddedTo _ d σ)

theorem Divided.requireMeet
    (hc : c.Divided vars) (hd : d.Divided vars) :
    requireMeet c d = .ok () := by
  rw [Cover.requireMeet, Pattern.requireWidth, if_pos (hc.width.trans hd.width.symm),
    hc.requireBlocks]
  by_cases hempty : c.rows = [] ∨ d.rows = []
  · simp only [hempty]
    rfl
  · simp only [hempty]
    rfl

theorem Divided.intersectWith_eq
    (reduce : Cover → Except Error Cover) (hc : c.Divided vars) (hd : d.Divided vars) :
    intersectWith reduce c d =
      if c.rows = [] ∨ d.rows = [] then .ok (empty vars)
      else reduce (Cover.meetAll (commonBlocks c d) c d) := by
  change (Cover.requireMeet c d >>= fun _ => _) = _
  rw [hc.requireMeet hd, ← hc.width]
  rfl

/-- Intersecting divided covers of one width is intersection. -/
theorem Divided.returns_intersect
    (simplify : Bool) (hc : c.Divided vars) (hd : d.Divided vars) :
    Returns (intersectWith (reduction simplify) c d) (·.Outcome vars (commonBlocks c d) c.Filled
      fun σ => c.Covers σ ∧ d.Covers σ) := by
  have meets := hc.meetAll hd (Nat.le_refl _)
  rw [hc.intersectWith_eq _ hd]
  split
  · -- The empty cover has the rows of the meets, of which there are none.
    rename_i hempty
    have made : Cover.meetAll (commonBlocks c d) c d = empty vars := by
      rw [empty, ← rows_meetAll_eq_nil (commonBlocks c d) hempty, ← hc.width]
      rfl
    rw [← made]
    exact Returns.pure meets
  · exact (meets.divided.returns_reduction simplify).mono fun _ => meets.trans

/-- Intersecting covers of one width is intersection. -/
theorem returns_intersect
    (simplify : Bool) (hc : c.Fits vars blocks) (hd : d.Fits vars blocks) :
    Returns (intersectWith (reduction simplify) c d) fun e =>
      e.Fits vars blocks ∧ ∀ σ, e.Covers σ ↔ c.Covers σ ∧ d.Covers σ :=
  (hc.divided.returns_intersect simplify hd.divided).mono fun _ he =>
    ⟨he.fits hc.filled (hc.commonBlocks_le hd), he.covers⟩

end Intersection

end Cover

end MissionTime

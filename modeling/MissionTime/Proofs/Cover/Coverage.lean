import MissionTime.Proofs.Cover.Delay
import MissionTime.Proofs.Tape

/-!
# What covers cover

A cover covers the tapes that one of its members matches. Its members are words of whole blocks; how
many blocks they have at most is bounded, and the bound is what later decides how far a cover reads.

**Definitions.**
* `Cover.Covers`: some member matches a tape;
* `Cover.Divided`: the members are words of whole blocks, any number of them, and `Cover.Filled`: each
  member has one;
* `Word.Fills` and `Cover.Fits`: the members are words of at least one and at most so many blocks.

**Results.**
* `Cover.covers_shifted`, `Cover.covers_paddedTo`: delayed and padded covers;
* `Cover.Divided.requireBlocks`: the blocks of a divided cover can be counted;
* `Cover.Divided.length_paddedTo`: padding makes all members equally long.
-/

namespace MissionTime

/-- The word consists of at least one and at most so many blocks. -/
def Word.Fills (width blocks : Nat) (w : Word) : Prop :=
  0 < w.length ∧ width ∣ w.length ∧ w.length ≤ blocks * width

namespace Cover

section Covering

/-- Some row matches the tape. -/
def RowsCover (rows : List Word) (σ : Tape) : Prop :=
  ∃ w ∈ rows, w.Matches σ

/-- Some member matches the tape. -/
def Covers (c : Cover) (σ : Tape) : Prop :=
  RowsCover c.rows σ

@[simp] theorem rowsCover_nil
    (σ : Tape) :
    ¬ RowsCover [] σ := by
  simp [RowsCover]

theorem rowsCover_cons
    (w : Word) (rows : List Word) (σ : Tape) :
    RowsCover (w :: rows) σ ↔ w.Matches σ ∨ RowsCover rows σ := by
  simp [RowsCover]

theorem rowsCover_append
    (rows others : List Word) (σ : Tape) :
    RowsCover (rows ++ others) σ ↔ RowsCover rows σ ∨ RowsCover others σ := by
  simp [RowsCover, or_and_right, exists_or]

/-- Rows that are changed without changing what they match cover the same tapes. -/
theorem rowsCover_map
    {change : Word → Word} {rows : List Word} {σ τ : Tape}
    (h : ∀ w ∈ rows, (change w).Matches σ ↔ w.Matches τ) :
    RowsCover (rows.map change) σ ↔ RowsCover rows τ := by
  constructor
  · rintro ⟨w, hw, hm⟩
    obtain ⟨v, hv, rfl⟩ := List.mem_map.mp hw
    exact ⟨v, hv, (h v hv).mp hm⟩
  · rintro ⟨v, hv, hm⟩
    exact ⟨change v, List.mem_map_of_mem hv, (h v hv).mpr hm⟩

theorem covers_empty
    (vars : Nat) (σ : Tape) :
    ¬ (empty vars).Covers σ :=
  rowsCover_nil σ

theorem covers_top
    {vars : Nat} (h : 0 < vars) (σ : Tape) :
    (top vars).Covers σ := by
  rw [top, if_neg (Nat.ne_of_gt h)]
  exact ⟨_, List.mem_singleton_self _, Word.matches_wild (Word.isWild_replicate vars) σ⟩

theorem covers_shifted
    (steps : Nat) (c : Cover) (σ : Tape) :
    (c.shifted steps).Covers σ ↔ c.Covers (σ.drop (steps * c.width)) :=
  rowsCover_map fun w _ => Word.matches_shift (steps * c.width) w σ

theorem covers_paddedTo
    (blocks : Nat) (c : Cover) (σ : Tape) :
    (c.paddedTo blocks).Covers σ ↔ c.Covers σ := by
  rw [Covers, rows_paddedTo]
  exact rowsCover_map fun w _ => Word.matches_padTo (blocks * c.width) w σ

end Covering

section Fitting

variable {vars blocks : Nat} {c : Cover}

/-- The members of the cover are words of whole blocks of the given width; they may have none. -/
structure Divided (c : Cover) (vars : Nat) : Prop where
  width : c.width = vars
  rows : ∀ w ∈ c.rows, 0 < vars ∧ vars ∣ w.length

theorem Divided.requireBlocks
    (h : c.Divided vars) :
    c.requireBlocks = .ok () := by
  rw [Cover.requireBlocks, if_neg]
  rintro ⟨hwidth, hne⟩
  obtain ⟨w, hw⟩ := List.exists_mem_of_ne_nil _ hne
  have hvars := (h.rows w hw).1
  rw [h.width] at hwidth
  exact absurd hwidth (Nat.ne_of_gt hvars)

/-- No member is without blocks. -/
def Filled (c : Cover) : Prop :=
  ∀ w ∈ c.rows, 0 < w.length

/-- The members of the cover are words of whole blocks, at least one and at most so many. -/
structure Fits (c : Cover) (vars blocks : Nat) : Prop where
  width : c.width = vars
  rows : ∀ w ∈ c.rows, w.Fills vars blocks

theorem Fits.divided
    (h : c.Fits vars blocks) :
    c.Divided vars := by
  refine ⟨h.width, fun w hw => ?_⟩
  obtain ⟨pos, whole, -⟩ := h.rows w hw
  exact ⟨Nat.pos_of_dvd_of_pos whole pos, whole⟩

theorem Fits.filled
    (h : c.Fits vars blocks) :
    c.Filled :=
  fun w hw => (h.rows w hw).1

theorem Fits.requireBlocks
    (h : c.Fits vars blocks) :
    c.requireBlocks = .ok () :=
  h.divided.requireBlocks

theorem Fits.mono
    {more : Nat} (h : c.Fits vars blocks) (hle : blocks ≤ more) :
    c.Fits vars more := by
  refine ⟨h.width, fun w hw => ?_⟩
  obtain ⟨pos, whole, room⟩ := h.rows w hw
  exact ⟨pos, whole, Nat.le_trans room (Nat.mul_le_mul_right vars hle)⟩

/-- Without variables there is no member. -/
theorem Fits.rows_eq_nil
    (h : c.Fits 0 blocks) :
    c.rows = [] :=
  List.eq_nil_iff_forall_not_mem.mpr fun w hw =>
    absurd (h.divided.rows w hw).1 (Nat.lt_irrefl 0)

theorem fits_empty
    (vars blocks : Nat) :
    (empty vars).Fits vars blocks :=
  ⟨rfl, by simp [empty]⟩

theorem fits_top
    (vars : Nat) {blocks : Nat} (h : 1 ≤ blocks) :
    (top vars).Fits vars blocks := by
  rw [top]
  split
  · exact fits_empty vars blocks
  · rename_i hvars
    refine ⟨rfl, fun w hw => ?_⟩
    rw [List.mem_singleton.mp hw]
    refine ⟨?_, ?_, ?_⟩
    · simpa using Nat.pos_of_ne_zero hvars
    · simp
    · simpa using Nat.le_mul_of_pos_left vars h

theorem Fits.shifted
    (h : c.Fits vars blocks) (steps : Nat) :
    (c.shifted steps).Fits vars (steps + blocks) := by
  refine ⟨h.width, fun w hw => ?_⟩
  obtain ⟨v, hv, rfl⟩ := List.mem_map.mp hw
  obtain ⟨pos, whole, room⟩ := h.rows v hv
  rw [Word.Fills, List.length_append, List.length_replicate, h.width]
  refine ⟨by omega, Nat.dvd_add (Nat.dvd_mul_left vars steps) whole, ?_⟩
  rw [Nat.add_mul]
  omega

end Fitting

section Blocks

variable {vars blocks : Nat} {c : Cover}

theorem le_blockCount
    {w : Word} (hw : w ∈ c.rows) :
    w.length / c.width ≤ c.blockCount := by
  have counted : w.length / c.width ∈ c.members.map Pattern.blockCount :=
    List.mem_map.mpr ⟨⟨c.width, w⟩, List.mem_map_of_mem hw, rfl⟩
  rw [blockCount]
  cases hmax : (c.members.map Pattern.blockCount).max? with
  | none =>
      rw [List.max?_eq_none_iff.mp hmax] at counted
      exact absurd counted List.not_mem_nil
  | some most => exact (List.max?_eq_some_iff.mp hmax).2 _ counted

theorem blockCount_le
    (h : ∀ w ∈ c.rows, w.length / c.width ≤ blocks) :
    c.blockCount ≤ blocks := by
  rw [blockCount]
  cases hmax : (c.members.map Pattern.blockCount).max? with
  | none => exact Nat.zero_le blocks
  | some most =>
      obtain ⟨hmem, -⟩ := List.max?_eq_some_iff.mp hmax
      obtain ⟨p, hp, rfl⟩ := List.mem_map.mp hmem
      obtain ⟨w, hw, rfl⟩ := List.mem_map.mp hp
      exact h w hw

theorem blockCount_le_of_length
    (hwidth : c.width = vars) (h : ∀ w ∈ c.rows, w.length ≤ blocks * vars) :
    c.blockCount ≤ blocks := by
  subst hwidth
  exact blockCount_le fun w hw => Nat.div_le_of_le_mul (Nat.mul_comm blocks _ ▸ h w hw)

/-- A cover that fits has no more blocks than allowed. -/
theorem Fits.blockCount_le
    (h : c.Fits vars blocks) :
    c.blockCount ≤ blocks :=
  blockCount_le_of_length h.width fun w hw => (h.rows w hw).2.2

theorem Divided.length_le
    (h : c.Divided vars) (hle : c.blockCount ≤ blocks) {w : Word} (hw : w ∈ c.rows) :
    w.length ≤ blocks * vars := by
  have few := Nat.le_trans (le_blockCount hw) hle
  rw [h.width] at few
  rw [← Nat.div_mul_cancel (h.rows w hw).2]
  exact Nat.mul_le_mul_right vars few

/-- A divided cover all of whose members have a block fits. -/
theorem Divided.fits
    (h : c.Divided vars) (hle : c.blockCount ≤ blocks) (hfilled : c.Filled) :
    c.Fits vars blocks :=
  ⟨h.width, fun w hw => ⟨hfilled w hw, (h.rows w hw).2, h.length_le hle hw⟩⟩

/-- All members padded beyond the longest have one length. -/
theorem Divided.length_paddedTo
    (h : c.Divided vars) {target : Nat} (ht : c.blockCount ≤ target) {w : Word}
    (hw : w ∈ (c.paddedTo target).rows) :
    w.length = target * vars := by
  obtain ⟨v, hv, rfl⟩ := mem_rows_paddedTo.mp hw
  rw [Word.length_padTo, h.width]
  exact Nat.max_eq_left (h.length_le ht hv)

theorem paddedTo_eq_self
    (h : ∀ w ∈ c.rows, blocks * c.width ≤ w.length) :
    c.paddedTo blocks = c := by
  have rows : c.rows.map (Word.padTo (blocks * c.width)) = c.rows :=
    (List.map_congr_left fun w hw => Word.padTo_of_le (h w hw)).trans (List.map_id _)
  rw [paddedTo_eq, rows]

/-- A cover with a member has blocks. -/
theorem Fits.blockCount_pos
    (h : c.Fits vars blocks) (hne : c.rows ≠ []) :
    0 < c.blockCount * vars := by
  obtain ⟨w, hw⟩ := List.exists_mem_of_ne_nil _ hne
  obtain ⟨pos, whole, room⟩ := h.rows w hw
  have few := Nat.mul_le_mul_right vars (le_blockCount hw)
  rw [h.width, Nat.div_mul_cancel whole] at few
  omega

end Blocks

end Cover

end MissionTime

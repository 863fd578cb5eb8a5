import MissionTime.Proofs.Cover.Listing
import MissionTime.Proofs.Cover.Separation

/-!
# The shape of covers

Every cover is made of words that fill blocks of its width, at least one block each. Reading patterns
makes such covers, and every operation on such covers of one width answers with such a cover. So a
sequence of operations never fails while the lengths that it computes are admitted; only an operand of
another width is refused. A length that loses digits can cut a block.

**Definitions.**
* `Cover.Whole`: the members are words of whole blocks;
* `Cover.Step.Suits`: the operand of an operation, if there is one, has the shape and the width;
* `Cover.run`: operations applied one after the other.

**Results.**
* `Cover.whole_iff_fits`: a whole cover fits some number of blocks, and the other way round;
* `Cover.whole_of_ofTexts`: covers that are read are whole;
* `Cover.Whole.apply`: what one operation keeps;
* `Cover.run_whole`: what all of them keep, and what an operand of another width does.
-/

namespace MissionTime

namespace Cover

variable {vars blocks : Nat} {c d : Cover}

/-- The members have the given width and whole blocks, at least one. -/
structure Whole (c : Cover) (vars : Nat) : Prop where
  width : c.width = vars
  rows : ∀ w ∈ c.rows, 0 < w.length ∧ vars ∣ w.length

instance : Decidable (c.Whole vars) :=
  decidable_of_iff (c.width = vars ∧ ∀ w ∈ c.rows, 0 < w.length ∧ vars ∣ w.length)
    ⟨fun h => ⟨h.1, h.2⟩, fun h => ⟨h.width, h.rows⟩⟩

section Shape

theorem Whole.divided
    (h : c.Whole vars) :
    c.Divided vars := by
  refine ⟨h.width, fun w hw => ?_⟩
  obtain ⟨pos, whole⟩ := h.rows w hw
  exact ⟨Nat.pos_of_dvd_of_pos whole pos, whole⟩

theorem Divided.whole
    (h : c.Divided vars) (hfilled : c.Filled) :
    c.Whole vars :=
  ⟨h.width, fun w hw => ⟨hfilled w hw, (h.rows w hw).2⟩⟩

theorem Outcome.whole
    {filled : Prop} {P : Tape → Prop} (h : c.Outcome vars blocks filled P) (hfilled : filled) :
    c.Whole vars :=
  h.divided.whole (h.filled hfilled)

theorem Whole.filled
    (h : c.Whole vars) :
    c.Filled :=
  fun w hw => (h.rows w hw).1

theorem Fits.whole
    (h : c.Fits vars blocks) :
    c.Whole vars :=
  h.divided.whole h.filled

/-- A whole cover fits every number of blocks that its longest member does not exceed. -/
theorem Whole.fits
    (h : c.Whole vars) (hle : c.blockCount ≤ blocks) :
    c.Fits vars blocks :=
  h.divided.fits hle h.filled

theorem whole_iff_fits :
    c.Whole vars ↔ ∃ blocks, c.Fits vars blocks := by
  constructor
  · intro h
    exact ⟨c.blockCount, h.fits (Nat.le_refl _)⟩
  · rintro ⟨blocks, h⟩
    exact h.whole

theorem Divided.length_member
    (h : c.Divided vars) {p : Pattern} (hp : p ∈ c.members) :
    p.width = vars ∧ p.bits.length = p.blockCount * vars := by
  obtain ⟨w, hw, rfl⟩ := List.mem_map.mp hp
  rw [Pattern.blockCount, h.width]
  exact ⟨rfl, (Nat.div_mul_cancel (h.rows w hw).2).symm⟩

theorem Divided.length_member_le
    (h : c.Divided vars) {p : Pattern} (hp : p ∈ c.members) (hle : p.blockCount ≤ blocks) :
    p.bits.length ≤ blocks * p.width := by
  obtain ⟨hwidth, hlength⟩ := h.length_member hp
  rw [hwidth, hlength]
  exact Nat.mul_le_mul_right vars hle

/-- Members that are padded to a common number of blocks are equally long. -/
theorem Divided.length_padded
    (h : c.Divided vars) {p : Pattern} (hp : p ∈ c.members) (hle : p.blockCount ≤ blocks) :
    (p.padded blocks).bits.length = blocks * vars := by
  rw [Pattern.padded, Word.length_padTo, Nat.max_eq_left (h.length_member_le hp hle),
    (h.length_member hp).1]

/-- A member of a whole cover has blocks of its width, at least one. -/
theorem Whole.member
    (h : c.Whole vars) {p : Pattern} (hp : p ∈ c.members) :
    p.width = vars ∧ 0 < p.blockCount ∧ p.bits.length = p.blockCount * vars := by
  obtain ⟨hwidth, hlength⟩ := h.divided.length_member hp
  obtain ⟨w, hw, rfl⟩ := List.mem_map.mp hp
  have full := h.filled w hw
  exact ⟨hwidth, Nat.pos_of_mul_pos_right (hlength ▸ full), hlength⟩

theorem Whole.length_padded
    (h : c.Whole vars) {p : Pattern} (hp : p ∈ c.members) (hle : p.blockCount ≤ blocks) :
    (p.padded blocks).bits.length = blocks * vars :=
  h.divided.length_padded hp hle

theorem Whole.members_eq_nil
    (h : c.Whole 0) :
    c.members = [] := by
  obtain ⟨blocks, hfits⟩ := whole_iff_fits.mp h
  rw [members, hfits.rows_eq_nil, List.map_nil]

end Shape

section Reading

theorem bits_of_ofBits
    {width : Nat} {bits : Word} {p : Pattern} (h : Pattern.ofBits width bits = .ok p) :
    0 < p.bits.length ∧ p.width ∣ p.bits.length := by
  rw [Pattern.ofBits] at h
  split at h
  · cases h
  · rename_i accepted
    obtain ⟨-, hbits⟩ := not_or.mp accepted
    obtain ⟨hne, hrest⟩ := not_or.mp hbits
    cases h
    exact ⟨List.length_pos_iff.mpr hne, Nat.dvd_of_mod_eq_zero (not_not.mp hrest)⟩

theorem bits_of_ofText
    {text : String} {p : Pattern} (h : Pattern.ofText text = .ok p) :
    0 < p.bits.length ∧ p.width ∣ p.bits.length := by
  rw [Pattern.ofText] at h
  split at h
  · exact bits_of_ofBits h
  · cases h

/-- A cover that is read from texts is whole. -/
theorem whole_of_ofTexts
    {width : Nat} {texts : List String} (h : ofTexts width texts = .ok c) :
    c.Whole width := by
  obtain ⟨patterns, hread, hmade⟩ := bind_eq_ok_iff.mp h
  obtain ⟨hwidth, hmembers⟩ := members_ofPatterns hmade
  refine ⟨hwidth, fun w hw => ?_⟩
  have member : (⟨c.width, w⟩ : Pattern) ∈ patterns := by
    rw [← hmembers]
    exact List.mem_map_of_mem hw
  obtain ⟨text, -, htext⟩ := exists_of_mem_mapM hread member
  have shape := bits_of_ofText htext
  rwa [hwidth] at shape

end Reading

section Operations

theorem Whole.shifted
    (h : c.Whole vars) (steps : Nat) :
    (c.shifted steps).Whole vars := by
  obtain ⟨blocks, hfits⟩ := whole_iff_fits.mp h
  exact (hfits.shifted steps).whole

theorem Whole.paddedTo
    (h : c.Whole vars) (target : Nat) :
    (c.paddedTo target).Whole vars := by
  refine ⟨h.width, fun w hw => ?_⟩
  obtain ⟨v, hv, rfl⟩ := mem_rows_paddedTo.mp hw
  obtain ⟨pos, whole⟩ := h.rows v hv
  rw [Word.length_padTo, h.width]
  refine ⟨Nat.lt_of_lt_of_le pos (Nat.le_max_right _ _), ?_⟩
  rcases Nat.le_total (target * vars) v.length with hle | hle
  · rwa [Nat.max_eq_right hle]
  · rw [Nat.max_eq_left hle]
    exact Nat.dvd_mul_left _ _

/-- What an operation asks for in blocks, if it asks for a number. -/
def Step.blocks? : Step → Option Nat
  | .pad target => target
  | .shift steps => some steps
  | _ => none

/-- The number of blocks that an operation asks for, if it does, is one that a list can hold. -/
def Step.Admitted (a : Arithmetic) (vars : Nat) (step : Step) : Prop :=
  ∀ blocks ∈ step.blocks?, a.Admits blocks vars

instance (a : Arithmetic) (step : Step) : Decidable (step.Admitted a vars) :=
  inferInstanceAs (Decidable (∀ blocks ∈ step.blocks?, a.Admits blocks vars))

theorem Whole.pad
    {a : Arithmetic} (h : c.Whole vars) {target : Option Nat}
    (hadmits : ∀ blocks ∈ target, a.Admits blocks vars) :
    Returns (c.pad a target) (·.Whole vars) := by
  have counted := h.divided.requireBlocks
  cases target with
  | none =>
      rw [Cover.pad, counted]
      exact Returns.pure (h.paddedTo _)
  | some blocks =>
      rw [Cover.pad, counted]
      exact ⟨_, h.divided.lengthen_eq (hadmits blocks rfl), h.paddedTo blocks⟩

theorem Whole.shift
    {a : Arithmetic} {steps : Nat} (h : c.Whole vars) (hadmits : a.Admits steps vars) :
    Returns (c.shift a steps) (·.Whole vars) :=
  ⟨_, shift_eq (h.width ▸ hadmits), h.shifted steps⟩

theorem Whole.append
    (hc : c.Whole vars) (hd : d.Whole vars) :
    Returns (c.append d) (·.Whole vars) :=
  (hc.divided.append hd.divided).mono fun _ he => he.whole ⟨hc.filled, hd.filled⟩

theorem Whole.simplify
    (h : c.Whole vars) :
    Returns c.simplify (·.Whole vars) :=
  h.divided.returns_simplify.mono fun _ hd => hd.whole h.filled

theorem Whole.join
    (simplify : Bool) (hc : c.Whole vars) (hd : d.Whole vars) :
    Returns (c.join simplify d) (·.Whole vars) :=
  (hc.divided.returns_join simplify hd.divided).mono fun _ he => he.whole ⟨hc.filled, hd.filled⟩

theorem Whole.intersect
    (simplify : Bool) (hc : c.Whole vars) (hd : d.Whole vars) :
    Returns (c.intersect simplify d) (·.Whole vars) :=
  (hc.divided.returns_intersect simplify hd.divided).mono fun _ he => he.whole hc.filled

theorem Whole.disjoint
    (h : c.Whole vars) :
    Returns c.disjoint (·.Whole vars) := by
  obtain ⟨blocks, hfits⟩ := whole_iff_fits.mp h
  exact (returns_disjoint hfits).mono fun d hd => hd.1.whole

theorem Whole.union
    (hc : c.Whole vars) (hd : d.Whole vars) :
    Returns (c.union d) (·.Whole vars) :=
  (hc.append hd).bind fun _ he => he.disjoint

end Operations

section Widths

/-- Covers of different widths are not put together, whatever members they have. -/
theorem append_of_width_ne
    (h : c.width ≠ d.width) :
    c.append d = .error (.lengthMismatch c.width d.width) := by
  rw [append, Pattern.requireWidth, if_neg h]
  rfl

theorem join_of_width_ne
    (simplify : Bool) (h : c.width ≠ d.width) :
    c.join simplify d = .error (.lengthMismatch c.width d.width) := by
  change (c.append d >>= reduction simplify) = _
  rw [append_of_width_ne h]
  rfl

/-- The widths are compared before it is seen that a cover is empty. -/
theorem intersect_of_width_ne
    (simplify : Bool) (h : c.width ≠ d.width) :
    c.intersect simplify d = .error (.lengthMismatch c.width d.width) := by
  have refused : requireMeet c d = .error (.lengthMismatch c.width d.width) := by
    rw [requireMeet, Pattern.requireWidth, if_neg h]
    rfl
  change (requireMeet c d >>= fun _ => _) = _
  rw [refused]
  rfl

theorem union_of_width_ne
    (h : c.width ≠ d.width) :
    c.union d = .error (.lengthMismatch c.width d.width) := by
  rw [union, append_of_width_ne h]
  rfl

end Widths

section Runs

/-- The other cover that an operation takes. -/
def Step.operand? : Step → Option Cover
  | .join _ operand => some operand
  | .intersect _ operand => some operand
  | .union operand => some operand
  | _ => none

/-- The operand of the operation, if there is one, is a whole cover of the given width. -/
def Step.Suits (vars : Nat) (step : Step) : Prop :=
  ∀ operand ∈ step.operand?, operand.Whole vars

instance (step : Step) : Decidable (step.Suits vars) :=
  inferInstanceAs (Decidable (∀ operand ∈ step.operand?, operand.Whole vars))

/-- Applies operations one after the other. -/
def run (a : Arithmetic) (c : Cover) (steps : List Step) : Except Error Cover :=
  steps.foldlM (apply a) c

variable {a : Arithmetic}

/-- Every operation that suits keeps a cover whole. -/
theorem Whole.apply
    (h : c.Whole vars) {step : Step} (hstep : step.Suits vars) (hadmits : step.Admitted a vars) :
    Returns (c.apply a step) (·.Whole vars) := by
  cases step with
  | pad target => exact h.pad hadmits
  | shift steps => exact h.shift (hadmits steps rfl)
  | join simplify operand => exact h.join simplify (hstep operand rfl)
  | intersect simplify operand => exact h.intersect simplify (hstep operand rfl)
  | union operand => exact h.union (hstep operand rfl)
  | disjoint => exact h.disjoint
  | simplify => exact h.simplify

theorem Whole.run
    (h : c.Whole vars) {steps : List Step} (hsteps : ∀ step ∈ steps, step.Suits vars)
    (hadmits : ∀ step ∈ steps, step.Admitted a vars) :
    Returns (c.run a steps) (·.Whole vars) := by
  refine Returns.foldlM (fun _ (d : Cover) => d.Whole vars) h ?_
  intro done step d hstep hd
  exact hd.apply (hsteps step hstep) (hadmits step hstep)

/-- Two members of different lengths. -/
def unevenCover : Cover :=
  ⟨2, [[.one, .wild, .wild, .zero], [.zero, .wild]]⟩

/-- Each operation once, with operands of one and of three blocks and with an empty one. -/
def everyStep : List Step :=
  [.join true ⟨2, []⟩, .intersect false ⟨2, [[.wild, .one], [.wild, .wild, .zero, .one]]⟩, .shift 1,
    .pad (some 4), .union ⟨2, [[.one, .one, .wild, .wild, .wild, .zero]]⟩, .disjoint, .simplify]

end Runs

end Cover

end MissionTime

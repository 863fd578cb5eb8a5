import MissionTime.Pattern.Reader

/-!
# Covers

A cover is a list of patterns of one width; it stands for the union of what they stand for. Order
and repetition are kept, as they show in the written form.

**Definitions.**
* `Cover`, its members, and `Cover.empty`, `Cover.top`, `Cover.ofPatterns`, `Cover.ofTexts`;
* `Cover.shift` and `Cover.lengthen`, which change every member at a length that is computed;
* `Cover.paddedTo`, and `Cover.append`, the union;
* `Cover.pad` and `Cover.summary`, which refuse covers whose blocks cannot be counted.

**Results.**
* `Cover.lengthen_eq`: members that are lengthened to a number of blocks that is admitted are padded to
  that many;
* `Cover.pad_none`: without a number of blocks the members are padded to the longest one, whose length is
  computed exactly in every arithmetic.
-/

namespace MissionTime

/-- Words to be cut into blocks of one width. -/
structure Cover where
  width : Nat
  rows : List Word
deriving DecidableEq, Repr

namespace Cover

section Making

/-- No pattern. -/
def empty (width : Nat) : Cover :=
  ⟨width, []⟩

/-- One free block; without variables there is no pattern to hold it. -/
def top (width : Nat) : Cover :=
  if width = 0 then empty width else ⟨width, [List.replicate width .wild]⟩

/-- The patterns of a cover. -/
def members (c : Cover) : List Pattern :=
  c.rows.map (⟨c.width, ·⟩)

/-- Accepts patterns of the given width. -/
def ofPatterns (width : Nat) (patterns : List Pattern) : Except Error Cover :=
  match patterns.find? (fun p => p.width ≠ width) with
  | some p => .error (.lengthMismatch width p.width)
  | none => .ok ⟨width, patterns.map Pattern.bits⟩

/-- Reads patterns of the given width. All texts are read before widths are compared. -/
def ofTexts (width : Nat) (texts : List String) : Except Error Cover := do
  let patterns ← texts.mapM Pattern.ofText
  ofPatterns width patterns

theorem members_ofPatterns
    {width : Nat} {patterns : List Pattern} {c : Cover} (h : ofPatterns width patterns = .ok c) :
    c.width = width ∧ c.members = patterns := by
  unfold ofPatterns at h
  split at h
  · simp at h
  · rename_i none
    obtain rfl := Except.ok.inj h
    refine ⟨rfl, ?_⟩
    simp only [List.find?_eq_none] at none
    simp only [members, List.map_map]
    refine (List.map_congr_left fun p hp => ?_).trans (List.map_id _)
    have : p.width = width := by simpa using none p hp
    simp [← this]

end Making

section Reading

/-- Number of patterns. -/
def size (c : Cover) : Nat :=
  c.rows.length

/-- Number of blocks of the longest member. -/
def blockCount (c : Cover) : Nat :=
  ((c.members.map Pattern.blockCount).max?).getD 0

/-- The written forms of the members. -/
def texts (c : Cover) : List String :=
  c.members.map Pattern.text

/-- The written forms of the members, each with a line break. -/
def text (c : Cover) : String :=
  String.join (c.texts.map (· ++ "\n"))

end Reading

section Operations

/-- All members changed by an operation that can fail. -/
def changeAll (change : Pattern → Except Error Pattern) (c : Cover) : Except Error Cover := do
  let patterns ← c.members.mapM change
  return ⟨c.width, patterns.map Pattern.bits⟩

/-- All members delayed by some steps. -/
def shift (a : Arithmetic) (steps : Nat) : Cover → Except Error Cover :=
  changeAll (Pattern.shift a steps)

/-- All members with free blocks added up to a number of blocks. -/
def lengthen (a : Arithmetic) (blocks : Nat) : Cover → Except Error Cover :=
  changeAll (Pattern.lengthen a blocks)

/-- All members with free blocks added up to the number of blocks of a member of covers at hand. -/
def paddedTo (blocks : Nat) (c : Cover) : Cover :=
  ⟨c.width, c.members.map fun p => (p.padded blocks).bits⟩

/-- All members with free blocks added up to the longest member. -/
def padded (c : Cover) : Cover :=
  c.paddedTo c.blockCount

/-- The members of both covers, which stand for the union. -/
def append (c d : Cover) : Except Error Cover := do
  Pattern.requireWidth c.width d.width
  return ⟨c.width, c.rows ++ d.rows⟩

/-- Refuses a cover whose members hold no blocks to count. -/
def requireBlocks (c : Cover) : Except Error Unit :=
  if c.width = 0 ∧ c.rows ≠ [] then .error .noBlocks else .ok ()

/-- Adds free blocks to all members, up to a number of blocks or else to the longest member. -/
def pad (a : Arithmetic) (target : Option Nat) (c : Cover) : Except Error Cover := do
  c.requireBlocks
  match target with
  | some blocks => c.lengthen a blocks
  | none => return c.padded

end Operations

section Lengths

/-- An operation that never fails on the members changes all of them. -/
theorem changeAll_eq
    {change : Pattern → Except Error Pattern} {change' : Pattern → Pattern} {c : Cover}
    (h : ∀ p ∈ c.members, change p = .ok (change' p)) :
    c.changeAll change = .ok ⟨c.width, c.members.map fun p => (change' p).bits⟩ := by
  have all : ∀ patterns : List Pattern, (∀ p ∈ patterns, change p = .ok (change' p)) →
      patterns.mapM change = .ok (patterns.map change') := by
    intro patterns hpatterns
    induction patterns with
    | nil => rfl
    | cons p patterns ih =>
        rw [List.mapM_cons, hpatterns p List.mem_cons_self,
          ih fun q hq => hpatterns q (List.mem_cons_of_mem p hq)]
        rfl
  rw [changeAll, all c.members h]
  simp only [List.map_map, Function.comp_def, bind, Except.bind, pure, Except.pure]

theorem width_of_mem_members
    {c : Cover} {p : Pattern} (hp : p ∈ c.members) :
    p.width = c.width := by
  obtain ⟨w, -, rfl⟩ := List.mem_map.mp hp
  rfl

/-- Padding is lengthening wherever the number of blocks is admitted. -/
theorem lengthen_eq
    {a : Arithmetic} {blocks : Nat} {c : Cover} (hwidth : 0 < c.width)
    (h : a.Admits blocks c.width) :
    c.lengthen a blocks = .ok (c.paddedTo blocks) := by
  refine changeAll_eq fun p hp => ?_
  have same := width_of_mem_members hp
  exact Pattern.lengthen_eq (same ▸ hwidth) (same ▸ h)

/-- The blocks of the longest member are bits of that member, so their number is admitted. -/
theorem admits_blockCount
    {c : Cover} (a : Arithmetic) (h : ∀ w ∈ c.rows, w.length ≤ capacity) :
    a.Admits c.blockCount c.width := by
  refine Or.inr ?_
  rw [blockCount]
  cases hmax : (c.members.map Pattern.blockCount).max? with
  | none => simp
  | some most =>
      obtain ⟨p, hp, rfl⟩ := List.mem_map.mp (List.max?_mem hmax)
      obtain ⟨w, hw, rfl⟩ := List.mem_map.mp hp
      exact Nat.le_trans (Nat.div_mul_le_self _ _) (h w hw)

/-- Without a number of blocks the members are padded to the longest one. -/
theorem pad_none
    {c : Cover} (a : Arithmetic) (h : ∀ w ∈ c.rows, w.length ≤ capacity) :
    c.pad a none = c.pad a (some c.blockCount) := by
  rw [pad, pad]
  by_cases hrows : c.rows = []
  · obtain ⟨width, rows⟩ := c
    subst hrows
    rfl
  · by_cases hwidth : c.width = 0
    · rw [requireBlocks, if_pos ⟨hwidth, hrows⟩]
      rfl
    · rw [lengthen_eq (Nat.pos_of_ne_zero hwidth) (admits_blockCount a h)]
      rfl

end Lengths

/-- The texts and the counts of a cover. -/
structure Summary where
  texts : List String
  size : Nat
  blocks : Nat
deriving DecidableEq, Repr

/-- Describes a cover whose members have blocks. -/
def summary (c : Cover) : Except Error Summary := do
  c.requireBlocks
  return ⟨c.texts, c.size, c.blockCount⟩

end Cover

end MissionTime

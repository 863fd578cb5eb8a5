import MissionTime.Pattern.Word
import Mathlib.Tactic

/-!
# Words on tapes

A tape is an endless sequence of bits. A word matches a tape if it allows the bits at the beginning of
the tape; what stands behind them does not matter. On tapes, free positions can be added to the end of
a word and dropped from it, and a word that stands later is the same word on a later part of the tape.

**Definitions.**
* `Tape`, `Tape.drop`, `Tape.take` and `Tape.ofBits`;
* `Word.Matches`, and `Word.Exclusive`: no tape is matched by both words.

**Results.**
* `Word.matches_append`, `Word.matches_shift`, `Word.matches_padTo`, `Word.matches_trimmed`: the words
  that padding, delaying and trimming make;
* `Word.matches_meet` and `Word.matches_merge`: the words for intersections and unions;
* `Word.allows_iff`: the instances of a word are the sequences of its length that it matches;
* `Word.increasing_instances`: they are listed in lexicographic order;
* `Word.exclusive_iff_meet`: words of one length are exclusive exactly if they have no meet.
-/

namespace MissionTime

/-- An endless sequence of bits. -/
abbrev Tape := Nat → Bool

namespace Tape

/-- The tape behind its first bits. -/
def drop (count : Nat) (σ : Tape) : Tape :=
  fun i => σ (i + count)

/-- The tape that begins with the given bits; all others are false. -/
def ofBits (bits : List Bool) : Tape :=
  fun i => bits[i]?.getD false

/-- The first bits of the tape. -/
def take (count : Nat) (σ : Tape) : List Bool :=
  (List.range count).map σ

theorem take_succ
    (count : Nat) (σ : Tape) :
    σ.take (count + 1) = σ 0 :: (σ.drop 1).take count := by
  rw [take, List.range_succ_eq_map, List.map_cons, List.map_map]
  rfl

@[simp] theorem drop_zero
    (σ : Tape) :
    σ.drop 0 = σ := by
  rfl

@[simp] theorem drop_drop
    (m n : Nat) (σ : Tape) :
    (σ.drop m).drop n = σ.drop (n + m) := by
  funext i
  simp [drop, Nat.add_assoc]

/-- The tape behind one more bit. -/
def after (value : Bool) (σ : Tape) : Tape
  | 0 => value
  | i + 1 => σ i

theorem take_ofBits
    (bits : List Bool) :
    (ofBits bits).take bits.length = bits := by
  refine List.ext_getElem (by simp [take]) fun i hi hi' => ?_
  simp [take, ofBits, List.getElem?_eq_getElem hi']

theorem drop_ofBits_cons
    (value : Bool) (bits : List Bool) :
    drop 1 (ofBits (value :: bits)) = ofBits bits := by
  rfl

end Tape

namespace Word

section Matching

/-- The word allows the bits at the beginning of the tape. -/
def Matches : Word → Tape → Prop
  | [], _ => True
  | b :: w, σ => σ 0 ∈ b.values ∧ Matches w (σ.drop 1)

@[simp] theorem matches_nil
    (σ : Tape) :
    Matches [] σ := by
  trivial

theorem matches_cons
    (b : Bit) (w : Word) (σ : Tape) :
    Matches (b :: w) σ ↔ σ 0 ∈ b.values ∧ Matches w (σ.drop 1) := by
  rfl

theorem matches_append
    (v w : Word) (σ : Tape) :
    Matches (v ++ w) σ ↔ Matches v σ ∧ Matches w (σ.drop v.length) := by
  induction v generalizing σ with
  | nil => simp
  | cons b v ih =>
      rw [List.cons_append, matches_cons, matches_cons, ih, Tape.drop_drop, List.length_cons,
        and_assoc]

theorem matches_wild
    {w : Word} (h : IsWild w) (σ : Tape) :
    Matches w σ := by
  induction w generalizing σ with
  | nil => trivial
  | cons b w ih =>
      have head : b = .wild := h b List.mem_cons_self
      have tail : IsWild w := fun c hc => h c (List.mem_cons_of_mem b hc)
      refine ⟨?_, ih tail _⟩
      rw [head]
      cases σ 0 <;> decide

theorem isWild_replicate
    (count : Nat) :
    IsWild (List.replicate count .wild) := by
  intro b hb
  exact (List.mem_replicate.mp hb).2

/-- A delayed word matches where the word matches later. -/
theorem matches_shift
    (count : Nat) (w : Word) (σ : Tape) :
    Matches (List.replicate count .wild ++ w) σ ↔ Matches w (σ.drop count) := by
  have free := matches_wild (isWild_replicate count) σ
  rw [matches_append, List.length_replicate]
  exact and_iff_right free

/-- Free positions at the end change nothing. -/
theorem matches_append_wild
    {v : Word} (h : IsWild v) (w : Word) (σ : Tape) :
    Matches (w ++ v) σ ↔ Matches w σ := by
  rw [matches_append]
  exact and_iff_left (matches_wild h _)

theorem matches_padTo
    (length : Nat) (w : Word) (σ : Tape) :
    Matches (padTo length w) σ ↔ Matches w σ :=
  matches_append_wild (isWild_replicate _) w σ

/-- A word that fixes one position asks for that position only. -/
theorem matches_set
    {count i : Nat} (h : i < count) (b : Bit) (σ : Tape) :
    Matches ((List.replicate count .wild).set i b) σ ↔ σ i ∈ b.values := by
  induction count generalizing i σ with
  | zero => exact absurd h (Nat.not_lt_zero i)
  | succ count ih =>
      rw [List.replicate_succ]
      cases i with
      | zero =>
          rw [List.set_cons_zero, matches_cons]
          exact and_iff_left (matches_wild (isWild_replicate count) _)
      | succ i =>
          have head : σ 0 ∈ Bit.wild.values := by cases σ 0 <;> decide
          rw [List.set_cons_succ, matches_cons, ih (Nat.lt_of_succ_lt_succ h)]
          exact and_iff_right head

/-- Dropping free blocks one by one from the end changes nothing. -/
theorem matches_take_trimmedCount
    (width : Nat) (w : Word) (count : Nat) (σ : Tape) :
    Matches (w.take (trimmedCount width w count * width)) σ ↔
      Matches (w.take (count * width)) σ := by
  induction count with
  | zero => simp [trimmedCount]
  | succ count ih =>
      cases count with
      | zero => simp [trimmedCount]
      | succ count =>
          rw [trimmedCount]
          split
          · rename_i free
            rw [ih, Nat.succ_mul (count + 1), List.take_add, matches_append_wild free]
          · rfl

theorem matches_trimmed
    {width : Nat} {w : Word} (h : width ∣ w.length) (σ : Tape) :
    Matches (trimmed width w) σ ↔ Matches w σ := by
  rw [trimmed, matches_take_trimmedCount, Nat.div_mul_cancel h, List.take_length]

end Matching

section Lengths

theorem trimmedCount_pos
    (width : Nat) (w : Word) {count : Nat} (h : 0 < count) :
    0 < trimmedCount width w count := by
  induction count with
  | zero => exact absurd h (Nat.lt_irrefl 0)
  | succ count ih =>
      cases count with
      | zero => exact Nat.one_pos
      | succ count =>
          rw [trimmedCount]
          split
          · exact ih (Nat.succ_pos count)
          · exact Nat.succ_pos _

theorem length_trimmed
    (width : Nat) (w : Word) :
    (trimmed width w).length = trimmedCount width w (w.length / width) * width := by
  have fewer := trimmedCount_le width w (w.length / width)
  have room := Nat.mul_le_mul_right width fewer
  have full := Nat.div_mul_le_self w.length width
  rw [trimmed, List.length_take]
  omega

theorem dvd_length_trimmed
    (width : Nat) (w : Word) :
    width ∣ (trimmed width w).length := by
  rw [length_trimmed]
  exact Nat.dvd_mul_left _ _

theorem length_trimmed_le
    (width : Nat) (w : Word) :
    (trimmed width w).length ≤ w.length :=
  List.length_take_le' _ w

theorem length_trimmed_pos
    {width : Nat} {w : Word} (hpos : 0 < w.length) (h : width ∣ w.length) :
    0 < (trimmed width w).length := by
  have hwidth := Nat.pos_of_dvd_of_pos h hpos
  have hcount := Nat.div_pos (Nat.le_of_dvd hpos h) hwidth
  rw [length_trimmed]
  exact Nat.mul_pos (trimmedCount_pos width w hcount) hwidth

end Lengths

section Combination

/-- The meet of two words of one length, if there is one, has their length. -/
theorem length_meet
    {u v w : Word} (hl : v.length = w.length) (h : meet v w = some u) :
    u.length = v.length := by
  induction v generalizing u w with
  | nil =>
      cases w with
      | nil => cases h; rfl
      | cons b w => simp at hl
  | cons a v ih =>
      cases w with
      | nil => simp at hl
      | cons b w =>
          simp only [meet] at h
          split at h
          · obtain ⟨rest, hrest, rfl⟩ := Option.map_eq_some_iff.mp h
            rw [List.length_cons, ih (Nat.succ.inj hl) hrest, List.length_cons]
          · cases h

/-- Two words of one length match a tape together exactly if they have a meet and it matches. -/
theorem matches_meet
    {v w : Word} (hl : v.length = w.length) (σ : Tape) :
    (Matches v σ ∧ Matches w σ) ↔ ∃ u, meet v w = some u ∧ Matches u σ := by
  induction v generalizing w σ with
  | nil =>
      cases w with
      | nil => simp [meet]
      | cons b w => simp at hl
  | cons a v ih =>
      cases w with
      | nil => simp at hl
      | cons b w =>
          have tails := ih (Nat.succ.inj hl) (σ.drop 1)
          rw [matches_cons, matches_cons, and_and_and_comm, tails]
          simp only [meet]
          cases hab : a.meet b with
          | none =>
              have clash := Bit.meet_eq_none_iff.mp hab (σ 0)
              simp [clash]
          | some c =>
              rw [← Bit.mem_values_meet hab]
              constructor
              · rintro ⟨hc, u, hu, hm⟩
                exact ⟨c :: u, by simp [hu], hc, hm⟩
              · rintro ⟨u, hu, hm⟩
                obtain ⟨rest, hrest, rfl⟩ := Option.map_eq_some_iff.mp hu
                exact ⟨hm.1, rest, hrest, hm.2⟩

theorem length_merge
    {u v w : Word} (h : merge v w = some u) :
    u.length = v.length := by
  induction v generalizing u w with
  | nil =>
      cases w with
      | nil => cases h; rfl
      | cons b w => cases h
  | cons a v ih =>
      cases w with
      | nil => cases h
      | cons b w =>
          simp only [merge] at h
          split at h
          · obtain ⟨rest, hrest, rfl⟩ := Option.map_eq_some_iff.mp h
            rw [List.length_cons, ih hrest, List.length_cons]
          · split at h
            · cases h
              rfl
            · cases h

theorem mem_values_of_ne
    {a b : Bit} (h : a ≠ b) (value : Bool) :
    value ∈ Bit.wild.values ↔ value ∈ a.values ∨ value ∈ b.values := by
  revert h
  cases a <;> cases b <;> cases value <;> decide

theorem merge_comm
    (v w : Word) :
    merge v w = merge w v := by
  induction v generalizing w with
  | nil => cases w <;> rfl
  | cons a v ih =>
      cases w with
      | nil => rfl
      | cons b w =>
          simp only [merge]
          by_cases hab : a = b
          · rw [if_pos hab, if_pos hab.symm, ih, hab]
          · rw [if_neg hab, if_neg (Ne.symm hab)]
            by_cases hvw : v = w
            · rw [if_pos hvw, if_pos hvw.symm, hvw]
            · rw [if_neg hvw, if_neg (Ne.symm hvw)]

/-- The merged word matches where one of the two words matches. -/
theorem matches_merge
    {u v w : Word} (h : merge v w = some u) (σ : Tape) :
    Matches u σ ↔ Matches v σ ∨ Matches w σ := by
  induction v generalizing u w σ with
  | nil =>
      cases w with
      | nil => cases h; simp
      | cons b w => cases h
  | cons a v ih =>
      cases w with
      | nil => cases h
      | cons b w =>
          simp only [merge] at h
          split at h
          · rename_i hab
            obtain ⟨rest, hrest, rfl⟩ := Option.map_eq_some_iff.mp h
            rw [matches_cons, matches_cons, matches_cons, ih hrest, hab, ← and_or_left]
          · rename_i hab
            split at h
            · rename_i hvw
              cases h
              rw [matches_cons, matches_cons, matches_cons, mem_values_of_ne hab, hvw,
                ← or_and_right]
            · cases h

end Combination

section Allowed

/-- A word allows the sequences of its length that it matches. -/
theorem allows_iff
    {w : Word} {bits : List Bool} :
    Allows w bits ↔ bits.length = w.length ∧ Matches w (Tape.ofBits bits) := by
  induction w generalizing bits with
  | nil => cases bits <;> simp [Allows]
  | cons b w ih =>
      cases bits with
      | nil => simp [Allows]
      | cons value bits =>
          rw [Allows, ih, matches_cons, Tape.drop_ofBits_cons, List.length_cons, List.length_cons,
            Nat.add_right_cancel_iff]
          exact and_left_comm

theorem allows_iff_forall₂
    {w : Word} {bits : List Bool} :
    Allows w bits ↔ List.Forall₂ (fun b value => value ∈ b.values) w bits := by
  induction w generalizing bits with
  | nil => cases bits <;> simp [Allows]
  | cons b w ih =>
      cases bits with
      | nil => simp [Allows]
      | cons value bits => rw [Allows, ih, List.forall₂_cons]

theorem allows_reverse
    {w : Word} {bits : List Bool} :
    Allows w.reverse bits.reverse ↔ Allows w bits := by
  rw [allows_iff_forall₂, allows_iff_forall₂, List.forall₂_reverse_iff]

theorem length_of_allows
    {w : Word} {bits : List Bool} (h : Allows w bits) :
    bits.length = w.length :=
  (allows_iff.mp h).1

theorem allows_of_wild
    {w : Word} (hw : IsWild w) {bits : List Bool} (h : bits.length = w.length) :
    Allows w bits :=
  allows_iff.mpr ⟨h, matches_wild hw _⟩

/-- Some sequence is allowed. -/
theorem exists_allows
    (w : Word) :
    ∃ bits, Allows w bits := by
  induction w with
  | nil => exact ⟨[], trivial⟩
  | cons b w ih =>
      rcases ih with ⟨bits, hbits⟩
      have value : ∃ value, value ∈ b.values := by cases b <;> exact ⟨_, List.mem_cons_self⟩
      rcases value with ⟨value, hvalue⟩
      exact ⟨value :: bits, hvalue, hbits⟩

/-- The instances are listed in lexicographic order, each of them before the next. -/
theorem increasing_instances
    (w : Word) :
    (instances w).Pairwise (· < ·) := by
  induction w with
  | nil => exact List.pairwise_singleton _ []
  | cons b w ih =>
      rw [instances_cons, List.pairwise_flatMap]
      constructor
      · intro value _
        refine List.pairwise_map.mpr (ih.imp fun hst => ?_)
        exact List.cons_lt_cons_iff.mpr (Or.inr ⟨rfl, hst⟩)
      · have values : b.values.Pairwise (· < ·) := by cases b <;> simp [Bit.values]
        refine values.imp fun {u v} huv s hs t ht => ?_
        obtain ⟨s', -, rfl⟩ := List.mem_map.mp hs
        obtain ⟨t', -, rfl⟩ := List.mem_map.mp ht
        exact List.cons_lt_cons_iff.mpr (Or.inl huv)

/-- No instance is listed twice. -/
theorem nodup_instances
    (w : Word) :
    (instances w).Nodup :=
  (increasing_instances w).nodup

/-- A word matches a tape exactly if it allows the beginning of the tape. -/
theorem allows_take
    (w : Word) (σ : Tape) :
    Allows w (σ.take w.length) ↔ Matches w σ := by
  induction w generalizing σ with
  | nil => simp [Tape.take, Allows]
  | cons b w ih =>
      rw [List.length_cons, Tape.take_succ, Allows, ih, matches_cons]

/-- A word at a length allows the beginnings, of that length, of the tapes that the word matches. -/
theorem allows_resize
    (length : Nat) (w : Word) (bits : List Bool) :
    Allows (resize length w) bits ↔ ∃ σ : Tape, Matches w σ ∧ σ.take length = bits := by
  induction w generalizing length bits with
  | nil =>
      have free : resize length [] = List.replicate length .wild := by simp [resize, padTo]
      rw [free]
      constructor
      · intro h
        have hlength := length_of_allows h
        rw [List.length_replicate] at hlength
        exact ⟨Tape.ofBits bits, trivial, hlength ▸ Tape.take_ofBits bits⟩
      · rintro ⟨σ, -, rfl⟩
        exact allows_of_wild (isWild_replicate length) (by simp [Tape.take])
  | cons b w ih =>
      cases length with
      | zero =>
          have empty : resize 0 (b :: w) = [] := by simp [resize, padTo]
          obtain ⟨all, hall⟩ := exists_allows (b :: w)
          rw [empty, allows_iff]
          refine ⟨fun h => ⟨Tape.ofBits all, (allows_iff.mp hall).2, ?_⟩, ?_⟩
          · rw [List.eq_nil_of_length_eq_zero h.1]
            rfl
          · rintro ⟨σ, -, rfl⟩
            exact ⟨rfl, trivial⟩
      | succ length =>
          have step : resize (length + 1) (b :: w) = b :: resize length w := by simp [resize, padTo]
          rw [step]
          constructor
          · intro h
            cases bits with
            | nil => exact False.elim h
            | cons value bits =>
                obtain ⟨σ, hmatches, htake⟩ := (ih length bits).mp h.2
                refine ⟨σ.after value, ⟨h.1, hmatches⟩, ?_⟩
                rw [Tape.take_succ]
                exact congrArg (value :: ·) htake
          · rintro ⟨σ, hmatches, rfl⟩
            rw [Tape.take_succ]
            exact ⟨hmatches.1, (ih length _).mpr ⟨σ.drop 1, hmatches.2, rfl⟩⟩

end Allowed

section Exclusion

variable {u v w : Word}

/-- No tape is matched by both words. -/
def Exclusive (v w : Word) : Prop :=
  ∀ σ : Tape, ¬ (v.Matches σ ∧ w.Matches σ)

theorem Exclusive.symm
    (h : v.Exclusive w) :
    w.Exclusive v :=
  fun σ hboth => h σ hboth.symm

/-- Words of one length are exclusive exactly if they have no meet. -/
theorem exclusive_iff_meet
    (h : v.length = w.length) :
    v.Exclusive w ↔ meet v w = none := by
  constructor
  · intro hexclusive
    cases hmeet : meet v w with
    | none => rfl
    | some u =>
        obtain ⟨bits, hbits⟩ := exists_allows u
        have hmatches := (allows_iff.mp hbits).2
        exact absurd ((matches_meet h _).mpr ⟨u, hmeet, hmatches⟩) (hexclusive _)
  · intro hnone σ hboth
    obtain ⟨u, hmeet, -⟩ := (matches_meet h σ).mp hboth
    rw [hnone] at hmeet
    cases hmeet

theorem exclusive_padTo
    (m n : Nat) :
    (v.padTo m).Exclusive (w.padTo n) ↔ v.Exclusive w :=
  forall_congr' fun σ => not_congr (and_congr (matches_padTo m v σ) (matches_padTo n w σ))

/-- What excludes both of two words excludes the merged word. -/
theorem Exclusive.merge
    {x : Word} (hv : x.Exclusive v) (hw : x.Exclusive w) (h : merge v w = some u) :
    x.Exclusive u := by
  rintro σ ⟨hx, hu⟩
  rcases (matches_merge h σ).mp hu with hmatches | hmatches
  · exact hv σ ⟨hx, hmatches⟩
  · exact hw σ ⟨hx, hmatches⟩

/-- Exclusive words have no common instance. -/
theorem Exclusive.disjoint_instances
    (h : v.Exclusive w) :
    v.instances.Disjoint w.instances := by
  intro bits hv hw
  have left := allows_iff.mp (mem_instances_iff.mp hv)
  have right := allows_iff.mp (mem_instances_iff.mp hw)
  exact h _ ⟨left.2, right.2⟩

end Exclusion

end Word

end MissionTime

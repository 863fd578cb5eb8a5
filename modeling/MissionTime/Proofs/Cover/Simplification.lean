import MissionTime.Proofs.Cover.Beginnings
import MissionTime.Proofs.Cover.Irreducible

/-!
# Simplified covers

A simplified cover stands for the same traces with no more members, none of which can be merged or cut
further. Simplifying it again therefore changes nothing: its members, padded to one length, are the rows
at which merging stopped, and trimming drops what was padded. Members that exclude each other stay so.

**Definitions.**
* `Word.Tight`: a word of several blocks, the last of which is not free.

**Results.**
* `Word.tight_trimmed` and `Word.trimmed_padTo`: trimmed words are tight, and padding is undone;
* `Cover.Divided.simplify_simplify`: simplified covers are not changed by simplifying them;
* `Cover.Divided.isDisjoint_simplify`: disjoint covers stay disjoint;
* `Cover.simplify_reduces`: what is kept and what is achieved.
-/

namespace MissionTime

namespace Word

variable {width : Nat} {v w : Word}

/-- If the word has several blocks, the last one is not free. -/
def Tight (width : Nat) (w : Word) : Prop :=
  1 < w.length / width → ¬ IsWild ((w.drop ((w.length / width - 1) * width)).take width)

/-- Of several blocks that remain, the last one is not free. -/
theorem not_isWild_trimmedCount
    (width : Nat) (w : Word) (count : Nat) (h : 1 < trimmedCount width w count) :
    ¬ IsWild ((w.drop ((trimmedCount width w count - 1) * width)).take width) := by
  induction count with
  | zero => exact absurd h (by simp [trimmedCount])
  | succ count ih =>
      cases count with
      | zero => exact absurd h (by simp [trimmedCount])
      | succ count =>
          rw [trimmedCount] at h ⊢
          split at h
          · rename_i free
            rw [if_pos free]
            exact ih h
          · rename_i bound
            rwa [if_neg bound]

theorem tight_trimmed
    (hwidth : 0 < width) (w : Word) :
    Tight width (trimmed width w) := by
  intro several
  rw [length_trimmed, Nat.mul_div_cancel _ hwidth] at several ⊢
  have bound := not_isWild_trimmedCount width w _ several
  rw [trimmed, List.drop_take, ← Nat.sub_mul, Nat.sub_sub_self (Nat.le_of_lt several), Nat.one_mul,
    List.take_take, Nat.min_self]
  exact bound

/-- Nothing is trimmed from a tight word. -/
theorem Tight.trimmed_eq
    (h : Tight width w) (hdvd : width ∣ w.length) :
    trimmed width w = w := by
  have count : trimmedCount width w (w.length / width) = w.length / width := by
    match hn : w.length / width with
    | 0 => rfl
    | 1 => rfl
    | n + 2 =>
        rw [Tight, hn] at h
        exact if_neg (h (by omega))
  rw [trimmed, count, Nat.div_mul_cancel hdvd, List.take_length]

/-- Padding a tight word that has a block is undone by trimming. -/
theorem Tight.trimmed_padTo
    (h : Tight width w) (hdvd : width ∣ w.length) (hpos : 0 < w.length) {blocks : Nat}
    (hle : w.length ≤ blocks * width) :
    trimmed width (padTo (blocks * width) w) = w := by
  have hwidth := Nat.pos_of_dvd_of_pos hdvd hpos
  obtain ⟨count, hcount⟩ := hdvd
  rw [Nat.mul_comm] at hcount
  have few := Nat.le_of_mul_le_mul_right (hcount ▸ hle) hwidth
  have some := Nat.pos_of_mul_pos_right (hcount ▸ hpos)
  rw [padTo_eq_framed, hcount, ← Nat.sub_mul, trimmed_framed hwidth some hcount]
  exact h.trimmed_eq ⟨count, hcount.trans (Nat.mul_comm _ _)⟩

end Word

namespace Cover

variable {vars : Nat} {c d : Cover}

/-- The members of a simplified cover are tight. -/
theorem Divided.tight_of_simplify
    (h : c.Divided vars) (hd : c.simplify = .ok d) :
    ∀ w ∈ d.rows, w.Tight vars := by
  obtain ⟨rows, rfl, hmerges, -, -⟩ := h.rows_of_simplify hd
  intro w hw
  obtain ⟨v, hv, rfl⟩ := List.mem_map.mp hw
  obtain ⟨u, hu⟩ := exists_member_of_merges hmerges hv
  exact Word.tight_trimmed (h.rows u hu).1 v

/-- The members of a simplified cover have blocks, unless no member has any. -/
theorem Divided.filled_of_simplify
    (h : c.Divided vars) (hd : c.simplify = .ok d) :
    d.Filled ∨ d.blockCount = 0 := by
  obtain ⟨rows, rfl, -, -, even⟩ := h.rows_of_simplify hd
  rcases Nat.eq_zero_or_pos (c.blockCount * vars) with hzero | hpos
  · refine Or.inr (Nat.le_zero.mp (blockCount_le_of_length rfl fun w hw => ?_))
    obtain ⟨v, hv, rfl⟩ := List.mem_map.mp hw
    rw [Nat.zero_mul, ← hzero, ← even v hv]
    exact Word.length_trimmed_le vars v
  · refine Or.inl fun w hw => ?_
    obtain ⟨v, hv, rfl⟩ := List.mem_map.mp hw
    rw [← even v hv] at hpos
    exact Word.length_trimmed_pos hpos (even.dvd hv)

/-- A simplified cover is not changed by simplifying it. -/
theorem Divided.simplify_simplify
    (h : c.Divided vars) (hd : c.simplify = .ok d) :
    d.simplify = .ok d := by
  have divided := (h.returns_simplify.of_eq_ok hd).divided
  have unmerged : Unmerged d.padded.rows :=
    (divided.irreducible_iff_paddedTo (Nat.le_refl _)).mp (irreducible_of_simplify h hd)
  have stays := mergeAll_of_unmerged divided.even_padded unmerged
  have restored : ∀ w ∈ d.rows,
      Word.trimmed vars (w.padTo (d.blockCount * vars)) = w := by
    intro w hw
    have hdvd := (divided.rows w hw).2
    have tight := h.tight_of_simplify hd w hw
    rcases h.filled_of_simplify hd with hfilled | hzero
    · exact tight.trimmed_padTo hdvd (hfilled w hw) (divided.length_le (Nat.le_refl _) hw)
    · rw [hzero, Nat.zero_mul, Word.padTo_of_le (Nat.zero_le _)]
      exact tight.trimmed_eq hdvd
  have rows : d.padded.rows.map (Word.trimmed d.width) = d.rows := by
    rw [padded, rows_paddedTo, List.map_map, divided.width]
    exact (List.map_congr_left restored).trans (List.map_id _)
  rw [simplify, divided.requireBlocks]
  change (mergeAll d.padded.rows >>= fun rows => _) = _
  rw [stays]
  change Except.ok (Cover.mk d.width (d.padded.rows.map (Word.trimmed d.width))) = _
  rw [rows]

theorem Divided.size_simplify
    (h : c.Divided vars) (hd : c.simplify = .ok d) :
    d.size ≤ c.size := by
  obtain ⟨rows, rfl, hmerges, -, -⟩ := h.rows_of_simplify hd
  rw [size, List.length_map, size, ← length_rows_padded]
  exact hmerges.length_le

/-- Members that exclude each other are merged to members that do. -/
theorem Divided.isDisjoint_simplify
    (h : c.Divided vars) (hd : c.simplify = .ok d) (hdisjoint : c.IsDisjoint) :
    d.IsDisjoint := by
  have divided := (h.returns_simplify.of_eq_ok hd).divided
  obtain ⟨rows, rfl, hmerges, -, even⟩ := h.rows_of_simplify hd
  have apart : c.padded.rows.Pairwise Word.Exclusive := by
    rw [padded, rows_paddedTo, List.pairwise_map]
    exact (h.isDisjoint_iff.mp hdisjoint).imp (Word.exclusive_padTo _ _).mpr
  rw [divided.isDisjoint_iff, List.pairwise_map]
  refine (hmerges.exclusive apart).imp_of_mem fun hv hw hexclusive σ hboth => ?_
  rw [Word.matches_trimmed (even.dvd hv), Word.matches_trimmed (even.dvd hw)] at hboth
  exact hexclusive σ hboth

/-- The last block of a tight member fixes some bit. -/
theorem Divided.block_of_tight
    {a : Arithmetic} (h : c.Divided vars) (hstored : a.Admits c.blockCount vars)
    (htight : ∀ w ∈ c.rows, w.Tight vars) {p : Pattern} (hp : p ∈ c.members)
    (hseveral : 1 < p.blockCount) :
    ∃ block, p.block a (p.blockCount - 1) = .ok block ∧ ¬ Word.IsWild block := by
  obtain ⟨hwidth, hlength⟩ := h.length_member hp
  obtain ⟨w, hw, rfl⟩ := List.mem_map.mp hp
  have last : Pattern.blockCount ⟨c.width, w⟩ - 1 + 1 = Pattern.blockCount ⟨c.width, w⟩ := by omega
  have stored : a.Admits (Pattern.blockCount ⟨c.width, w⟩) c.width := by
    rw [← h.width] at hstored
    exact hstored.mono (le_blockCount hw)
  have within : (Pattern.blockCount ⟨c.width, w⟩ - 1) * c.width ≤
        Pattern.blockCount ⟨c.width, w⟩ * c.width ∧
      Pattern.blockCount ⟨c.width, w⟩ * c.width ≤ w.length :=
    ⟨Nat.mul_le_mul_right _ (Nat.sub_le _ _), Nat.div_mul_le_self w.length c.width⟩
  have step : Pattern.blockCount ⟨c.width, w⟩ * c.width -
      (Pattern.blockCount ⟨c.width, w⟩ - 1) * c.width = c.width := by
    rw [← Nat.sub_mul, Nat.sub_sub_self (Nat.le_of_lt hseveral), Nat.one_mul]
  refine ⟨(w.drop ((Pattern.blockCount ⟨c.width, w⟩ - 1) * c.width)).take c.width, ?_, ?_⟩
  · rw [Pattern.block, Arithmetic.product_eq (stored.mono (Nat.sub_le _ 1)), last,
      Arithmetic.product_eq stored]
    refine (if_pos within).trans ?_
    rw [step]
    rfl
  · rw [← h.width] at htight
    exact htight w hw hseveral

/-- Simplifying a cover that is made of blocks ends and keeps the sequences at every horizon that the
members do not exceed, at the length that is computed for it. There are no more members than before, and
no two of them merge, however they are padded. A member of several blocks does not end with a free one.
Simplifying again changes nothing, and a disjoint cover stays disjoint. The members are no longer than a
list can be, as those of every cover at hand are (`Cover.admits_blockCount`). -/
theorem simplify_reduces
    (a : Arithmetic) (vars : Nat) (c : Cover) (hc : c.Divided vars)
    (hstored : a.Admits c.blockCount vars) :
    ∃ s, c.simplify = .ok s ∧ s.simplify = .ok s ∧ s.size ≤ c.size ∧
      (∀ horizon, c.blockCount ≤ horizon →
        s.expand a horizon = c.expand a horizon ∧
          (a.Admits horizon vars → ∃ sequences, c.expand a horizon = .ok sequences)) ∧
      (s.members.Pairwise fun p q => ∀ blocks, p.blockCount ≤ blocks → q.blockCount ≤ blocks →
        (p.padded blocks).merge (q.padded blocks) = .ok none ∧
          (q.padded blocks).merge (p.padded blocks) = .ok none) ∧
      (∀ p ∈ s.members, 1 < p.blockCount →
        ∃ block, p.block a (p.blockCount - 1) = .ok block ∧ ¬ block.IsWild) ∧
      (c.IsDisjoint → s.IsDisjoint) := by
  obtain ⟨s, hs, outcome⟩ := hc.returns_simplify
  have divided := outcome.divided
  refine ⟨s, hs, hc.simplify_simplify hs, hc.size_simplify hs, fun horizon hle => ⟨?_, fun hadmits => ?_⟩,
    ?_, fun p hp hseveral => divided.block_of_tight (hstored.mono outcome.short)
      (hc.tight_of_simplify hs) hp hseveral, hc.isDisjoint_simplify hs⟩
  · exact hc.expand_congr divided hle outcome.short hstored fun σ => (outcome.covers σ).symm
  · exact ⟨_, hc.expand_eq hadmits⟩
  · have unmerged := divided.merge_padded (irreducible_of_simplify hc hs)
    refine unmerged.imp_of_mem fun {p q} hp hq hmerge blocks hpb hqb => ?_
    have width := (divided.length_member hp).1.trans (divided.length_member hq).1.symm
    have length := (divided.length_padded hp hpb).trans (divided.length_padded hq hqb).symm
    have hnone := hmerge blocks hpb hqb
    exact ⟨Pattern.merge_eq_none width length hnone,
      Pattern.merge_eq_none width.symm length.symm ((Word.merge_comm _ _).trans hnone)⟩

/-- Members that exclude each other, the first two of which merge: `10,ss`, `11` and `01`. -/
def foldableCover : Cover :=
  ⟨2, [[.one, .zero, .wild, .wild], [.one, .one], [.zero, .one]]⟩

theorem simplify_reduces_foldableCover :
    foldableCover.Divided 2 ∧ Arithmetic.wrapping.Admits foldableCover.blockCount 2 ∧
      foldableCover.IsDisjoint ∧
      ∃ s, foldableCover.simplify = .ok s ∧ s.simplify = .ok s ∧ s.size ≤ foldableCover.size ∧
        (∀ horizon, foldableCover.blockCount ≤ horizon →
          s.expand .wrapping horizon = foldableCover.expand .wrapping horizon ∧
            (Arithmetic.wrapping.Admits horizon 2 →
              ∃ sequences, foldableCover.expand .wrapping horizon = .ok sequences)) ∧
        (s.members.Pairwise fun p q => ∀ blocks, p.blockCount ≤ blocks → q.blockCount ≤ blocks →
          (p.padded blocks).merge (q.padded blocks) = .ok none ∧
            (q.padded blocks).merge (p.padded blocks) = .ok none) ∧
        (∀ p ∈ s.members, 1 < p.blockCount →
          ∃ block, p.block .wrapping (p.blockCount - 1) = .ok block ∧ ¬ block.IsWild) ∧
        (foldableCover.IsDisjoint → s.IsDisjoint) := by
  have divided : foldableCover.Divided 2 := ⟨rfl, by decide⟩
  have stored : Arithmetic.wrapping.Admits foldableCover.blockCount 2 := by decide
  exact ⟨divided, stored, by decide, simplify_reduces .wrapping 2 foldableCover divided stored⟩

end Cover

end MissionTime

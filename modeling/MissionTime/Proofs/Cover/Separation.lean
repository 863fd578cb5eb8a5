import MissionTime.Cover.Disjoint
import MissionTime.Proofs.Cover.Combination

/-!
# Disjoint covers

Splitting the rows of a cover on one bit after the other gives rows that share no sequence and allow,
taken together, the same sequences. The split starts from the last bit, so it is followed on reversed
words and on the finite sequences that they allow; tapes come in at the end.

**Definitions.**
* `Cover.RowsAllow`: some row allows the sequence;
* `Word.Apart`: no sequence is allowed by both words.

**Results.**
* `Cover.returns_separate`: what the split keeps and what it achieves, and that it achieves no more when
  it is repeated;
* `Cover.Divided.isDisjoint_iff`: disjoint covers are those whose members exclude each other;
* `Cover.returns_disjoint`: a cover that fits has a disjoint form that fits and is its own disjoint form.
-/

namespace MissionTime

/-- No sequence is allowed by both words. -/
def Word.Apart (v w : Word) : Prop :=
  ∀ bits, ¬ (v.Allows bits ∧ w.Allows bits)

namespace Cover

/-- Some row allows the sequence. -/
def RowsAllow (rows : List Word) (bits : List Bool) : Prop :=
  ∃ w ∈ rows, w.Allows bits

section Splitting

theorem allows_tail
    {w tail : Word} {value : Bool} (h : tailAllowing value w = some tail) (hne : w ≠ [])
    (bits : List Bool) :
    tail.Allows bits ↔ w.Allows (value :: bits) := by
  cases w with
  | nil => exact absurd rfl hne
  | cons b w =>
      rw [tailAllowing] at h
      split at h
      · rename_i hvalue
        cases h
        rw [Word.Allows]
        exact (and_iff_right hvalue).symm
      · cases h

theorem length_tail
    {w tail : Word} {value : Bool} (h : tailAllowing value w = some tail) :
    tail.length = w.length - 1 := by
  cases w with
  | nil => cases h; rfl
  | cons b w =>
      rw [tailAllowing] at h
      split at h
      · cases h
        rfl
      · cases h

theorem tail_of_allows
    {w : Word} {value : Bool} {bits : List Bool} (h : w.Allows (value :: bits)) :
    ∃ tail, tailAllowing value w = some tail := by
  cases w with
  | nil => exact False.elim h
  | cons b w => exact ⟨w, if_pos h.1⟩

theorem even_tails
    {length : Nat} {words : List Word} (h : Even (length + 1) words) (value : Bool) :
    Even length (words.filterMap (tailAllowing value)) := by
  intro tail htail
  obtain ⟨w, hw, hwt⟩ := List.mem_filterMap.mp htail
  rw [length_tail hwt, h w hw, Nat.add_sub_cancel]

/-- The tails that follow a value allow what the words allow behind that value. -/
theorem rowsAllow_tails
    {length : Nat} {words : List Word} (h : Even (length + 1) words) (value : Bool)
    (bits : List Bool) :
    RowsAllow (words.filterMap (tailAllowing value)) bits ↔ RowsAllow words (value :: bits) := by
  have nonempty : ∀ w ∈ words, w ≠ [] := fun w hw hnil => by
    have := h w hw
    simp [hnil] at this
  constructor
  · rintro ⟨tail, htail, hallows⟩
    obtain ⟨w, hw, hwt⟩ := List.mem_filterMap.mp htail
    exact ⟨w, hw, (allows_tail hwt (nonempty w hw) bits).mp hallows⟩
  · rintro ⟨w, hw, hallows⟩
    obtain ⟨tail, hwt⟩ := tail_of_allows hallows
    refine ⟨tail, List.mem_filterMap.mpr ⟨w, hw, hwt⟩, ?_⟩
    exact (allows_tail hwt (nonempty w hw) bits).mpr hallows

theorem rowsAllow_map_cons
    (b : Bit) (rows : List Word) (value : Bool) (bits : List Bool) :
    RowsAllow (rows.map (b :: ·)) (value :: bits) ↔ value ∈ b.values ∧ RowsAllow rows bits := by
  constructor
  · rintro ⟨w, hw, hallows⟩
    obtain ⟨v, hv, rfl⟩ := List.mem_map.mp hw
    exact ⟨hallows.1, v, hv, hallows.2⟩
  · rintro ⟨hvalue, v, hv, hallows⟩
    exact ⟨b :: v, List.mem_map_of_mem hv, hvalue, hallows⟩

theorem rowsAllow_append
    (rows others : List Word) (bits : List Bool) :
    RowsAllow (rows ++ others) bits ↔ RowsAllow rows bits ∨ RowsAllow others bits := by
  simp [RowsAllow, or_and_right, exists_or]

theorem length_of_rowsAllow
    {length : Nat} {words : List Word} (h : Even length words) {bits : List Bool}
    (hbits : RowsAllow words bits) :
    bits.length = length := by
  rcases hbits with ⟨w, hw, hallows⟩
  rw [Word.length_of_allows hallows, h w hw]

end Splitting

section Separation

/-- Rows of one length, no two of which allow a common sequence, that allow together what the words
allow. -/
structure Separates (length : Nat) (words rows : List Word) : Prop where
  even : Even length rows
  allow : ∀ bits, RowsAllow rows bits ↔ RowsAllow words bits
  apart : rows.Pairwise Word.Apart

theorem separates_singleton
    {length : Nat} {words : List Word} {w : Word} (hw : w.length = length)
    (h : ∀ bits, w.Allows bits ↔ RowsAllow words bits) :
    Separates length words [w] where
  even := by simpa [Even] using hw
  allow bits := by simpa [RowsAllow] using h bits
  apart := List.pairwise_singleton _ _

/-- The rows for the sequences that begin with false, and those for the sequences that begin with
true, are put together. -/
theorem separates_split
    {length : Nat} {words zeros ones : List Word} (h : Even (length + 1) words)
    (hzeros : Separates length (words.filterMap (tailAllowing false)) zeros)
    (hones : Separates length (words.filterMap (tailAllowing true)) ones) :
    Separates (length + 1) words (zeros.map (.zero :: ·) ++ ones.map (.one :: ·)) where
  even := by
    intro w hw
    rcases List.mem_append.mp hw with hw | hw
    · obtain ⟨v, hv, rfl⟩ := List.mem_map.mp hw
      rw [List.length_cons, hzeros.even v hv]
    · obtain ⟨v, hv, rfl⟩ := List.mem_map.mp hw
      rw [List.length_cons, hones.even v hv]
  allow := by
    intro bits
    cases bits with
    | nil =>
        refine iff_of_false ?_ fun hbits => ?_
        · rintro ⟨w, hw, hallows⟩
          rcases List.mem_append.mp hw with hw | hw
          · obtain ⟨v, hv, rfl⟩ := List.mem_map.mp hw
            exact hallows
          · obtain ⟨v, hv, rfl⟩ := List.mem_map.mp hw
            exact hallows
        · exact absurd (length_of_rowsAllow h hbits) (Nat.succ_ne_zero length).symm
    | cons value bits =>
        rw [rowsAllow_append, rowsAllow_map_cons, rowsAllow_map_cons, hzeros.allow, hones.allow,
          rowsAllow_tails h, rowsAllow_tails h]
        cases value <;> simp [Bit.values]
  apart := by
    have lift : ∀ (b : Bit) {rows : List Word}, rows.Pairwise Word.Apart →
        (rows.map (b :: ·)).Pairwise Word.Apart := by
      intro b rows hrows
      rw [List.pairwise_map]
      refine hrows.imp fun happart bits hboth => ?_
      cases bits with
      | nil => exact hboth.1
      | cons value bits => exact happart bits ⟨hboth.1.2, hboth.2.2⟩
    refine List.pairwise_append.mpr ⟨lift .zero hzeros.apart, lift .one hones.apart, ?_⟩
    intro v hv w hw bits hboth
    obtain ⟨v', -, rfl⟩ := List.mem_map.mp hv
    obtain ⟨w', -, rfl⟩ := List.mem_map.mp hw
    cases bits with
    | nil => exact hboth.1
    | cons value bits =>
        have zero := hboth.1.1
        have one := hboth.2.1
        cases value <;> simp [Bit.values] at zero one

/-- Two different bits leave nothing out. -/
theorem allows_of_two
    {v w : Word} (hv : v.length = 1) (hw : w.length = 1) (hne : v ≠ w) {bits : List Bool}
    (hbits : bits.length = 1) :
    v.Allows bits ∨ w.Allows bits := by
  obtain ⟨a, rfl⟩ := List.length_eq_one_iff.mp hv
  obtain ⟨b, rfl⟩ := List.length_eq_one_iff.mp hw
  obtain ⟨value, rfl⟩ := List.length_eq_one_iff.mp hbits
  have hab : a ≠ b := fun h => hne (by rw [h])
  have either := (Word.mem_values_of_ne hab value).mp (by cases value <;> decide)
  exact either.imp (fun h => ⟨h, trivial⟩) (fun h => ⟨h, trivial⟩)

theorem separates_same
    {length : Nat} {words : List Word} (h : Even length words) {w : Word} (hw : w ∈ words)
    (hsame : ∀ v ∈ words, v = w) :
    Separates length words [w] := by
  refine separates_singleton (h w hw) fun bits => ⟨fun hallows => ⟨w, hw, hallows⟩, ?_⟩
  rintro ⟨v, hv, hallows⟩
  rwa [← hsame v hv]

theorem separates_free
    {length : Nat} {words : List Word} (h : Even length words) {free : Word}
    (hfree : free.IsWild) (hlength : free.length = length)
    (hall : ∀ bits : List Bool, bits.length = length → RowsAllow words bits) :
    Separates length words [free] := by
  refine separates_singleton hlength fun bits => ⟨fun hallows => ?_, fun hbits => ?_⟩
  · exact hall bits ((Word.length_of_allows hallows).trans hlength)
  · exact Word.allows_of_wild hfree ((length_of_rowsAllow h hbits).trans hlength.symm)

/-- Words of a single bit that are looked at one after the other agree if all of them are that bit. -/
theorem agree_eq
    {bit : Bit} {others : List Word} (h : Even 1 others) :
    agree bit others = .ok (decide (∀ v ∈ others, v = [bit])) := by
  induction others with
  | nil => rfl
  | cons w others ih =>
      obtain ⟨hw, hothers⟩ := even_cons.mp h
      obtain ⟨b, rfl⟩ := List.length_eq_one_iff.mp hw
      rw [agree, List.getLast?_singleton]
      by_cases hb : b = bit
      · simp only [hb, if_true, ih hothers, List.forall_mem_cons, true_and]
      · simp [hb]

section Equations

variable (length : Nat) {words : List Word} (hne : words = [] → False)
  (hsingle : ∀ w, words = [w] → False) (hlong : ∀ bit others, words = [bit] :: others → False)
include hne hsingle hlong

/-- Among several words, a free one takes the place of all. -/
theorem separate_eq_free
    {free : Word} (h : words.find? (fun w => decide (Word.IsWild w)) = some free) :
    separate (length + 1) words = .ok [free] := by
  rw [separate, h]
  · exact hne
  · exact hsingle
  · exact hlong

/-- Several words of which none is free are split. -/
theorem separate_eq_split
    (h : words.find? (fun w => decide (Word.IsWild w)) = none) {zeros ones : List Word}
    (hzeros : separate length (words.filterMap (tailAllowing false)) = .ok zeros)
    (hones : separate length (words.filterMap (tailAllowing true)) = .ok ones) :
    separate (length + 1) words = .ok (zeros.map (.zero :: ·) ++ ones.map (.one :: ·)) := by
  rw [separate, h, hzeros, hones]
  · rfl
  · exact hne
  · exact hsingle
  · exact hlong

end Equations

@[simp] theorem separate_singleton
    (length : Nat) (w : Word) :
    separate length [w] = .ok [w] := by
  rw [separate]

/-- The tails of rows that begin with one bit are the rows behind it, or none. -/
theorem tails_map_cons
    (value : Bool) (b : Bit) (rows : List Word) :
    (rows.map (b :: ·)).filterMap (tailAllowing value) =
      if value ∈ b.values then rows else [] := by
  rw [List.filterMap_map]
  by_cases hvalue : value ∈ b.values
  · have tail : tailAllowing value ∘ (b :: ·) = some := funext fun w => if_pos hvalue
    rw [tail, List.filterMap_some, if_pos hvalue]
  · have tail : tailAllowing value ∘ (b :: ·) = fun _ => none := funext fun w => if_neg hvalue
    rw [tail, if_neg hvalue]
    simp

theorem not_isWild_of_split
    {zeros ones : List Word} {w : Word}
    (hw : w ∈ zeros.map (Bit.zero :: ·) ++ ones.map (Bit.one :: ·)) :
    ¬ w.IsWild := by
  intro hwild
  rcases List.mem_append.mp hw with hw | hw
  · obtain ⟨v, -, rfl⟩ := List.mem_map.mp hw
    cases hwild .zero List.mem_cons_self
  · obtain ⟨v, -, rfl⟩ := List.mem_map.mp hw
    cases hwild .one List.mem_cons_self

/-- Rows that are put together from two separated sides are split into these sides again. -/
theorem separate_split
    {length : Nat} {zeros ones : List Word}
    (heven : Even (length + 2) (zeros.map (Bit.zero :: ·) ++ ones.map (Bit.one :: ·)))
    (hzeros : separate (length + 1) zeros = .ok zeros)
    (hones : separate (length + 1) ones = .ok ones) :
    separate (length + 2) (zeros.map (.zero :: ·) ++ ones.map (.one :: ·)) =
      .ok (zeros.map (.zero :: ·) ++ ones.map (.one :: ·)) := by
  match hrows : zeros.map (Bit.zero :: ·) ++ ones.map (Bit.one :: ·) with
  | [] => rw [separate]
  | [w] => rw [separate]
  | v :: w :: rest =>
      have wilds : (v :: w :: rest).find? (fun w => decide (Word.IsWild w)) = none := by
        rw [← hrows, List.find?_eq_none]
        exact fun w hw => by simpa using not_isWild_of_split hw
      have falses : (v :: w :: rest).filterMap (tailAllowing false) = zeros := by
        rw [← hrows, List.filterMap_append, tails_map_cons, tails_map_cons]
        simp [Bit.values]
      have trues : (v :: w :: rest).filterMap (tailAllowing true) = ones := by
        rw [← hrows, List.filterMap_append, tails_map_cons, tails_map_cons]
        simp [Bit.values]
      have long : ∀ bit others, v :: w :: rest = [bit] :: others → False := by
        intro bit others hsame
        have := heven v (by rw [hrows]; exact List.mem_cons_self)
        rw [(List.cons.inj hsame).1, List.length_singleton] at this
        omega
      rw [← falses] at hzeros
      rw [← trues] at hones
      rw [separate_eq_split (length + 1) (by simp) (by simp) long wilds hzeros hones, falses, trues,
        hrows]

/-- Words of the given length are separated, and what they are separated into is not separated any
further. -/
theorem returns_separate
    {length : Nat} {words : List Word} (h : Even length words) :
    Returns (separate length words) fun rows =>
      Separates length words rows ∧ separate length rows = .ok rows := by
  induction length, words using separate.induct with
  | case1 length =>
      rw [separate]
      exact Returns.pure ⟨⟨h, fun bits => Iff.rfl, List.Pairwise.nil⟩, by rw [separate]⟩
  | case2 length w =>
      rw [separate_singleton]
      refine Returns.pure ⟨?_, separate_singleton _ _⟩
      exact separates_singleton (h w (List.mem_singleton_self w)) (by simp [RowsAllow])
  | case3 w others hne =>
      rw [separate]
      · refine Returns.pure ⟨separates_same h List.mem_cons_self fun v hv => ?_,
          separate_singleton _ _⟩
        have hvnil := List.eq_nil_of_length_eq_zero (h v hv)
        have hwnil := List.eq_nil_of_length_eq_zero (h w List.mem_cons_self)
        rw [hvnil, hwnil]
      · exact hne
  | case4 length bit others hne =>
      obtain rfl : length = 0 := (Nat.succ.inj (h [bit] List.mem_cons_self)).symm
      rw [separate, agree_eq (even_cons.mp h).2]
      · refine Returns.pure ⟨?_, separate_singleton _ _⟩
        by_cases hsame : ∀ v ∈ others, v = [bit]
        · rw [decide_eq_true hsame]
          refine separates_same h List.mem_cons_self fun v hv => ?_
          rcases List.mem_cons.mp hv with rfl | hv
          · rfl
          · exact hsame v hv
        · rw [decide_eq_false hsame]
          refine separates_free h (Word.isWild_replicate 1) rfl fun bits hbits => ?_
          obtain ⟨v, hv⟩ := not_forall.mp hsame
          obtain ⟨hvmem, hvw⟩ := Classical.not_imp.mp hv
          have hvlen := h v (List.mem_cons_of_mem _ hvmem)
          rcases allows_of_two hvlen rfl hvw hbits with hallows | hallows
          · exact ⟨v, List.mem_cons_of_mem _ hvmem, hallows⟩
          · exact ⟨[bit], List.mem_cons_self, hallows⟩
      · exact hne
  | case5 length words hne hsingle hlong free hfree =>
      have hmem := List.mem_of_find?_eq_some hfree
      have hwild : free.IsWild := by simpa using List.find?_some hfree
      have hlen := h free hmem
      rw [separate_eq_free length hne hsingle hlong hfree]
      refine Returns.pure ⟨?_, separate_singleton _ _⟩
      refine separates_free h hwild hlen fun bits hbits => ⟨free, hmem, ?_⟩
      exact Word.allows_of_wild hwild (hbits.trans hlen.symm)
  | case6 length words hne hsingle hlong hfree ihzero ihone =>
      obtain ⟨zeros, hzeros, sepzeros, fixzeros⟩ := ihzero (even_tails h false)
      obtain ⟨ones, hones, sepones, fixones⟩ := ihone (even_tails h true)
      have sep := separates_split h sepzeros sepones
      refine ⟨_, separate_eq_split length hne hsingle hlong hfree hzeros hones, sep, ?_⟩
      cases length with
      | zero =>
          -- Words of a single bit are not split.
          obtain ⟨w, rest, rfl⟩ := List.exists_cons_of_ne_nil hne
          obtain ⟨bit, rfl⟩ := List.length_eq_one_iff.mp (h w List.mem_cons_self)
          exact False.elim (hlong bit rest rfl)
      | succ length => exact separate_split sep.even fixzeros fixones

end Separation

section Disjointness

variable {length : Nat}

/-- Reversed words allow the reversed sequences. -/
theorem rowsAllow_reverse
    (words : List Word) (bits : List Bool) :
    RowsAllow (words.map List.reverse) bits.reverse ↔ RowsAllow words bits := by
  constructor
  · rintro ⟨w, hw, hallows⟩
    obtain ⟨v, hv, rfl⟩ := List.mem_map.mp hw
    exact ⟨v, hv, Word.allows_reverse.mp hallows⟩
  · rintro ⟨v, hv, hallows⟩
    exact ⟨v.reverse, List.mem_map_of_mem hv, Word.allows_reverse.mpr hallows⟩

theorem even_reverse
    {words : List Word} (h : Even length words) :
    Even length (words.map List.reverse) := by
  intro w hw
  obtain ⟨v, hv, rfl⟩ := List.mem_map.mp hw
  rw [List.length_reverse, h v hv]

theorem separates_reverse
    {words rows : List Word} (h : Separates length (words.map List.reverse) rows) :
    Separates length words (rows.map List.reverse) where
  even := even_reverse h.even
  allow bits := by
    rw [← rowsAllow_reverse words, ← h.allow, ← rowsAllow_reverse rows, List.reverse_reverse]
  apart := by
    rw [List.pairwise_map]
    refine h.apart.imp fun happart bits hboth => happart bits.reverse ?_
    rw [← List.reverse_reverse bits, Word.allows_reverse, Word.allows_reverse] at hboth
    exact hboth

/-- The length at which rows are separated is that of any of them. -/
theorem separateRows_eq
    {rows : List Word} (h : Even length rows) :
    separateRows rows =
      (separate length (rows.map List.reverse)).map (List.map List.reverse) := by
  have longest : ∀ (others : List Word) (most : Nat), Even length others → most ≤ length →
      (others.map List.length).foldl max most = if others = [] then most else length := by
    intro others
    induction others with
    | nil => exact fun most _ _ => rfl
    | cons w others ih =>
        intro most heven hmost
        obtain ⟨hw, hothers⟩ := even_cons.mp heven
        rw [List.map_cons, List.foldl_cons, hw, Nat.max_eq_right hmost,
          ih length hothers (Nat.le_refl _)]
        simp
  cases rows with
  | nil => rw [separateRows, List.map_nil, separate, separate]; rfl
  | cons w rows =>
      have bound := longest _ 0 (even_reverse h) (Nat.zero_le _)
      rw [separateRows, bound, if_neg (by simp)]
      rfl

/-- Rows of one length are separated, and what they are separated into is not separated any further. -/
theorem returns_separateRows
    {rows : List Word} (h : Even length rows) :
    Returns (separateRows rows) fun separated =>
      Separates length rows separated ∧ separateRows separated = .ok separated := by
  obtain ⟨words, hwords, sep, hfixed⟩ := returns_separate (even_reverse h)
  have turned : (words.map List.reverse).map List.reverse = words := by
    rw [List.map_map, List.reverse_involutive.comp_self, List.map_id]
  refine ⟨words.map List.reverse, ?_, separates_reverse sep, ?_⟩
  · rw [separateRows_eq h, hwords]
    rfl
  · rw [separateRows_eq (even_reverse sep.even), turned, hfixed]
    rfl

/-- Rows of one length cover a tape exactly if they allow its beginning. -/
theorem rowsCover_iff_rowsAllow
    {rows : List Word} (h : Even length rows) (σ : Tape) :
    RowsCover rows σ ↔ RowsAllow rows (σ.take length) := by
  refine exists_congr fun w => and_congr_right fun hw => ?_
  rw [← h w hw, Word.allows_take]

/-- Words of one length that share no sequence match no common tape. -/
theorem exclusive_of_apart
    {v w : Word} (hv : v.length = length) (hw : w.length = length) (h : v.Apart w) :
    v.Exclusive w := by
  rintro σ ⟨hvm, hwm⟩
  rw [← Word.allows_take, hv] at hvm
  rw [← Word.allows_take, hw] at hwm
  exact h _ ⟨hvm, hwm⟩

/-- A divided cover is disjoint exactly if no tape is matched by two of its members. -/
theorem Divided.isDisjoint_iff
    {c : Cover} {vars : Nat} (h : c.Divided vars) :
    c.IsDisjoint ↔ c.rows.Pairwise Word.Exclusive := by
  have even := h.even_padded
  have meets : c.IsDisjoint ↔ c.padded.rows.Pairwise Word.Exclusive :=
    List.Pairwise.iff_of_mem fun hv hw =>
      (Word.exclusive_iff_meet ((even _ hv).trans (even _ hw).symm)).symm
  rw [meets, padded, rows_paddedTo, List.pairwise_map]
  exact List.Pairwise.iff fun v w => Word.exclusive_padTo _ _

theorem mapM_ofBits
    {vars blocks : Nat} {rows : List Word} (h : ∀ w ∈ rows, w.Fills vars blocks) :
    rows.mapM (Pattern.ofBits vars) = .ok (rows.map (⟨vars, ·⟩)) := by
  induction rows with
  | nil => rfl
  | cons w rows ih =>
      obtain ⟨pos, whole, -⟩ := h w List.mem_cons_self
      have hvars : vars ≠ 0 := Nat.ne_of_gt (Nat.pos_of_dvd_of_pos whole pos)
      have hne : w ≠ [] := List.ne_nil_of_length_pos pos
      have accepted : Pattern.ofBits vars w = .ok ⟨vars, w⟩ := by
        rw [Pattern.ofBits, if_neg]
        rintro (hzero | hnil | hrest)
        · exact hvars hzero
        · exact hne hnil
        · exact hrest (Nat.mod_eq_zero_of_dvd whole)
      rw [List.mapM_cons, accepted, ih fun v hv => h v (List.mem_cons_of_mem w hv)]
      rfl

variable {c : Cover} {vars blocks : Nat}

/-- Rows of one length are as long as the longest. -/
theorem padded_of_even
    {rows : List Word} (h : Even (blocks * vars) rows) :
    padded ⟨vars, rows⟩ = ⟨vars, rows⟩ := by
  have short : blockCount ⟨vars, rows⟩ ≤ blocks :=
    blockCount_le_of_length rfl fun w hw => Nat.le_of_eq (h w hw)
  refine paddedTo_eq_self fun w hw => ?_
  rw [h w hw]
  exact Nat.mul_le_mul_right vars short

/-- The disjoint form has the separated members, if they are accepted as patterns. -/
theorem disjoint_of_separateRows
    {rows : List Word} (hblocks : c.requireBlocks = .ok ()) (hwidth : c.width = vars)
    (hrows : separateRows c.padded.rows = .ok rows) (hfits : Fits ⟨vars, rows⟩ vars blocks) :
    c.disjoint = .ok ⟨vars, rows⟩ := by
  rw [disjoint, hblocks, hrows, hwidth]
  change (rows.mapM (Pattern.ofBits vars) >>= _) = _
  rw [mapM_ofBits hfits.rows]
  change Except.ok (Cover.mk vars _) = _
  rw [List.map_map]
  congr 2
  exact List.map_id _

/-- A cover that fits has a disjoint form that fits, covers the same, is disjoint and is its own disjoint
form. -/
theorem returns_disjoint
    (h : c.Fits vars blocks) :
    Returns c.disjoint fun d =>
      d.Fits vars blocks ∧ (∀ σ, d.Covers σ ↔ c.Covers σ) ∧ d.IsDisjoint ∧ d.disjoint = .ok d := by
  have even := h.divided.even_padded
  obtain ⟨rows, hrows, sep, hfixed⟩ := returns_separateRows even
  have fits : Fits ⟨vars, rows⟩ vars blocks := by
    refine ⟨rfl, fun w hw => ?_⟩
    obtain ⟨bits, hbits⟩ := Word.exists_allows w
    obtain ⟨v, hv, -⟩ := (sep.allow bits).mp ⟨w, hw, hbits⟩
    have hne : c.rows ≠ [] := by
      intro hnil
      rw [padded, rows_paddedTo, hnil] at hv
      exact absurd hv List.not_mem_nil
    rw [Word.Fills, sep.even w hw]
    exact ⟨h.blockCount_pos hne, Nat.dvd_mul_left _ _, Nat.mul_le_mul_right vars h.blockCount_le⟩
  refine ⟨⟨vars, rows⟩, disjoint_of_separateRows h.requireBlocks h.width hrows fits, fits,
    fun σ => ?_, fits.divided.isDisjoint_iff.mpr ?_, ?_⟩
  · change RowsCover rows σ ↔ _
    rw [rowsCover_iff_rowsAllow sep.even, sep.allow, ← rowsCover_iff_rowsAllow even]
    exact covers_paddedTo _ c σ
  · exact sep.apart.imp_of_mem fun hv hw => exclusive_of_apart (sep.even _ hv) (sep.even _ hw)
  · refine disjoint_of_separateRows fits.requireBlocks rfl ?_ fits
    rwa [padded_of_even sep.even]

end Disjointness

end Cover

end MissionTime

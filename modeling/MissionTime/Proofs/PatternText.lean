import MissionTime.Pattern.Reader
import MissionTime.Proofs.Returns

/-!
# Written patterns

A pattern is written as its blocks with commas between them. Reading accepts exactly these texts: one or
more blocks of one length over `0`, `1` and `s`. Lengths are compared in bytes before the symbols are
read, but no text with longer symbols gets through, so the bytes of a block are its symbols.

**Definitions.**
* `Pattern.written`: the blocks of words in symbols.

**Results.**
* `Pattern.readBits_eq_ok_iff`: what is read of a text;
* `Pattern.ofText_eq_ok_iff`: the patterns that a text is read as, and `Pattern.text_of_words`: the text of
  a pattern;
* `Pattern.ofText_iff_blocks_and_text`: reading and writing.
-/

namespace MissionTime

namespace Bit

theorem eq_symbol_iff
    {c : Char} :
    (∃ b : Bit, c = b.symbol) ↔ c = '0' ∨ c = '1' ∨ c = 's' := by
  constructor
  · rintro ⟨b, rfl⟩
    cases b <;> simp [symbol]
  · rintro (rfl | rfl | rfl)
    · exact ⟨.zero, rfl⟩
    · exact ⟨.one, rfl⟩
    · exact ⟨.wild, rfl⟩

theorem comma_ne_symbol
    (b : Bit) :
    ',' ≠ b.symbol := by
  cases b <;> decide

theorem byteLength_map_symbol
    (w : Word) :
    byteLength (w.map symbol) = w.length := by
  induction w with
  | nil => rfl
  | cons b w ih =>
      have one : b.symbol.utf8Size = 1 := by cases b <;> rfl
      rw [List.map_cons, byteLength_cons, one, ih, List.length_cons, Nat.add_comm]

end Bit

namespace Pattern

section Reading

/-- The blocks of words, written with the symbols of the bits. -/
def written (words : List Word) : List (List Char) :=
  words.map (List.map Bit.symbol)

theorem readSymbols_symbols
    (w : Word) :
    readSymbols (w.map Bit.symbol) = .ok w := by
  induction w with
  | nil => rfl
  | cons b w ih =>
      rw [List.map_cons, readSymbols, Bit.ofSymbol?_symbol, ih]
      rfl

theorem symbols_of_readSymbols
    {block : List Char} {w : Word} (h : readSymbols block = .ok w) :
    block = w.map Bit.symbol := by
  induction block generalizing w with
  | nil =>
      obtain rfl := Except.ok.inj h
      rfl
  | cons c block ih =>
      rw [readSymbols] at h
      split at h
      · rename_i b hb
        cases hrest : readSymbols block with
        | ok rest =>
            rw [hrest] at h
            obtain rfl := Except.ok.inj h
            rw [List.map_cons, ← ih hrest, Bit.ofSymbol?_eq_some_iff.mp hb]
        | error fault =>
            rw [hrest] at h
            cases h
      · cases h

theorem readBlocks_written
    {width : Nat} {words : List Word} (h : ∀ w ∈ words, w.length = width) (step : Nat) :
    readBlocks width step (written words) = .ok words.flatten := by
  induction words generalizing step with
  | nil => rfl
  | cons w words ih =>
      obtain ⟨hlength, hwords⟩ := List.forall_mem_cons.mp h
      have tail := ih hwords (step + 1)
      rw [written, List.map_cons, readBlocks, if_pos ((Bit.byteLength_map_symbol w).trans hlength),
        readSymbols_symbols]
      change (readBlocks width (step + 1) (written words) >>= fun others => .ok (w ++ others)) = _
      rw [tail]
      rfl

/-- Blocks that are read are written with the symbols of the bits, and have the right length. -/
theorem written_of_readBlocks
    {width step : Nat} {blocks : List (List Char)} {bits : Word}
    (h : readBlocks width step blocks = .ok bits) :
    ∃ words, blocks = written words ∧ (∀ w ∈ words, w.length = width) ∧ bits = words.flatten := by
  induction blocks generalizing step bits with
  | nil => exact ⟨[], rfl, nofun, (Except.ok.inj h).symm⟩
  | cons block rest ih =>
      rw [readBlocks] at h
      split at h
      · rename_i hlength
        obtain ⟨w, hw, h⟩ := bind_eq_ok_iff.mp h
        obtain ⟨others, hothers, h⟩ := bind_eq_ok_iff.mp h
        obtain rfl := Except.ok.inj h
        obtain rfl := symbols_of_readSymbols hw
        obtain ⟨words, rfl, hwords, rfl⟩ := ih hothers
        rw [Bit.byteLength_map_symbol] at hlength
        exact ⟨w :: words, rfl, List.forall_mem_cons.mpr ⟨hlength, hwords⟩, rfl⟩
      · cases h

theorem commaParts_written
    {words : List Word} (hne : words ≠ []) :
    commaParts (joinCommas (written words)) = written words := by
  refine commaParts_joinCommas (mt List.map_eq_nil_iff.mp hne) fun part hpart hcomma => ?_
  obtain ⟨w, -, rfl⟩ := List.mem_map.mp hpart
  obtain ⟨b, -, hb⟩ := List.mem_map.mp hcomma
  exact b.comma_ne_symbol hb.symm

/-- The bits and the width of a text are those of its blocks; the width is that of the first one. -/
theorem readBits_eq_ok_iff
    {text : List Char} {width : Nat} {bits : Word} :
    readBits text = .ok (width, bits) ↔
      0 < width ∧ ∃ words, words ≠ [] ∧ (∀ w ∈ words, w.length = width) ∧ bits = words.flatten ∧
        text = joinCommas (written words) := by
  constructor
  · intro h
    rw [readBits] at h
    split at h
    · cases h
    · rename_i hwidth
      cases hread : readBlocks (byteLength ((commaParts text).headD [])) 0 (commaParts text) with
      | ok read =>
          rw [hread] at h
          obtain ⟨rfl, rfl⟩ := Prod.mk.inj (Except.ok.inj h)
          obtain ⟨words, hparts, hwords, hbits⟩ := written_of_readBlocks hread
          refine ⟨Nat.pos_of_ne_zero hwidth, words, ?_, hwords, hbits, ?_⟩
          · rintro rfl
            exact commaParts_ne_nil text hparts
          · rw [← hparts, joinCommas_commaParts]
      | error fault =>
          rw [hread] at h
          cases h
  · rintro ⟨hwidth, words, hne, hwords, rfl, rfl⟩
    have first : byteLength ((written words).headD []) = width := by
      obtain ⟨w, rest, rfl⟩ := List.exists_cons_of_ne_nil hne
      exact (Bit.byteLength_map_symbol w).trans (hwords w List.mem_cons_self)
    rw [readBits, commaParts_written hne, first, if_neg (Nat.ne_of_gt hwidth),
      readBlocks_written hwords]
    rfl

end Reading

section Texts

variable {p : Pattern} {words : List Word}

/-- The pattern has a width and blocks of this width, at least one. -/
structure HasBlocks (p : Pattern) (words : List Word) : Prop where
  width : 0 < p.width
  nonempty : words ≠ []
  uniform : ∀ w ∈ words, w.length = p.width
  bits : p.bits = words.flatten

/-- A pattern with blocks is read from them. -/
theorem HasBlocks.ofBits
    (h : p.HasBlocks words) :
    ofBits p.width p.bits = .ok p := by
  have length : p.bits.length = words.length * p.width := by
    rw [h.bits, length_flatten_uniform h.uniform]
  have pos : 0 < p.bits.length := by
    rw [length]
    exact Nat.mul_pos (List.length_pos_iff.mpr h.nonempty) h.width
  have whole : p.bits.length % p.width = 0 := by
    rw [length, Nat.mul_mod_left]
  rw [Pattern.ofBits, if_neg]
  rintro (hwidth | hbits | hrest)
  · exact Nat.ne_of_gt h.width hwidth
  · exact List.length_pos_iff.mp pos hbits
  · exact hrest whole

/-- The text of a pattern with blocks is that of the blocks. -/
theorem HasBlocks.chars
    (h : p.HasBlocks words) :
    p.chars = joinCommas (written words) := by
  have count : p.blockCount = words.length := by
    rw [blockCount, h.bits, length_flatten_uniform h.uniform, Nat.mul_div_cancel _ h.width]
  have whole : p.width ∣ p.bits.length := by
    rw [h.bits, length_flatten_uniform h.uniform]
    exact Nat.dvd_mul_left _ _
  have blocks : p.blocks = words := by
    rw [blocks_eq whole, count, h.bits, cutBlocks_uniform h.uniform]
  rw [Pattern.chars, blocks]
  rfl

/-- A pattern without a last block that is too short has blocks. -/
theorem hasBlocks_blocks
    (hwidth : 0 < p.width) (hcount : 0 < p.blockCount) (hwhole : p.width ∣ p.bits.length) :
    p.HasBlocks p.blocks := by
  have length : p.bits.length = p.blockCount * p.width := (Nat.div_mul_cancel hwhole).symm
  rw [blocks_eq hwhole]
  refine ⟨hwidth, ?_, fun w hw => length_of_mem_cutBlocks length hw, (cutBlocks_flatten length).symm⟩
  rw [← List.length_pos_iff, length_cutBlocks]
  exact hcount

/-- A text is read as the pattern whose blocks it consists of. -/
theorem ofText_eq_ok_iff
    {text : String} :
    ofText text = .ok p ↔
      ∃ words, p.HasBlocks words ∧ text.toList = joinCommas (written words) := by
  constructor
  · intro h
    rw [ofText] at h
    split at h
    · rename_i width bits hread
      obtain ⟨hwidth, words, hne, huniform, hbits, htext⟩ := readBits_eq_ok_iff.mp hread
      have blocks : (⟨width, bits⟩ : Pattern).HasBlocks words := ⟨hwidth, hne, huniform, hbits⟩
      obtain rfl := Except.ok.inj (blocks.ofBits.symm.trans h)
      exact ⟨words, blocks, htext⟩
    · cases h
  · rintro ⟨words, h, htext⟩
    have read : readBits text.toList = .ok (p.width, p.bits) :=
      readBits_eq_ok_iff.mpr ⟨h.width, words, h.nonempty, h.uniform, h.bits, htext⟩
    rw [ofText, read]
    exact h.ofBits

/-- A block over the three symbols, of the given number of symbols. -/
def IsBlock (width : Nat) (block : List Char) : Prop :=
  block.length = width ∧ ∀ c ∈ block, c = '0' ∨ c = '1' ∨ c = 's'

theorem isBlock_symbols
    {width : Nat} {w : Word} (h : w.length = width) :
    IsBlock width (w.map Bit.symbol) := by
  refine ⟨by rw [List.length_map, h], fun c hc => ?_⟩
  obtain ⟨b, -, rfl⟩ := List.mem_map.mp hc
  exact Bit.eq_symbol_iff.mp ⟨b, rfl⟩

theorem exists_written
    {width : Nat} {blocks : List (List Char)} (h : ∀ block ∈ blocks, IsBlock width block) :
    ∃ words, written words = blocks ∧ ∀ w ∈ words, w.length = width := by
  have range : blocks ∈ Set.range (List.map (List.map Bit.symbol)) := by
    rw [Set.range_list_map]
    intro block hblock
    rw [Set.range_list_map]
    intro c hc
    obtain ⟨b, hb⟩ := Bit.eq_symbol_iff.mpr ((h block hblock).2 c hc)
    exact ⟨b, hb.symm⟩
  obtain ⟨words, rfl⟩ := range
  refine ⟨words, rfl, fun w hw => ?_⟩
  have length := (h _ (List.mem_map_of_mem hw)).1
  rwa [List.length_map] at length

/-- Reading and writing of patterns. A text is read exactly if it consists of one or more blocks of the
same positive number of symbols `0`, `1` and `s`, with commas between them; what is read is written as the
text; and a pattern with a positive width and at least one block, all of them whole, is read from its
text. -/
theorem ofText_iff_blocks_and_text :
    (∀ text : String, (∃ p, ofText text = .ok p) ↔
      ∃ width blocks, 0 < width ∧ blocks ≠ [] ∧ (∀ block ∈ blocks, IsBlock width block) ∧
        text.toList = joinCommas blocks) ∧
      (∀ text p, ofText text = .ok p → p.text = text) ∧
      ∀ p : Pattern, 0 < p.width → 0 < p.blockCount → p.width ∣ p.bits.length →
        ofText p.text = .ok p := by
  refine ⟨fun text => ⟨?_, ?_⟩, fun text p h => ?_, fun p hwidth hcount hwhole => ?_⟩
  · rintro ⟨p, h⟩
    obtain ⟨words, blocks, htext⟩ := ofText_eq_ok_iff.mp h
    refine ⟨p.width, written words, blocks.width, mt List.map_eq_nil_iff.mp blocks.nonempty, ?_, htext⟩
    intro block hblock
    obtain ⟨w, hw, rfl⟩ := List.mem_map.mp hblock
    exact isBlock_symbols (blocks.uniform w hw)
  · rintro ⟨width, blocks, hwidth, hne, hblocks, htext⟩
    obtain ⟨words, rfl, huniform⟩ := exists_written hblocks
    have words_ne : words ≠ [] := by
      rintro rfl
      exact hne rfl
    exact ⟨⟨width, words.flatten⟩, ofText_eq_ok_iff.mpr
      ⟨words, ⟨hwidth, words_ne, huniform, rfl⟩, htext⟩⟩
  · obtain ⟨words, blocks, htext⟩ := ofText_eq_ok_iff.mp h
    rw [Pattern.text, blocks.chars, ← htext, String.ofList_toList]
  · have blocks := hasBlocks_blocks hwidth hcount hwhole
    refine ofText_eq_ok_iff.mpr ⟨p.blocks, blocks, ?_⟩
    rw [Pattern.text, String.toList_ofList, blocks.chars]

/-- Three blocks that are read and written again, and two blocks that are written and read again. -/
theorem ofText_iff_blocks_and_text_threeBlocks :
    (∃ p, ofText "0s1,sss,110" = .ok p ∧ p.text = "0s1,sss,110") ∧
      ofText (text ⟨2, [.one, .wild, .wild, .zero]⟩) = .ok ⟨2, [.one, .wild, .wild, .zero]⟩ := by
  obtain ⟨reads, writes, returns⟩ := ofText_iff_blocks_and_text
  constructor
  · obtain ⟨p, hp⟩ := (reads "0s1,sss,110").mpr
      ⟨3, [['0', 's', '1'], ['s', 's', 's'], ['1', '1', '0']], by decide, by decide, by simp [IsBlock], rfl⟩
    exact ⟨p, hp, writes _ p hp⟩
  · exact returns _ (by decide) (by decide) (by decide)

end Texts

end Pattern

end MissionTime

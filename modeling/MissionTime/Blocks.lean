/-!
# Blocks

Cutting a list into consecutive blocks of one length.

**Definitions.**
* `cutBlocks`, the first so many blocks of a list.

**Results.**
* `cutBlocks_flatten`: the blocks of a list whose length they fill give back the list;
* `cutBlocks_uniform`: blocks of one length are found again in the list that they make up;
* `getElem?_flatten_uniform`: the entries of that list by block and place in the block.
-/

namespace MissionTime

section Cut

variable {α : Type}

/-- The first `count` blocks of `size` entries. -/
def cutBlocks (size : Nat) : (count : Nat) → List α → List (List α)
  | 0, _ => []
  | count + 1, entries => entries.take size :: cutBlocks size count (entries.drop size)

@[simp] theorem length_cutBlocks
    (size count : Nat) (entries : List α) :
    (cutBlocks size count entries).length = count := by
  induction count generalizing entries with
  | zero => rfl
  | succ count ih => simp [cutBlocks, ih]

theorem cutBlocks_flatten
    {size count : Nat} {entries : List α} (h : entries.length = count * size) :
    (cutBlocks size count entries).flatten = entries := by
  induction count generalizing entries with
  | zero =>
      have : entries = [] := by simpa using h
      simp [cutBlocks, this]
  | succ count ih =>
      have rest : (entries.drop size).length = count * size := by
        rw [List.length_drop, h, Nat.succ_mul]
        omega
      simp [cutBlocks, ih rest]

theorem length_of_mem_cutBlocks
    {size count : Nat} {entries : List α} (h : entries.length = count * size)
    {block : List α} (hb : block ∈ cutBlocks size count entries) :
    block.length = size := by
  induction count generalizing entries with
  | zero => exact absurd hb List.not_mem_nil
  | succ count ih =>
      rw [Nat.succ_mul] at h
      rcases List.mem_cons.mp hb with rfl | hb
      · rw [List.length_take]
        omega
      · refine ih ?_ hb
        rw [List.length_drop]
        omega

end Cut

section Uniform

variable {α : Type}

theorem length_flatten_uniform
    {blocks : List (List α)} {size : Nat} (h : ∀ block ∈ blocks, block.length = size) :
    blocks.flatten.length = blocks.length * size := by
  induction blocks with
  | nil => simp
  | cons block blocks ih =>
      have head := h block List.mem_cons_self
      have tail := ih fun b hb => h b (List.mem_cons_of_mem block hb)
      rw [List.flatten_cons, List.length_append, head, tail, List.length_cons, Nat.succ_mul,
        Nat.add_comm]

/-- Blocks of one size are addressed by quotient and remainder. -/
theorem getElem?_flatten_uniform
    {blocks : List (List α)} {size : Nat} (hsize : 0 < size)
    (h : ∀ block ∈ blocks, block.length = size) (i : Nat) :
    blocks.flatten[i]? = blocks[i / size]?.bind (·[i % size]?) := by
  induction blocks generalizing i with
  | nil => simp
  | cons block blocks ih =>
      have head := h block List.mem_cons_self
      have tail := ih fun b hb => h b (List.mem_cons_of_mem block hb)
      rw [List.flatten_cons]
      by_cases hi : i < size
      · rw [List.getElem?_append_left (by omega), Nat.div_eq_of_lt hi, Nat.mod_eq_of_lt hi]
        rfl
      · have next : i = (i - size) + size := by omega
        have quotient : i / size = (i - size) / size + 1 := by
          conv => lhs; rw [next]
          exact Nat.add_div_right _ hsize
        have remainder : i % size = (i - size) % size := by
          conv => lhs; rw [next]
          exact Nat.add_mod_right _ _
        rw [List.getElem?_append_right (by omega), head, tail, quotient, remainder,
          List.getElem?_cons_succ]

/-- The blocks of a flattened list of blocks of one size are the blocks. -/
theorem cutBlocks_uniform
    {blocks : List (List α)} {size : Nat} (h : ∀ block ∈ blocks, block.length = size) :
    cutBlocks size blocks.length blocks.flatten = blocks := by
  induction blocks with
  | nil => rfl
  | cons block blocks ih =>
      have head := h block List.mem_cons_self
      have tail := ih fun b hb => h b (List.mem_cons_of_mem block hb)
      rw [List.length_cons, List.flatten_cons, cutBlocks, List.take_left' head, List.drop_left' head,
        tail]

end Uniform

end MissionTime

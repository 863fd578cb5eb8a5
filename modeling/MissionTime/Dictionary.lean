/-!
# Dictionaries

A dictionary holds one value for each of some keys. What is stored under a key takes the place of what
was stored there before.

**Definitions.**
* `Dictionary`, with `Dictionary.find?`, `Dictionary.insert` and `Dictionary.size`.

**Results.**
* `Dictionary.find?_insert`: what is found behind an insertion;
* `Dictionary.find?_eq_some_iff`: the entries are exactly what is found.
-/

namespace MissionTime

/-- Keys with their values. No key stands twice. -/
structure Dictionary (κ ν : Type) where
  entries : List (κ × ν) := []
  nodup : (entries.map Prod.fst).Nodup := by simp

namespace Dictionary

section Operations

variable {κ ν : Type} [DecidableEq κ]

/-- The value under a key. -/
def find? (d : Dictionary κ ν) (key : κ) : Option ν :=
  (d.entries.find? (fun entry => entry.1 = key)).map Prod.snd

/-- Stores a value in place of an earlier one. -/
def insert (d : Dictionary κ ν) (key : κ) (value : ν) : Dictionary κ ν where
  entries := (key, value) :: d.entries.filter (fun entry => entry.1 ≠ key)
  nodup := by
    have kept : ((d.entries.filter (fun entry => entry.1 ≠ key)).map Prod.fst).Nodup :=
      (List.filter_sublist.map Prod.fst).nodup d.nodup
    refine List.nodup_cons.mpr ⟨?_, kept⟩
    simp

/-- Number of keys. -/
def size (d : Dictionary κ ν) : Nat :=
  d.entries.length

end Operations

section Search

variable {κ ν : Type} [DecidableEq κ] (d : Dictionary κ ν)

@[simp] theorem find?_empty
    (key : κ) :
    find? ({} : Dictionary κ ν) key = none := by
  rfl

/-- The new value is found under its key, and under other keys what was there before. -/
theorem find?_insert
    (key other : κ) (value : ν) :
    (d.insert key value).find? other = if key = other then some value else d.find? other := by
  by_cases h : key = other
  · simp [find?, insert, h]
  · have kept : ∀ entry : κ × ν,
        (!decide (entry.1 = key) && decide (entry.1 = other)) = decide (entry.1 = other) := by
      intro entry
      by_cases hentry : entry.1 = other
      · simp [hentry, Ne.symm h]
      · simp [hentry]
    simp [find?, insert, h, List.find?_filter, kept]

/-- An entry is found under its key, as no other entry has this key. -/
theorem find?_eq_some_iff
    {key : κ} {value : ν} :
    d.find? key = some value ↔ (key, value) ∈ d.entries := by
  obtain ⟨entries, unique⟩ := d
  rw [find?]
  dsimp only
  induction entries with
  | nil => simp
  | cons entry entries ih =>
      obtain ⟨hnew, hrest⟩ := List.nodup_cons.mp unique
      by_cases h : entry.1 = key
      · subst h
        have other : (entry.1, value) ∉ entries := fun hmem =>
          hnew (List.mem_map.mpr ⟨_, hmem, rfl⟩)
        simp [other, Prod.ext_iff, eq_comm]
      · have differ : (key, value) ≠ entry := fun heq => h (congrArg Prod.fst heq).symm
        rw [List.find?_cons_of_neg (by simpa using h), ih hrest, List.mem_cons]
        simp [differ]

end Search

end Dictionary

end MissionTime

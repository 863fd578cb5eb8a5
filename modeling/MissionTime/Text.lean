/-!
# Texts

Texts as lists of characters: their length in bytes, and their parts between commas.

**Definitions.**
* `byteLength`, the number of bytes of a text;
* `commaParts`, the parts of a text between commas, and `joinCommas`, the text of given parts.

**Results.**
* `commaParts_joinCommas`: parts without commas are found again;
* `joinCommas_commaParts`: the parts of a text give back the text.
-/

namespace MissionTime

/-- Number of bytes of a text. -/
def byteLength : List Char → Nat
  | [] => 0
  | c :: rest => c.utf8Size + byteLength rest

@[simp] theorem byteLength_nil :
    byteLength [] = 0 := by
  rfl

@[simp] theorem byteLength_cons
    (c : Char) (text : List Char) :
    byteLength (c :: text) = c.utf8Size + byteLength text := by
  rfl

@[simp] theorem byteLength_append
    (u v : List Char) :
    byteLength (u ++ v) = byteLength u + byteLength v := by
  induction u with
  | nil => simp
  | cons c u ih => simp [ih, Nat.add_assoc]

/-- The parts of a text between commas; there is at least one. -/
def commaParts : List Char → List (List Char)
  | [] => [[]]
  | c :: rest =>
    if c = ',' then [] :: commaParts rest
    else match commaParts rest with
      | [] => [[c]]
      | part :: parts => (c :: part) :: parts

/-- The text with the given parts between commas. -/
def joinCommas (parts : List (List Char)) : List Char :=
  [','].intercalate parts

@[simp] theorem joinCommas_nil :
    joinCommas [] = [] := by
  rfl

@[simp] theorem joinCommas_singleton
    (part : List Char) :
    joinCommas [part] = part := by
  simp [joinCommas]

@[simp] theorem joinCommas_cons_cons
    (part next : List Char) (parts : List (List Char)) :
    joinCommas (part :: next :: parts) = part ++ ',' :: joinCommas (next :: parts) := by
  simp [joinCommas]

theorem commaParts_ne_nil
    (text : List Char) :
    commaParts text ≠ [] := by
  cases text with
  | nil => simp [commaParts]
  | cons c rest =>
      by_cases h : c = ','
      · simp [commaParts, h]
      · cases parts : commaParts rest <;> simp [commaParts, h, parts]

theorem commaParts_append
    {part : List Char} (h : ',' ∉ part) (rest : List Char) :
    commaParts (part ++ ',' :: rest) = part :: commaParts rest := by
  induction part with
  | nil => simp [commaParts]
  | cons c part ih =>
      simp only [List.mem_cons, not_or] at h
      simp [commaParts, Ne.symm h.1, ih h.2]

theorem commaParts_of_not_mem
    {part : List Char} (h : ',' ∉ part) :
    commaParts part = [part] := by
  induction part with
  | nil => rfl
  | cons c part ih =>
      simp only [List.mem_cons, not_or] at h
      simp [commaParts, Ne.symm h.1, ih h.2]

/-- Parts without commas are found again. -/
theorem commaParts_joinCommas
    {parts : List (List Char)} (hne : parts ≠ []) (h : ∀ part ∈ parts, ',' ∉ part) :
    commaParts (joinCommas parts) = parts := by
  induction parts with
  | nil => exact absurd rfl hne
  | cons part parts ih =>
      have hpart := h part List.mem_cons_self
      cases parts with
      | nil => simpa using commaParts_of_not_mem hpart
      | cons next parts =>
          rw [joinCommas_cons_cons, commaParts_append hpart,
            ih (by simp) fun p hp => h p (List.mem_cons_of_mem _ hp)]

/-- The parts of a text give back the text. -/
theorem joinCommas_commaParts
    (text : List Char) :
    joinCommas (commaParts text) = text := by
  induction text with
  | nil => rfl
  | cons c rest ih =>
      obtain ⟨part, parts, hp⟩ := List.exists_cons_of_ne_nil (commaParts_ne_nil rest)
      rw [hp] at ih
      by_cases hc : c = ','
      · simp [commaParts, hc, hp, ih]
      · cases parts with
        | nil => simp_all [commaParts]
        | cons next parts => simp_all [commaParts]

end MissionTime

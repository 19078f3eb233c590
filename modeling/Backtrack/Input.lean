/-!
# Inputs

A rule sees what is left of an input as a list of characters. Progress and offsets are counted in bytes of its
UTF-8 form.
-/

namespace Backtrack

/-- What is left to match. -/
abbrev Input := List Char

/-- The size of the UTF-8 form. -/
def bytes (s : Input) : Nat := s.foldl (fun size c => size + c.utf8Size) 0

theorem foldl_utf8Size (s : Input) (n : Nat) : s.foldl (fun size c => size + c.utf8Size) n = n + bytes s := by
  induction s generalizing n with
  | nil => rfl
  | cons c s ih =>
    have h : bytes (c :: s) = c.utf8Size + bytes s := by rw [bytes, List.foldl_cons, ih]; omega
    rw [List.foldl_cons, ih, h]; omega

@[simp] theorem bytes_nil : bytes [] = 0 := rfl

@[simp] theorem bytes_cons (c : Char) (s : Input) : bytes (c :: s) = c.utf8Size + bytes s := by
  rw [bytes, List.foldl_cons, foldl_utf8Size]; omega

@[simp] theorem bytes_append (s t : Input) : bytes (s ++ t) = bytes s + bytes t := by
  induction s with
  | nil => simp
  | cons c s ih => simp [ih, Nat.add_assoc]

theorem bytes_lt_cons (c : Char) (s : Input) : bytes s < bytes (c :: s) := by
  have := c.utf8Size_pos
  simp; omega

theorem length_le_bytes (s : Input) : s.length ≤ bytes s := by
  induction s with
  | nil => exact Nat.le_refl 0
  | cons c s ih =>
    have hpos := c.utf8Size_pos
    rw [List.length_cons, bytes_cons]
    omega

theorem bytes_le_four_mul_length (s : Input) : bytes s ≤ 4 * s.length := by
  induction s with
  | nil => exact Nat.le_refl 0
  | cons c s ih =>
    have hsize := c.utf8Size_le_four
    rw [List.length_cons, bytes_cons]
    omega

theorem bytes_le_of_suffix {t s : Input} (h : t <:+ s) : bytes t ≤ bytes s := by
  obtain ⟨consumed, rfl⟩ := h
  rw [bytes_append]
  exact Nat.le_add_left (bytes t) (bytes consumed)

theorem bytes_le_of_prefix {p s : Input} (h : p <+: s) : bytes p ≤ bytes s := by
  obtain ⟨t, rfl⟩ := h
  rw [bytes_append]
  exact Nat.le_add_right (bytes p) (bytes t)

theorem bytes_lt_of_suffix {t s : Input} (h : t <:+ s) (hne : t ≠ s) : bytes t < bytes s := by
  obtain ⟨consumed, rfl⟩ := h
  cases consumed with
  | nil => exact absurd rfl hne
  | cons c consumed =>
    have hlt := bytes_lt_cons c (consumed ++ t)
    rw [bytes_append] at hlt
    rw [List.cons_append]
    omega

theorem bytes_lt_append_iff {s t : Input} : bytes t < bytes (s ++ t) ↔ s ≠ [] := by
  cases s with
  | nil => simp
  | cons c s =>
    have hpos := c.utf8Size_pos
    simp
    omega

/-- How far an end of the input lies from its start is the size of what stands before it. -/
theorem bytes_sub_of_suffix {t s : Input} (h : t <:+ s) :
    ∃ consumed, consumed <+: s ∧ bytes s - bytes t = bytes consumed := by
  obtain ⟨consumed, rfl⟩ := h
  refine ⟨consumed, List.prefix_append consumed t, ?_⟩
  rw [bytes_append, Nat.add_sub_cancel]

end Backtrack

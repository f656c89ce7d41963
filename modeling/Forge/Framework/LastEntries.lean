import Mathlib.Data.List.DropRight

/-! # The Last Entries of a List

  `l.rtake n` is what a buffer of `n` entries holds after the entries of
  `l` have been put into it one after another:

  - `rtake_concat_of_full`: one entry more, put into the full buffer;
  - `rtake_append`: two lists, one behind the other;
  - `rtake_append_of_le`, `rtake_cons_of_le`: entries in front that are
    not among the last.
-/

namespace List

variable {α : Type*} {l l₁ l₂ : List α} {n : ℕ}

theorem length_rtake (l : List α) (n : ℕ) : (l.rtake n).length = min n l.length := by
  rw [rtake, length_drop]
  omega

/-- A list that is short enough is there as a whole. -/
theorem rtake_of_length_le (hle : l.length ≤ n) : l.rtake n = l := by
  rw [rtake, Nat.sub_eq_zero_of_le hle, drop_zero]

theorem rtake_suffix (l : List α) (n : ℕ) : l.rtake n <:+ l := drop_suffix _ _

/-- Only what is in the list counts. -/
theorem rtake_min_length (l : List α) (n : ℕ) : l.rtake (min l.length n) = l.rtake n := by
  rw [rtake, rtake]
  congr 1
  omega

/-- The last entries come from the second list, and then from the first. -/
theorem rtake_append (l₁ l₂ : List α) (n : ℕ) :
    (l₁ ++ l₂).rtake n = l₁.rtake (n - l₂.length) ++ l₂.rtake n := by
  unfold rtake
  rw [length_append, drop_append]
  by_cases hle : n ≤ l₂.length
  · have hnone : l₁.length - (n - l₂.length) = l₁.length := by omega
    have hrest : l₁.length + l₂.length - n - l₁.length = l₂.length - n := by omega
    rw [hnone, hrest, drop_length, drop_eq_nil_of_le (by omega)]
  · have hfirst : l₁.length + l₂.length - n = l₁.length - (n - l₂.length) := by omega
    have hall : l₁.length - (n - l₂.length) - l₁.length = l₂.length - n := by omega
    rw [hfirst, hall]

/-- What is in front of the last entries does not matter. -/
theorem rtake_append_of_le (hle : n ≤ l₂.length) : (l₁ ++ l₂).rtake n = l₂.rtake n := by
  rw [rtake_append, Nat.sub_eq_zero_of_le hle, rtake_zero, nil_append]

theorem rtake_cons_of_le {a : α} (hle : n ≤ l.length) : (a :: l).rtake n = l.rtake n :=
  @rtake_append_of_le _ [a] _ _ hle

theorem rtake_of_suffix (h : l₂ <:+ l₁) (hle : n ≤ l₂.length) : l₁.rtake n = l₂.rtake n := by
  obtain ⟨front, rfl⟩ := h
  exact rtake_append_of_le hle

/-- A full buffer and one entry more. -/
theorem rtake_concat_of_full (l : List α) (a : α) (n : ℕ) :
    (l.rtake n ++ [a]).rtake n = (l ++ [a]).rtake n := by
  cases n with
  | zero => simp
  | succ n =>
    have hshort : ((l.rtake (n + 1)).rtake n) = l.rtake n := by
      obtain ⟨front, hfront⟩ := rtake_suffix l (n + 1)
      by_cases hle : n ≤ (l.rtake (n + 1)).length
      · conv_rhs => rw [← hfront]
        exact (rtake_append_of_le hle).symm
      · -- the list is shorter than that
        rw [length_rtake] at hle
        rw [@rtake_of_length_le _ l (n + 1) (by omega)]
    rw [rtake_concat_succ, rtake_concat_succ, hshort]

end List

import Mathlib.Data.List.Perm.Basic

namespace Xxfs.Lib.SwapRemove

variable {α : Type}

/-- Takes element `i` out of the list; the last one moves into its place. -/
def swapRemove (l : List α) (i : ℕ) : List α :=
  match l.getLast? with
  | none => []
  | some x => (l.set i x).dropLast

theorem swapRemove_concat (l : List α) (x : α) (i : ℕ) :
    swapRemove (l ++ [x]) i = ((l ++ [x]).set i x).dropLast := by
  simp [swapRemove]

theorem swapRemove_last (l : List α) (e : α) : swapRemove (l ++ [e]) l.length = l := by
  rw [swapRemove_concat, List.set_append_right _ _ (Nat.le_refl _), Nat.sub_self, List.set_cons_zero,
    List.dropLast_concat]

theorem swapRemove_middle (l l' : List α) (e x : α) :
    swapRemove (l ++ e :: (l' ++ [x])) l.length = l ++ x :: l' := by
  have hassoc : l ++ e :: (l' ++ [x]) = (l ++ e :: l') ++ [x] := by simp
  rw [hassoc, swapRemove_concat, List.set_append_left _ _ (by simp), List.dropLast_concat,
    List.set_append_right _ _ (Nat.le_refl _), Nat.sub_self, List.set_cons_zero]

theorem length_swapRemove (l : List α) (i : ℕ) : (swapRemove l i).length = l.length - 1 := by
  rcases List.eq_nil_or_concat l with rfl | ⟨l, x, rfl⟩
  · rfl
  · rw [List.concat_eq_append, swapRemove_concat, List.length_dropLast, List.length_set]

theorem getElem?_swapRemove {l : List α} {i j : ℕ} (hi : i < l.length) (hj : j < l.length - 1) :
    (swapRemove l i)[j]? = if j = i then l[l.length - 1]? else l[j]? := by
  rcases List.eq_nil_or_concat l with rfl | ⟨l, x, rfl⟩
  · simp at hi
  · simp only [List.concat_eq_append] at hi hj ⊢
    rw [swapRemove_concat, List.getElem?_dropLast]
    simp only [List.length_append, List.length_singleton, Nat.add_sub_cancel, List.length_set] at hj ⊢
    rw [if_pos hj, List.getElem?_set]
    by_cases h : i = j
    · subst h
      simp only [↓reduceIte, hi]
      simp
    · rw [if_neg h, if_neg fun h' ↦ h h'.symm]

theorem swapRemove_perm {l : List α} {i : ℕ} (hi : i < l.length) :
    (swapRemove l i).Perm (l.eraseIdx i) := by
  rcases List.eq_nil_or_concat l with rfl | ⟨l, x, rfl⟩
  · simp at hi
  · simp only [List.concat_eq_append, List.length_append, List.length_singleton] at hi ⊢
    rw [swapRemove_concat]
    rcases Nat.lt_or_ge i l.length with h | h
    · rw [List.set_append_left _ _ h, List.dropLast_concat, List.eraseIdx_append_of_lt_length h,
        List.set_eq_take_append_cons_drop, if_pos h, List.eraseIdx_eq_take_drop_succ]
      simp only [List.append_assoc]
      exact List.Perm.append_left _ (List.perm_append_singleton _ _).symm
    · obtain rfl : i = l.length := by omega
      rw [List.eraseIdx_append_of_length_le (Nat.le_refl _)]
      simp

end Xxfs.Lib.SwapRemove

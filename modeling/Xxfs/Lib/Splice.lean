import Mathlib.Data.List.GetD
import Mathlib.Data.List.TakeDrop
import Mathlib.Tactic.Common

namespace Xxfs.Lib.Splice

variable {α : Type} {z : α} {l l' bs : List α} {off n i : ℕ}

/-- The list with `bs` written over it at `off`; a gap behind its end is filled with `z`. -/
def splice (z : α) (l : List α) (off : ℕ) (bs : List α) : List α :=
  l.takeD off z ++ (bs ++ l.drop (off + bs.length))

@[simp] theorem splice_length : (splice z l off bs).length = max l.length (off + bs.length) := by
  simp [splice, List.takeD_length]
  omega

theorem getD_takeD : (l.takeD n z).getD i z = if i < n then l.getD i z else z := by
  induction n generalizing l i with
  | zero => simp
  | succ n ih =>
    cases i with
    | zero => cases l <;> simp
    | succ i =>
      have hl : l.getD (i + 1) z = l.tail.getD i z := by cases l <;> simp
      simp only [List.takeD_succ, List.getD_cons_succ, ih, hl, Nat.add_lt_add_iff_right]

theorem getD_splice : (splice z l off bs).getD i z =
    if off ≤ i ∧ i < off + bs.length then bs.getD (i - off) z else l.getD i z := by
  have hlen : (l.takeD off z).length = off := List.takeD_length off l z
  by_cases hlow : i < off
  · rw [splice, List.getD_append _ _ _ _ (hlen.symm ▸ hlow), getD_takeD, if_pos hlow, if_neg (by omega)]
  · rw [splice, List.getD_append_right _ _ _ _ (hlen.symm ▸ Nat.le_of_not_lt hlow), hlen]
    by_cases hin : i < off + bs.length
    · rw [List.getD_append _ _ _ _ (by omega), if_pos (by omega)]
    · rw [List.getD_append_right _ _ _ _ (by omega), if_neg (by omega)]
      simp only [List.getD_eq_getElem?_getD, List.getElem?_drop]
      congr 2
      omega

theorem eq_of_getD (hlen : l.length = l'.length) (h : ∀ i < l.length, l.getD i z = l'.getD i z) :
    l = l' :=
  List.ext_getElem hlen fun i hi hi' ↦ by simpa [hi, hi'] using h i hi

end Xxfs.Lib.Splice

import Mathlib.Data.Nat.Basic
import Mathlib.Order.MinMax

namespace Xxfs.Lib.WriteLog

variable {α : Type}

/-- A write of the first `len` items of `src` at `off`. -/
structure Write (α : Type) where
  off : ℕ
  len : ℕ
  src : ℕ → α

def Covers (w : Write α) (i : ℕ) : Prop := w.off ≤ i ∧ i < w.off + w.len

instance (w : Write α) (i : ℕ) : Decidable (Covers w i) := inferInstanceAs (Decidable (_ ∧ _))

/-- The size of a file of `s` items after writes, the latest of them first. -/
def size (s : ℕ) : List (Write α) → ℕ
  | [] => s
  | w :: ws => max (size s ws) (w.off + w.len)

/-- The items of the file `f` after writes, the latest of them first. -/
def latest (f : ℕ → α) : List (Write α) → ℕ → α
  | [], i => f i
  | w :: ws, i => if Covers w i then w.src (i - w.off) else latest f ws i

variable {f g g' : ℕ → α} {s i : ℕ} {w : Write α} {ws : List (Write α)} {z : α}

theorem latest_behind (hf : ∀ i, s ≤ i → f i = z) (hi : size s ws ≤ i) : latest f ws i = z := by
  induction ws with
  | nil => exact hf i hi
  | cons w ws ih =>
    have hle := le_max_left (size s ws) (w.off + w.len)
    have hend := le_max_right (size s ws) (w.off + w.len)
    rw [size] at hi
    rw [latest, if_neg fun hc ↦ absurd hc.2 (Nat.not_lt.mpr (hend.trans hi))]
    exact ih (hle.trans hi)

/-- The file `g` is what the writes have made of `f`. -/
def Holds (f : ℕ → α) (s : ℕ) (ws : List (Write α)) (g : ℕ → α) : Prop :=
  ∀ i < size s ws, g i = latest f ws i

/-- One more write: it shows where it covers, the rest stays, and a gap is filled up. -/
theorem Holds.write (h : Holds f s ws g) (hf : ∀ i, s ≤ i → f i = z)
    (hnew : ∀ i < w.len, g' (w.off + i) = w.src i)
    (hrest : ∀ i < size s ws, ¬Covers w i → g' i = g i)
    (hgap : ∀ i, size s ws ≤ i → i < w.off → g' i = z) : Holds f s (w :: ws) g' := by
  intro i hi
  rw [latest]
  split
  · rename_i hc
    obtain ⟨hlo, hhi⟩ := hc
    have hat := hnew (i - w.off) (by omega)
    rwa [Nat.add_sub_cancel' hlo] at hat
  · rename_i hc
    by_cases hin : i < size s ws
    · rw [hrest i hin hc, h i hin]
    · have hbefore : i < w.off := by
        rw [Covers] at hc
        have hlt := (lt_max_iff.mp hi).resolve_left hin
        omega
      rw [hgap i (Nat.le_of_not_lt hin) hbefore, latest_behind hf (Nat.le_of_not_lt hin)]

end Xxfs.Lib.WriteLog

import Mathlib.Data.List.Nodup
import Xxfs.Lib.Computation

namespace Xxfs.Lib.Computation

/-- Computations on an array; the state is the list of the positions that they have read. -/
abbrev Reader (α : Type) : Type := Comp (List ℕ) α

namespace Reader

variable {α β γ : Type}

def read (f : ℕ → γ) (i : ℕ) : Reader γ := fun log ↦ some (f i, log ++ [i])

/-- The computation returns `a` and reads the `k` positions from `p` on, each once. -/
def Spans (m : Reader α) (a : α) (p k : ℕ) : Prop :=
  ∀ log, m log = some (a, log ++ List.range' p k)

variable {m : Reader α} {f : α → Reader β} {a : α} {b : β} {p q k j n : ℕ}

theorem Spans.read (f : ℕ → γ) (p : ℕ) : Spans (Reader.read f p) (f p) p 1 := fun _ ↦ rfl

theorem Spans.pure (a : α) (p : ℕ) : Spans (Pure.pure a : Reader α) a p 0 := fun log ↦ by
  rw [Comp.pure_apply, List.range'_zero, List.append_nil]

theorem Spans.bind (h : Spans m a p k) (h' : Spans (f a) b q j) (hq : p + k = q) (hn : k + j = n) :
    Spans (m >>= f) b p n := fun log ↦ by
  subst hq hn
  rw [Comp.bind_apply, h log, Option.bind_some, h', List.append_assoc, List.range'_append_1]

theorem Spans.last (h : Spans m a p k) (g : α → β) :
    Spans (m >>= fun x ↦ Pure.pure (g x)) (g a) p k := fun log ↦ by
  rw [Comp.bind_apply, h log, Option.bind_some, Comp.pure_apply]

/-- From the start of the array it reads each of the `k` positions once and no other. -/
theorem Spans.count (h : Spans m a 0 k) :
    ∃ reads, m [] = some (a, reads) ∧ ∀ i, reads.count i = if i < k then 1 else 0 := by
  refine ⟨_, h [], fun i ↦ ?_⟩
  rw [List.nil_append, ← List.range_eq_range']
  split
  · exact List.count_eq_one_of_mem List.nodup_range (List.mem_range.mpr ‹_›)
  · exact List.count_eq_zero.mpr fun hi ↦ absurd (List.mem_range.mp hi) ‹_›

end Reader

end Xxfs.Lib.Computation

import Mathlib.Data.Set.Lattice
import Mathlib.Order.CompletePartialOrder
import Mathlib.Logic.Pairwise

namespace Xxfs.Lib.Shares

open Function

variable {ι α : Type} {f g : ι → Set α} {a b : ι}

/-- A set of places shared out among owners, none to two of them. -/
def Apart (f : ι → Set α) : Prop := Pairwise (Disjoint on f)

def owned (f : ι → Set α) : Set α := ⋃ i, f i

theorem mem_owned {x : α} : x ∈ owned f ↔ ∃ i, x ∈ f i := Set.mem_iUnion

theorem subset_owned (f : ι → Set α) (i : ι) : f i ⊆ owned f := Set.subset_iUnion f i

theorem Apart.not_mem (h : Apart f) (hab : a ≠ b) {x : α} (hx : x ∈ f a) : x ∉ f b :=
  Set.disjoint_left.mp (h hab) hx

/-- Two owners may settle their shares anew; the others give up what they like. -/
theorem Apart.exchange (h : Apart f) (hab : g a ∪ g b ⊆ f a ∪ f b) (hdis : Disjoint (g a) (g b))
    (hle : ∀ i, i ≠ a → i ≠ b → g i ⊆ f i) : Apart g := by
  have hpair (i j : ι) (hi : i ≠ a ∧ i ≠ b) (hj : j = a ∨ j = b) : Disjoint (g i) (g j) := by
    refine Set.disjoint_left.mpr fun x hx hx' ↦ ?_
    have hxi := hle i hi.1 hi.2 hx
    have hxab : x ∈ f a ∪ f b := by
      rcases hj with rfl | rfl
      · exact hab (.inl hx')
      · exact hab (.inr hx')
    rcases hxab with hxa | hxb
    · exact h.not_mem hi.1 hxi hxa
    · exact h.not_mem hi.2 hxi hxb
  intro i j hij
  by_cases hi : i = a ∨ i = b <;> by_cases hj : j = a ∨ j = b
  · rcases hi with rfl | rfl <;> rcases hj with rfl | rfl
    · exact (hij rfl).elim
    · exact hdis
    · exact hdis.symm
    · exact (hij rfl).elim
  · exact (hpair j i (not_or.mp hj) hi).symm
  · exact hpair i j (not_or.mp hi) hj
  · exact (h hij).mono (hle i (not_or.mp hi).1 (not_or.mp hi).2)
      (hle j (not_or.mp hj).1 (not_or.mp hj).2)

theorem owned_exchange (hab : g a ∪ g b ⊆ f a ∪ f b) (hle : ∀ i, i ≠ a → i ≠ b → g i ⊆ f i) :
    owned g ⊆ owned f := by
  intro x hx
  obtain ⟨i, hi⟩ := mem_owned.mp hx
  by_cases hia : i = a ∨ i = b
  · have hx' : x ∈ f a ∪ f b := by
      rcases hia with rfl | rfl
      · exact hab (.inl hi)
      · exact hab (.inr hi)
    exact hx'.elim (fun h ↦ subset_owned f a h) fun h ↦ subset_owned f b h
  · exact subset_owned f i (hle i (not_or.mp hia).1 (not_or.mp hia).2 hi)

theorem Apart.grow {s : Set α} (h : Apart f) (hs : Disjoint (owned f) s) (ha : g a ⊆ f a ∪ s)
    (hle : ∀ i, i ≠ a → g i ⊆ f i) : Apart g := by
  have hpair (i : ι) (hi : i ≠ a) : Disjoint (g i) (g a) := by
    refine Set.disjoint_left.mpr fun x hx hx' ↦ ?_
    rcases ha hx' with hxa | hxs
    · exact h.not_mem hi (hle i hi hx) hxa
    · exact Set.disjoint_left.mp hs (subset_owned f i (hle i hi hx)) hxs
  intro i j hij
  by_cases hi : i = a
  · subst hi
    exact (hpair j hij.symm).symm
  · by_cases hj : j = a
    · subst hj
      exact hpair i hi
    · exact (h hij).mono (hle i hi) (hle j hj)

theorem owned_grow {s : Set α} (ha : g a ⊆ f a ∪ s) (hle : ∀ i, i ≠ a → g i ⊆ f i) :
    owned g ⊆ owned f ∪ s := by
  intro x hx
  obtain ⟨i, hi⟩ := mem_owned.mp hx
  by_cases hia : i = a
  · subst hia
    exact (ha hi).imp (fun h ↦ subset_owned f i h) id
  · exact .inl (subset_owned f i (hle i hia hi))

end Xxfs.Lib.Shares

import Mathlib.Algebra.Order.BigOperators.Group.Finset
import Mathlib.Data.Finset.Pairwise
import Mathlib.Order.Interval.Finset.Nat

namespace Xxfs.Lib.Packing

open Finset

variable {ι κ : Type} {I : Finset ι} {start len : ι → ℕ} {used : ℕ}

def span (start len : ι → ℕ) (i : ι) : Finset ℕ := Ico (start i) (start i + len i)

/-- Ranges of an area that stay below `used` and take no place twice. -/
structure Packed (I : Finset ι) (start len : ι → ℕ) (used : ℕ) : Prop where
  below : ∀ i ∈ I, start i + len i ≤ used
  apart : (I : Set ι).PairwiseDisjoint (span start len)

theorem packed_empty (start len : ι → ℕ) (used : ℕ) : Packed ∅ start len used :=
  ⟨fun i hi ↦ absurd hi (notMem_empty i), by simp⟩

/-- However the ranges lie, together they are not longer than the area in use. -/
theorem Packed.sum_le (h : Packed I start len used) : ∑ i ∈ I, len i ≤ used := by
  have hsub : I.biUnion (span start len) ⊆ range used := by
    intro x hx
    obtain ⟨i, hi, hx⟩ := mem_biUnion.mp hx
    exact mem_range.mpr ((mem_Ico.mp hx).2.trans_le (h.below i hi))
  calc ∑ i ∈ I, len i = ∑ i ∈ I, (span start len i).card :=
        sum_congr rfl fun i _ ↦ by rw [span, Nat.card_Ico, Nat.add_sub_cancel_left]
    _ = (I.biUnion (span start len)).card := (card_biUnion h.apart).symm
    _ ≤ used := (card_le_card hsub).trans_eq (card_range used)

theorem Packed.cut (h : Packed I start len used) {J : Finset κ} {start' len' : κ → ℕ} (f : κ → ι)
    (hmem : ∀ j ∈ J, f j ∈ I) (hf : Set.InjOn f J) (hstart : ∀ j ∈ J, start' j = start (f j))
    (hlen : ∀ j ∈ J, len' j ≤ len (f j)) : Packed J start' len' used := by
  have hspan (j : κ) (hj : j ∈ J) : span start' len' j ⊆ span start len (f j) := by
    rw [span, hstart j hj]
    exact Ico_subset_Ico le_rfl (Nat.add_le_add_left (hlen j hj) _)
  refine ⟨fun j hj ↦ ?_, fun j hj j' hj' hne ↦ ?_⟩
  · have hb := h.below (f j) (hmem j hj)
    have hl := hlen j hj
    rw [hstart j hj]
    omega
  · have hne' : f j ≠ f j' := fun heq ↦ hne (hf hj hj' heq)
    exact (h.apart (hmem j hj) (hmem j' hj') hne').mono (hspan j hj) (hspan j' hj')

theorem Packed.append [DecidableEq ι] (h : Packed I start len used) {a : ι} (ha : start a = used) :
    Packed (insert a I) start len (used + len a) := by
  refine ⟨fun i hi ↦ ?_, ?_⟩
  · rcases mem_insert.mp hi with rfl | hi
    · exact (congrArg (· + len i) ha).le
    · exact (h.below i hi).trans (Nat.le_add_right used _)
  · rw [coe_insert]
    refine h.apart.insert fun i hi _ ↦ disjoint_left.mpr fun x hx hx' ↦ ?_
    have hlow := (mem_Ico.mp hx).1
    have hhigh := (mem_Ico.mp hx').2
    have hb := h.below i hi
    omega

end Xxfs.Lib.Packing

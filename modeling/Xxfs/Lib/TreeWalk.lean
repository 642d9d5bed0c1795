import Mathlib.Data.List.Nodup
import Mathlib.Data.List.Pairwise
import Mathlib.Logic.Relation
import Mathlib.Tactic.Common

namespace Xxfs.Lib.TreeWalk

open Relation

variable {P : Type} {children : P → List P} {parent : P → P} {rank : P → ℕ}

/-- `q` is `p` or comes below it. -/
abbrev Below (children : P → List P) : P → P → Prop := ReflTransGen fun p q ↦ q ∈ children p

/-- A node, and then what is below each of its children. -/
def preorder (children : P → List P) : ℕ → P → List P
  | 0, _ => []
  | k + 1, p => p :: (children p).flatMap (preorder children k)

/-- Children that have one parent each and are deeper than it. -/
structure Ranked (children : P → List P) (parent : P → P) (rank : P → ℕ) : Prop where
  nodup : ∀ p, (children p).Nodup
  parent : ∀ p q, q ∈ children p → parent q = p
  deeper : ∀ p q, q ∈ children p → rank p < rank q

section walk

variable {p q c c' : P} {k : ℕ}

theorem below_of_mem (h : q ∈ preorder children k p) : Below children p q := by
  induction k generalizing p with
  | zero => cases h
  | succ k ih =>
    rw [preorder, List.mem_cons, List.mem_flatMap] at h
    rcases h with rfl | ⟨c, hc, hq⟩
    · exact .refl
    · exact .head hc (ih hq)

variable (h : Ranked children parent rank)
include h

theorem Ranked.le (hb : Below children p q) : rank p ≤ rank q := by
  induction hb with
  | refl => exact Nat.le_refl _
  | tail _ hc ih => exact Nat.le_trans ih (Nat.le_of_lt (h.deeper _ _ hc))

theorem Ranked.mem_preorder (hk : ∀ q, Below children p q → rank q < rank p + k) :
    q ∈ preorder children k p ↔ Below children p q := by
  refine ⟨below_of_mem, fun hb ↦ ?_⟩
  induction k generalizing p with
  | zero => exact absurd (hk p .refl) (Nat.lt_irrefl _)
  | succ k ih =>
    rw [preorder, List.mem_cons, List.mem_flatMap]
    rcases hb.cases_head with rfl | ⟨c, hc, hq⟩
    · exact .inl rfl
    · refine .inr ⟨c, hc, ih (fun x hx ↦ ?_) hq⟩
      have hlt := hk x (.head hc hx)
      have hdeep := h.deeper p c hc
      omega

theorem Ranked.comparable (hc : Below children c q) (hc' : Below children c' q) :
    Below children c c' ∨ Below children c' c := by
  have hunique : Relator.RightUnique (Function.swap fun p q ↦ q ∈ children p) := by
    intro x y z hy hz
    exact (h.parent y x hy).symm.trans (h.parent z x hz)
  rcases ReflTransGen.total_of_right_unique hunique hc.swap hc'.swap with hb | hb
  · exact .inr hb.swap
  · exact .inl hb.swap

theorem Ranked.eq_of_siblings (hc : c ∈ children p) (hc' : c' ∈ children p)
    (hb : Below children c c') : c = c' := by
  rcases hb.cases_tail with rfl | ⟨x, hx, hxc⟩
  · rfl
  · obtain rfl : x = p := (h.parent x c' hxc).symm.trans (h.parent p c' hc')
    have hle := h.le hx
    have hlt := h.deeper x c hc
    omega

theorem Ranked.preorder_nodup : (preorder children k p).Nodup := by
  induction k generalizing p with
  | zero => exact List.nodup_nil
  | succ k ih =>
    rw [preorder, List.nodup_cons, List.mem_flatMap, List.nodup_flatMap]
    refine ⟨?_, fun c _ ↦ ih, ?_⟩
    · rintro ⟨c, hc, hp⟩
      have hle := h.le (below_of_mem hp)
      have hlt := h.deeper p c hc
      omega
    · apply (h.nodup p).imp_of_mem
      intro c c' hc hc' hne q hq hq'
      rcases h.comparable (below_of_mem hq) (below_of_mem hq') with hb | hb
      · exact hne (h.eq_of_siblings hc hc' hb)
      · exact hne (h.eq_of_siblings hc' hc hb).symm

end walk

end Xxfs.Lib.TreeWalk

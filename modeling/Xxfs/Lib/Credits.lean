import Mathlib.Data.Nat.Basic
import Mathlib.Order.Monotone.Defs
import Xxfs.Lib.Computation

namespace Xxfs.Lib.Credits

open Xxfs.Lib.Computation Xxfs.Lib.Computation.Comp

variable {σ α β ι : Type}

/-- `A k s` says that the state `s` has `k` credits. From the one state to the other at most `k` of
them go. -/
def Draws (A : ℕ → σ → Prop) (k : ℕ) (s s' : σ) : Prop := ∀ j, A (k + j) s → A j s'

/-- With `k` credits the computation returns, and takes no more than these. -/
def Pays (A : ℕ → σ → Prop) (k : ℕ) (m : Comp σ α) (s : σ) : Prop :=
  A k s → ∃ a s', m s = some (a, s') ∧ Draws A k s s'

variable {A : ℕ → σ → Prop} {j k : ℕ} {s s₁ s₂ : σ} {m : Comp σ α} {f : α → Comp σ β}

section draws

theorem Draws.refl (A : ℕ → σ → Prop) (s : σ) : Draws A 0 s s :=
  fun j h ↦ by rwa [Nat.zero_add] at h

theorem Draws.trans (h : Draws A j s s₁) (h' : Draws A k s₁ s₂) : Draws A (j + k) s s₂ :=
  fun i hi ↦ h' i (h (k + i) (by rwa [← Nat.add_assoc]))

theorem Draws.left (h : Draws A k s s₁) (ha : A k s) : A 0 s₁ := h 0 ha

theorem Draws.le (hA : Antitone A) (h : Draws A j s s₁) (hjk : j ≤ k) : Draws A k s s₁ :=
  fun i hi ↦ h i (hA (Nat.add_le_add_right hjk i) s hi)

end draws

section pays

theorem Pays.of_eq {a : α} (h : m s = some (a, s₁)) (ht : Draws A k s s₁) : Pays A k m s :=
  fun _ ↦ ⟨a, s₁, h, ht⟩

theorem Pays.pure (a : α) : Pays A 0 (pure a : Comp σ α) s := .of_eq rfl (.refl A s)

theorem Pays.le (hA : Antitone A) (h : Pays A j m s) (hjk : j ≤ k) : Pays A k m s := by
  intro ha
  obtain ⟨a, s₁, hx, ht⟩ := h (hA hjk s ha)
  exact ⟨a, s₁, hx, ht.le hA hjk⟩

theorem Pays.bind (hA : Antitone A) (hm : Pays A j m s)
    (hf : ∀ a s₁, m s = some (a, s₁) → A k s₁ → Pays A k (f a) s₁) : Pays A (j + k) (m >>= f) s := by
  intro ha
  obtain ⟨a, s₁, hx, ht⟩ := hm (hA (Nat.le_add_right j k) s ha)
  have ha₁ := ht k ha
  obtain ⟨b, s₂, hx', ht'⟩ := hf a s₁ hx ha₁ ha₁
  exact ⟨b, s₂, by rw [bind_apply, hx]; exact hx', ht.trans ht'⟩

theorem Pays.andThen (hA : Antitone A) (hm : Pays A 0 m s)
    (hf : ∀ a s₁, m s = some (a, s₁) → A k s₁ → Pays A k (f a) s₁) : Pays A k (m >>= f) s := by
  intro ha
  obtain ⟨a, s₁, hx, ht⟩ := hm (hA (Nat.zero_le k) s ha)
  have ha₁ := ht k (by rwa [Nat.zero_add])
  obtain ⟨b, s₂, hx', ht'⟩ := hf a s₁ hx ha₁ ha₁
  refine ⟨b, s₂, by rw [bind_apply, hx]; exact hx', ?_⟩
  rw [← Nat.zero_add k]
  exact ht.trans ht'

theorem Pays.seq {a : α} (h : m s = some (a, s₁)) (ht : Draws A j s s₁)
    (hf : Pays A k (f a) s₁) : Pays A (j + k) (m >>= f) s := by
  intro ha
  obtain ⟨b, s₂, hx, ht'⟩ := hf (ht k ha)
  exact ⟨b, s₂, by rw [bind_apply, h]; exact hx, ht.trans ht'⟩

theorem Pays.after {a : α} (h : m s = some (a, s₁)) (ht : Draws A 0 s s₁)
    (hf : Pays A k (f a) s₁) : Pays A k (m >>= f) s := by
  rw [← Nat.zero_add k]
  exact .seq h ht hf

theorem Pays.map (h : Pays A k m s) (g : α → β) : Pays A k (g <$> m) s := by
  intro ha
  obtain ⟨a, s₁, hx, ht⟩ := h ha
  exact ⟨g a, s₁, by rw [map_apply, hx]; rfl, ht⟩

theorem Pays.forM {I : σ → Prop} {g : ι → Comp σ Unit} (hg : ∀ i s, I s → Pays A 0 (g i) s)
    (hI : ∀ i s s', I s → g i s = some ((), s') → A 0 s' → I s') (l : List ι) (h : I s) :
    Pays A 0 (l.forM g) s := by
  induction l generalizing s with
  | nil => exact .pure ()
  | cons i l ih =>
    intro ha
    obtain ⟨_, s₁, hx, ht⟩ := hg i s h ha
    obtain ⟨_, s₂, hx', ht'⟩ := ih (hI i s s₁ h hx (ht.left ha)) (ht.left ha)
    exact ⟨(), s₂, by rw [forM_cons_apply, hx]; exact hx', ht.trans ht'⟩

end pays

end Xxfs.Lib.Credits

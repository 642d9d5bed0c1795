import Mathlib.Data.Option.Basic

namespace Xxfs.Lib.Computation

/-- A computation on a state; `none` if it does not return. -/
def Comp (σ α : Type) := σ → Option (α × σ)

variable {σ α β : Type}

instance : Monad (Comp σ) where
  pure a := fun s ↦ some (a, s)
  bind m f := fun s ↦ (m s).bind fun p ↦ f p.1 p.2

namespace Comp

def get : Comp σ σ := fun s ↦ some (s, s)
def modify (f : σ → σ) : Comp σ Unit := fun s ↦ some ((), f s)
def diverge : Comp σ α := fun _ ↦ none

@[simp] theorem pure_apply (a : α) (s : σ) : (pure a : Comp σ α) s = some (a, s) := rfl

@[simp] theorem bind_apply (m : Comp σ α) (f : α → Comp σ β) (s : σ) :
    (m >>= f) s = (m s).bind fun p ↦ f p.1 p.2 := rfl

@[simp] theorem map_apply (f : α → β) (m : Comp σ α) (s : σ) :
    (f <$> m) s = (m s).map fun p ↦ (f p.1, p.2) := by
  change ((m s).bind fun p ↦ some (f p.1, p.2)) = _
  cases m s <;> rfl

@[simp] theorem get_apply (s : σ) : (get : Comp σ σ) s = some (s, s) := rfl

@[simp] theorem modify_apply (f : σ → σ) (s : σ) : modify f s = some ((), f s) := rfl

@[simp] theorem diverge_apply (s : σ) : (diverge : Comp σ α) s = none := rfl

@[simp] theorem if_apply (c : Prop) [Decidable c] (m m' : Comp σ α) (s : σ) :
    (if c then m else m') s = if c then m s else m' s := by split <;> rfl

theorem forM_cons_apply {ι : Type} (f : ι → Comp σ Unit) (i : ι) (l : List ι) (s : σ) :
    (i :: l).forM f s = (f i s).bind fun p ↦ l.forM f p.2 := rfl

theorem of_bind {m : Comp σ α} {f : α → Comp σ β} {s s' : σ} {b : β}
    (h : (m >>= f) s = some (b, s')) : ∃ a s₁, m s = some (a, s₁) ∧ f a s₁ = some (b, s') := by
  obtain ⟨⟨a, s₁⟩, h₁, h₂⟩ := Option.bind_eq_some_iff.mp h
  exact ⟨a, s₁, h₁, h₂⟩

/-- Whenever the computation returns, `R` relates the states before and after. -/
def Within (R : σ → σ → Prop) (m : Comp σ α) : Prop :=
  ∀ s a s', m s = some (a, s') → R s s'

section within

variable {R : σ → σ → Prop}

theorem Within.pure [Std.Refl R] (a : α) : Within R (pure a : Comp σ α) := by
  intro s b s' h
  obtain ⟨rfl, rfl⟩ := Prod.mk.inj (Option.some.inj h)
  exact refl_of R s

theorem Within.get [Std.Refl R] : Within R (get : Comp σ σ) := by
  intro s b s' h
  obtain ⟨rfl, rfl⟩ := Prod.mk.inj (Option.some.inj h)
  exact refl_of R s

theorem Within.diverge : Within R (diverge : Comp σ α) := by
  intro s a s' h
  cases h

theorem Within.modify {f : σ → σ} (hf : ∀ s, R s (f s)) : Within R (modify f) := by
  intro s a s' h
  obtain ⟨-, rfl⟩ := Prod.mk.inj (Option.some.inj h)
  exact hf s

theorem Within.bind [IsTrans σ R] {m : Comp σ α} {f : α → Comp σ β} (hm : Within R m)
    (hf : ∀ a, Within R (f a)) : Within R (m >>= f) := by
  intro s b s' h
  obtain ⟨a, s₁, h₁, h₂⟩ := of_bind h
  exact trans_of R (hm s a s₁ h₁) (hf a s₁ b s' h₂)

theorem Within.mono {R' : σ → σ → Prop} {m : Comp σ α} (hR : ∀ s s', R s s' → R' s s')
    (h : Within R m) : Within R' m :=
  fun s a s' hs ↦ hR s s' (h s a s' hs)

theorem Within.bind_get {f : σ → Comp σ β}
    (hf : ∀ s b s', f s s = some (b, s') → R s s') : Within R (Comp.get >>= f) := by
  intro s b s' h
  obtain ⟨a, s₁, h₁, h₂⟩ := of_bind h
  obtain ⟨rfl, rfl⟩ := Prod.mk.inj (Option.some.inj h₁)
  exact hf _ b s' h₂

theorem Within.ite {c : Prop} [Decidable c] {m m' : Comp σ α} (h : c → Within R m)
    (h' : ¬c → Within R m') : Within R (if c then m else m') := by
  split
  · exact h ‹_›
  · exact h' ‹_›

theorem Within.forM [Std.Refl R] [IsTrans σ R] {ι : Type} {f : ι → Comp σ Unit} (l : List ι)
    (hf : ∀ i, Within R (f i)) : Within R (l.forM f) := by
  induction l with
  | nil => exact Within.pure _
  | cons i l ih => exact Within.bind (hf i) fun _ ↦ ih

end within

/-- Whatever the computation returns satisfies `Q`. -/
def Yields (Q : α → Prop) (m : Comp σ α) : Prop := ∀ s a s', m s = some (a, s') → Q a

section yields

variable {P : α → Prop} {Q : β → Prop}

theorem Yields.pure {a : α} (h : P a) : Yields P (pure a : Comp σ α) := by
  intro s b s' hb
  obtain ⟨rfl, -⟩ := Prod.mk.inj (Option.some.inj hb)
  exact h

theorem Yields.diverge : Yields P (diverge : Comp σ α) := by
  intro s a s' h
  cases h

theorem Yields.bind {m : Comp σ α} {f : α → Comp σ β} (hm : Yields P m)
    (hf : ∀ a, P a → Yields Q (f a)) : Yields Q (m >>= f) := by
  intro s b s' h
  obtain ⟨a, s₁, h₁, h₂⟩ := of_bind h
  exact hf a (hm s a s₁ h₁) s₁ b s' h₂

theorem Yields.last {m : Comp σ α} {f : α → Comp σ β} (hf : ∀ a, Yields Q (f a)) :
    Yields Q (m >>= f) := by
  intro s b s' h
  obtain ⟨a, s₁, -, h₂⟩ := of_bind h
  exact hf a s₁ b s' h₂

theorem Yields.ite {c : Prop} [Decidable c] {m m' : Comp σ α} (h : Yields P m)
    (h' : Yields P m') : Yields P (if c then m else m') := by
  split
  · exact h
  · exact h'

end yields

def Total (m : Comp σ α) : Prop := ∀ s, ∃ a s', m s = some (a, s')

section total

theorem Total.pure (a : α) : Total (pure a : Comp σ α) := fun s ↦ ⟨a, s, rfl⟩

theorem Total.get : Total (get : Comp σ σ) := fun s ↦ ⟨s, s, rfl⟩

theorem Total.modify (f : σ → σ) : Total (modify f) := fun s ↦ ⟨(), f s, rfl⟩

theorem Total.bind {m : Comp σ α} {f : α → Comp σ β} (hm : Total m) (hf : ∀ a, Total (f a)) :
    Total (m >>= f) := by
  intro s
  obtain ⟨a, s₁, h₁⟩ := hm s
  obtain ⟨b, s₂, h₂⟩ := hf a s₁
  exact ⟨b, s₂, by rw [bind_apply, h₁]; exact h₂⟩

theorem Total.ite {c : Prop} [Decidable c] {m m' : Comp σ α} (h : Total m) (h' : Total m') :
    Total (if c then m else m') := by
  split
  · exact h
  · exact h'

end total

end Comp

end Xxfs.Lib.Computation

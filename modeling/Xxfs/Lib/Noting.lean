import Xxfs.Lib.Computation

namespace Xxfs.Lib.Computation

/-- A computation that notes events while it runs. -/
structure Noting (σ ε α : Type) where
  run : Comp σ (α × List ε)

variable {σ ε α β : Type}

instance : Monad (Noting σ ε) where
  pure a := ⟨fun s ↦ some ((a, []), s)⟩
  bind m f := ⟨fun s ↦ (m.run s).bind fun p ↦
    ((f p.1.1).run p.2).map fun q ↦ ((q.1.1, p.1.2 ++ q.1.2), q.2)⟩

namespace Noting

def note (e : ε) : Noting σ ε Unit := ⟨fun s ↦ some (((), [e]), s)⟩

/-- A computation that has nothing to note. -/
instance : MonadLift (Comp σ) (Noting σ ε) :=
  ⟨fun m ↦ ⟨fun s ↦ (m s).map fun p ↦ ((p.1, []), p.2)⟩⟩

def erase (m : Noting σ ε α) : Comp σ α := fun s ↦ (m.run s).map fun p ↦ (p.1.1, p.2)

section erase

variable (m : Noting σ ε α) (f : α → Noting σ ε β)

@[simp] theorem erase_pure (a : α) : erase (pure a : Noting σ ε α) = pure a := rfl

@[simp] theorem erase_lift (m : Comp σ α) : erase (liftM m : Noting σ ε α) = m := by
  funext s
  change ((m s).map _).map _ = m s
  rw [Option.map_map]
  exact Option.map_id_apply

@[simp] theorem erase_bind : erase (m >>= f) = erase m >>= fun a ↦ erase (f a) := by
  funext s
  change ((m.run s).bind _).map _ = ((m.run s).map _).bind _
  cases m.run s with
  | none => rfl
  | some p =>
    simp only [Option.bind_some, Option.map_some, Option.map_map, erase]
    rfl

theorem pure_then (a : α) (f : α → Comp σ β) : (pure a >>= f : Comp σ β) = f a := rfl

@[simp] theorem erase_note (e : ε) : erase (note e : Noting σ ε Unit) = pure () := rfl

theorem erase_note_bind (e : ε) (f : Unit → Noting σ ε β) :
    erase (note e >>= f) = erase (f ()) := by
  rw [erase_bind]
  rfl

@[simp] theorem erase_discard : erase (discard m) = discard (erase m) :=
  erase_bind m fun _ ↦ pure ()

@[simp] theorem erase_ite (c : Prop) [Decidable c] (m m' : Noting σ ε α) :
    erase (if c then m else m') = if c then erase m else erase m' := by
  split <;> rfl

variable {m : Noting σ ε α} {f : α → Noting σ ε β} {m' : Comp σ α} {f' : α → Comp σ β}

theorem erase_seq (hm : erase m = m') (hf : ∀ a, erase (f a) = f' a) :
    erase (m >>= f) = m' >>= f' := by
  rw [erase_bind, hm]
  exact congrArg _ (funext hf)

theorem erase_noted {f : α → Noting σ ε α} (hm : erase m = m')
    (hf : ∀ a, erase (f a) = (pure a : Comp σ α)) : erase (m >>= f) = m' := by
  rw [erase_bind, hm, funext hf]
  funext s
  rw [Comp.bind_apply]
  cases m' s <;> rfl

theorem erase_branch {c : Prop} [Decidable c] {m₁ m₂ : Noting σ ε α} {m₁' m₂' : Comp σ α}
    (h₁ : erase m₁ = m₁') (h₂ : erase m₂ = m₂') :
    erase (if c then m₁ else m₂) = if c then m₁' else m₂' := by
  rw [erase_ite, h₁, h₂]

end erase

section runs

variable {m : Noting σ ε α} {f : α → Noting σ ε β} {s s' : σ} {w : List ε}

theorem of_bind {b : β} (h : (m >>= f).run s = some ((b, w), s')) : ∃ a w₁ s₁ w₂,
    m.run s = some ((a, w₁), s₁) ∧ (f a).run s₁ = some ((b, w₂), s') ∧ w = w₁ ++ w₂ := by
  obtain ⟨⟨⟨a, w₁⟩, s₁⟩, h₁, hf⟩ := Option.bind_eq_some_iff.mp h
  obtain ⟨⟨⟨b', w₂⟩, s₂⟩, h₂, heq⟩ := Option.map_eq_some_iff.mp hf
  obtain ⟨hout, rfl⟩ := Prod.mk.inj heq
  obtain ⟨rfl, rfl⟩ := Prod.mk.inj hout
  exact ⟨a, w₁, s₁, w₂, h₁, h₂, rfl⟩

theorem of_pure {a b : α} (h : (pure a : Noting σ ε α).run s = some ((b, w), s')) :
    b = a ∧ w = [] ∧ s' = s := by
  obtain ⟨hout, rfl⟩ := Prod.mk.inj (Option.some.inj h)
  obtain ⟨rfl, rfl⟩ := Prod.mk.inj hout
  exact ⟨rfl, rfl, rfl⟩

theorem of_lift {m : Comp σ α} {a : α}
    (h : (liftM m : Noting σ ε α).run s = some ((a, w), s')) : m s = some (a, s') ∧ w = [] := by
  obtain ⟨⟨b, s₁⟩, hm, heq⟩ := Option.map_eq_some_iff.mp h
  obtain ⟨hout, rfl⟩ := Prod.mk.inj heq
  obtain ⟨rfl, rfl⟩ := Prod.mk.inj hout
  exact ⟨hm, rfl⟩

theorem of_note_bind {e : ε} {f : Unit → Noting σ ε β} {b : β}
    (h : (note e >>= f).run s = some ((b, w), s')) :
    ∃ w', (f ()).run s = some ((b, w'), s') ∧ w = e :: w' := by
  obtain ⟨_, _, _, w', h₁, h₂, rfl⟩ := of_bind h
  obtain ⟨hout, rfl⟩ := Prod.mk.inj (Option.some.inj h₁)
  obtain ⟨-, rfl⟩ := Prod.mk.inj hout
  exact ⟨w', h₂, rfl⟩

theorem exists_notes {a : α} (h : erase m s = some (a, s')) :
    ∃ w, m.run s = some ((a, w), s') := by
  obtain ⟨⟨⟨b, w⟩, s₁⟩, hm, heq⟩ := Option.map_eq_some_iff.mp h
  obtain ⟨rfl, rfl⟩ := Prod.mk.inj heq
  exact ⟨w, hm⟩

theorem of_notes {a : α} (h : m.run s = some ((a, w), s')) : erase m s = some (a, s') := by
  rw [erase, h]
  rfl

theorem run_lift {m : Comp σ α} {a : α} (h : m s = some (a, s')) :
    (liftM m : Noting σ ε α).run s = some ((a, []), s') := by
  change (m s).map _ = _
  rw [h]
  rfl

theorem run_bind {a : α} {s₁ : σ} {w' : List ε} {b : β} (h : m.run s = some ((a, w), s₁))
    (h' : (f a).run s₁ = some ((b, w'), s')) : (m >>= f).run s = some ((b, w ++ w'), s') := by
  change (m.run s).bind _ = _
  rw [h, Option.bind_some, h']
  rfl

end runs

end Noting

end Xxfs.Lib.Computation

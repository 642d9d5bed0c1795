import Xxfs.Lib.Noting

namespace Xxfs.Lib.Computation.Noting

variable {σ ε α β : Type}

/-- From `A`, which may speak of all that was noted so far, every run leads to `B`, provided that
what is noted by then is `F`. -/
def Triple (F : List ε → Prop) (A : List ε → σ → Prop) (m : Noting σ ε α)
    (B : α → List ε → σ → Prop) : Prop :=
  ∀ w s a w' s', F (w ++ w') → A w s → m.run s = some ((a, w'), s') → B a (w ++ w') s'

variable {F : List ε → Prop} {A A' : List ε → σ → Prop} {m : Noting σ ε α}
variable {B B' : α → List ε → σ → Prop}

theorem Triple.pure {a : α} (h : ∀ w s, F w → A w s → B a w s) : Triple F A (pure a) B := by
  intro w s b w' s' hF hA hrun
  obtain ⟨rfl, rfl, rfl⟩ := of_pure hrun
  rw [List.append_nil] at hF ⊢
  exact h w s' hF hA

theorem Triple.lift {m : Comp σ α} (h : ∀ w s a s', F w → A w s → m s = some (a, s') → B a w s') :
    Triple F A (liftM m) B := by
  intro w s a w' s' hF hA hrun
  obtain ⟨hm, rfl⟩ := of_lift hrun
  rw [List.append_nil] at hF ⊢
  exact h w s a s' hF hA hm

theorem Triple.note {e : ε} {B : Unit → List ε → σ → Prop}
    (h : ∀ w s, F (w ++ [e]) → A w s → B () (w ++ [e]) s) : Triple F A (note e) B := by
  intro w s a w' s' hF hA hrun
  obtain ⟨hout, rfl⟩ := Prod.mk.inj (Option.some.inj hrun)
  obtain ⟨-, rfl⟩ := Prod.mk.inj hout
  exact h w s hF hA

/-- The parts of a sequence, if what is noted by the end of the first one is `F` as well. -/
theorem Triple.bind (hF : ∀ w w', F (w ++ w') → F w) (hm : Triple F A m B) {f : α → Noting σ ε β}
    {C : β → List ε → σ → Prop} (hf : ∀ a, Triple F (B a) (f a) C) : Triple F A (m >>= f) C := by
  intro w s b w' s' hFw hA hrun
  obtain ⟨a, w₁, s₁, w₂, h₁, h₂, rfl⟩ := of_bind hrun
  rw [← List.append_assoc] at hFw ⊢
  exact hf a _ _ _ _ _ hFw (hm _ _ _ _ _ (hF _ _ hFw) hA h₁) h₂

theorem Triple.discard (hF : ∀ w w', F (w ++ w') → F w) {C : List ε → σ → Prop}
    (hm : Triple F A m fun _ ↦ C) : Triple F A (discard m) fun _ ↦ C :=
  Triple.bind hF hm fun _ ↦ .pure fun _ _ _ h ↦ h

theorem Triple.ite {c : Prop} [Decidable c] {m' : Noting σ ε α} (h : c → Triple F A m B)
    (h' : ¬c → Triple F A m' B) : Triple F A (if c then m else m') B := by
  split
  · exact h ‹_›
  · exact h' ‹_›

theorem Triple.mono (h : Triple F A m B) (hA : ∀ w s, A' w s → A w s)
    (hB : ∀ a w s, B a w s → B' a w s) : Triple F A' m B' :=
  fun w s _ _ _ hF ha hrun ↦ hB _ _ _ (h w s _ _ _ hF (hA w s ha) hrun)

theorem Triple.frame (h : Triple F A m B) {R : List ε → Prop} (hR : ∀ w w', R w → R (w ++ w')) :
    Triple F (fun w s ↦ A w s ∧ R w) m fun a w s ↦ B a w s ∧ R w :=
  fun w s _ w' _ hF ha hrun ↦ ⟨h w s _ _ _ hF ha.1 hrun, hR w w' ha.2⟩

theorem Triple.fix (h : ∀ w₀, Triple F (fun w s ↦ w = w₀ ∧ A w s) m B) : Triple F A m B :=
  fun w s a w' s' hF hA hrun ↦ h w w s a w' s' hF ⟨rfl, hA⟩ hrun

theorem Triple.given {p : Prop} (hp : ∀ w s, A' w s → p ∧ A w s) (h : p → Triple F A m B) :
    Triple F A' m B :=
  fun w s a w' s' hF ha hrun ↦ h (hp w s ha).1 w s a w' s' hF (hp w s ha).2 hrun

theorem Triple.diverge : Triple F A (liftM (Comp.diverge : Comp σ α) : Noting σ ε α) B :=
  Triple.lift fun _ _ _ _ _ _ h ↦ by cases h

end Xxfs.Lib.Computation.Noting

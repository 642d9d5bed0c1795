import Mathlib.Data.List.Basic

namespace Xxfs.Lib.Segments

variable {α β γ : Type}

theorem exists_segment (sep : α) (l : List α) :
    sep ∉ l ∨ ∃ c rest, sep ∉ c ∧ l = c ++ sep :: rest := by
  induction l with
  | nil => exact .inl List.not_mem_nil
  | cons a l ih =>
    have hcons {c : List α} (ha : ¬a = sep) (hc : sep ∉ c) : sep ∉ a :: c := by
      rw [List.mem_cons, not_or]
      exact ⟨Ne.symm ha, hc⟩
    by_cases ha : a = sep
    · exact .inr ⟨[], l, List.not_mem_nil, by rw [ha]; rfl⟩
    · rcases ih with hl | ⟨c, rest, hc, rfl⟩
      · exact .inl (hcons ha hl)
      · exact .inr ⟨a :: c, rest, hcons ha hc, rfl⟩

theorem segment_induction (sep : α) {P : List α → Prop} (hlast : ∀ c, sep ∉ c → P c)
    (hcons : ∀ c rest, sep ∉ c → P rest → P (c ++ sep :: rest)) (l : List α) : P l := by
  induction hn : l.length using Nat.strongRecOn generalizing l with
  | ind n ih =>
    rcases exists_segment sep l with hl | ⟨c, rest, hc, rfl⟩
    · exact hlast l hl
    · refine hcons c rest hc (ih rest.length ?_ rest rfl)
      rw [List.length_append, List.length_cons] at hn
      omega

variable [BEq α] [LawfulBEq α] {sep : α}

theorem not_mem_of_mem_splitOn {l d : List α} (h : d ∈ l.splitOn sep) : sep ∉ d := by
  induction l using segment_induction sep with
  | hlast c hc =>
    rw [List.splitOn_eq_singleton hc, List.mem_singleton] at h
    exact h ▸ hc
  | hcons c rest hc ih =>
    rw [List.splitOn_append_cons_self_of_not_mem hc, List.mem_cons] at h
    rcases h with rfl | h
    · exact hc
    · exact ih h

/-- A loop that reads a list from left to right: `start s` is its state before a segment,
`after s c` the one behind segment `c`, and the separator completes the step of the segment.
`I` holds between the segments. -/
structure Scans (sep : α) (I : γ → Prop) (loop : List α → β → β) (start : γ → β)
    (after : γ → List α → β) (step : γ → List α → γ) : Prop where
  keeps : ∀ s c, I s → sep ∉ c → I (step s c)
  segment : ∀ c rest s, I s → sep ∉ c → (rest = [] ∨ rest.head? = some sep) →
    loop (c ++ rest) (start s) = loop rest (after s c)
  separator : ∀ rest s c, I s → sep ∉ c →
    loop (sep :: rest) (after s c) = loop rest (start (step s c))

theorem Scans.run {I : γ → Prop} {loop : List α → β → β} {start : γ → β}
    {after : γ → List α → β} {step : γ → List α → γ} (h : Scans sep I loop start after step)
    (l : List α) {s : γ} (hs : I s) :
    ∃ init last, sep ∉ last ∧ I (init.foldl step s) ∧ l.splitOn sep = init ++ [last] ∧
      loop l (start s) = loop [] (after (init.foldl step s) last) := by
  induction l using segment_induction sep generalizing s with
  | hlast c hc =>
    have hseg := h.segment c [] s hs hc (.inl rfl)
    rw [List.append_nil] at hseg
    exact ⟨[], c, hc, hs, List.splitOn_eq_singleton hc, hseg⟩
  | hcons c rest hc ih =>
    obtain ⟨init, last, hlast, hI, hsplit, hloop⟩ := ih (h.keeps s c hs hc)
    refine ⟨c :: init, last, hlast, hI, ?_, ?_⟩
    · rw [List.splitOn_append_cons_self_of_not_mem hc, hsplit, List.cons_append]
    · rw [h.segment c _ s hs hc (.inr rfl), h.separator rest s c hs hc, hloop, List.foldl_cons]

end Xxfs.Lib.Segments

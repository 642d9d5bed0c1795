import Mathlib.Data.Finset.Card
import Mathlib.Data.Nat.Bitwise

namespace Xxfs.Lib.ProbeTable

variable {α : Type}

/-- Linear probing: the first slot from `idx` on, within `n` probes, that is empty or whose
entry satisfies `p`. -/
def probe (p : α → Bool) (slots : ℕ → Option α) (mask : ℕ) : ℕ → ℕ → Option ℕ
  | 0, _ => none
  | n + 1, idx =>
    match slots idx with
    | none => some idx
    | some e => if p e then some idx else probe p slots mask n ((idx + 1) &&& mask)

/-- The first used slot from `idx` on, within `n` probes. -/
def probeUsed (slots : ℕ → Option α) (mask : ℕ) : ℕ → ℕ → Option ℕ
  | 0, _ => none
  | n + 1, idx =>
    match slots idx with
    | some _ => some idx
    | none => probeUsed slots mask n ((idx + 1) &&& mask)

def store (slots : ℕ → Option α) (idx : ℕ) (e : Option α) : ℕ → Option α :=
  fun i ↦ if i = idx then e else slots i

/-- Puts an entry into the first empty slot from its home on; a full table drops it. -/
def place (home : α → ℕ) (cap : ℕ) (slots : ℕ → Option α) (e : α) : ℕ → Option α :=
  match probe (fun _ ↦ false) slots (cap - 1) cap (home e) with
  | some idx => store slots idx (some e)
  | none => slots

/-- Re-places the entries of the first `cap` slots, in slot order, in an empty table of
capacity `cap'`. -/
def rehash (home : α → ℕ) (cap cap' : ℕ) (slots : ℕ → Option α) : ℕ → Option α :=
  (List.range cap).foldl
    (fun acc i ↦ match slots i with
      | none => acc
      | some e => place home cap' acc e)
    (fun _ ↦ none)

theorem store_eq (slots : ℕ → Option α) (idx : ℕ) (e : Option α) : store slots idx e idx = e := by
  simp [store]

theorem store_ne {slots : ℕ → Option α} {idx i : ℕ} {e : Option α} (h : i ≠ idx) :
    store slots idx e i = slots i := by
  simp [store, h]

theorem of_store {slots : ℕ → Option α} {idx i : ℕ} {e : Option α} {x : α}
    (h : store slots idx e i = some x) : i = idx ∧ e = some x ∨ i ≠ idx ∧ slots i = some x := by
  by_cases hi : i = idx
  · subst hi
    exact .inl ⟨rfl, by rwa [store_eq] at h⟩
  · exact .inr ⟨hi, by rwa [store_ne hi] at h⟩

theorem of_place {home : α → ℕ} {cap i : ℕ} {slots : ℕ → Option α} {e x : α}
    (h : place home cap slots e i = some x) : x = e ∨ slots i = some x := by
  rw [place] at h
  cases hp : probe (fun _ ↦ false) slots (cap - 1) cap (home e) with
  | none =>
    rw [hp] at h
    exact .inr h
  | some idx =>
    rw [hp] at h
    rcases of_store h with ⟨-, h⟩ | ⟨-, h⟩
    · exact .inl (Option.some.inj h).symm
    · exact .inr h

theorem rehash_none {home : α → ℕ} {n cap' : ℕ} {slots : ℕ → Option α} (h : slots n = none) :
    rehash home (n + 1) cap' slots = rehash home n cap' slots := by
  rw [rehash, List.range_succ, List.foldl_append, List.foldl_cons, List.foldl_nil, h, rehash]

theorem rehash_some {home : α → ℕ} {n cap' : ℕ} {slots : ℕ → Option α} {e : α}
    (h : slots n = some e) :
    rehash home (n + 1) cap' slots = place home cap' (rehash home n cap' slots) e := by
  rw [rehash, List.range_succ, List.foldl_append, List.foldl_cons, List.foldl_nil, h, rehash]

theorem of_rehash {home : α → ℕ} {cap cap' i : ℕ} {slots : ℕ → Option α} {x : α}
    (h : rehash home cap cap' slots i = some x) : ∃ j < cap, slots j = some x := by
  induction cap generalizing i with
  | zero => cases h
  | succ n ih =>
    have hmem {i : ℕ} (h : rehash home n cap' slots i = some x) : ∃ j < n + 1, slots j = some x := by
      obtain ⟨j, hj, hs⟩ := ih h
      exact ⟨j, Nat.lt_succ_of_lt hj, hs⟩
    cases hn : slots n with
    | none =>
      rw [rehash_none hn] at h
      exact hmem h
    | some e =>
      rw [rehash_some hn] at h
      rcases of_place h with rfl | h
      · exact ⟨n, Nat.lt_succ_self n, hn⟩
      · exact hmem h

theorem probe_empty (p : α → Bool) {slots : ℕ → Option α} (mask n : ℕ) {idx : ℕ}
    (h : slots idx = none) : probe p slots mask (n + 1) idx = some idx := by
  rw [probe, h]

theorem probe_hit {p : α → Bool} {slots : ℕ → Option α} (mask n : ℕ) {idx : ℕ} {e : α}
    (h : slots idx = some e) (hp : p e = true) : probe p slots mask (n + 1) idx = some idx := by
  simp only [probe, h, hp, ↓reduceIte]

theorem probe_store {p : α → Bool} {slots : ℕ → Option α} {mask n idx i : ℕ} {e : α}
    (h : probe p slots mask n idx = some i) (hp : p e = true) :
    probe p (store slots i (some e)) mask n idx = some i := by
  induction n generalizing idx with
  | zero => cases h
  | succ n ih =>
    by_cases hi : idx = i
    · subst hi
      exact probe_hit mask n (store_eq _ _ _) hp
    · rw [probe] at h
      rw [probe, store_ne hi]
      cases hs : slots idx with
      | none =>
        rw [hs] at h
        exact (hi (Option.some.inj h)).elim
      | some x =>
        rw [hs] at h
        dsimp only at h ⊢
        split at h
        · exact (hi (Option.some.inj h)).elim
        · rename_i hx
          rw [if_neg hx]
          exact ih h

theorem of_probe {p : α → Bool} {slots : ℕ → Option α} {mask n idx i : ℕ}
    (h : probe p slots mask n idx = some i) :
    slots i = none ∨ ∃ e, slots i = some e ∧ p e = true := by
  induction n generalizing idx with
  | zero => cases h
  | succ n ih =>
    rw [probe] at h
    cases hs : slots idx with
    | none =>
      rw [hs] at h
      obtain rfl := Option.some.inj h
      exact .inl hs
    | some e =>
      simp only [hs] at h
      split at h
      · obtain rfl := Option.some.inj h
        exact .inr ⟨e, hs, ‹_›⟩
      · exact ih h

theorem place_free {home : α → ℕ} {cap : ℕ} {slots : ℕ → Option α} {e : α} (hc : 0 < cap)
    (h : slots (home e) = none) : place home cap slots e = store slots (home e) (some e) := by
  obtain ⟨n, rfl⟩ : ∃ n, cap = n + 1 := ⟨cap - 1, by omega⟩
  rw [place, probe_empty _ _ _ h]

/-- Entries with distinct homes all find their home free when the table is rehashed. -/
theorem rehash_iff {home : α → ℕ} {cap cap' : ℕ} {slots : ℕ → Option α} (hc : 0 < cap')
    (hinj : ∀ i j e e', slots i = some e → slots j = some e' → home e = home e' → i = j)
    {i : ℕ} {x : α} :
    rehash home cap cap' slots i = some x ↔ (∃ j < cap, slots j = some x) ∧ home x = i := by
  induction cap generalizing i x with
  | zero =>
    refine ⟨fun h ↦ (by cases h), ?_⟩
    rintro ⟨⟨j, hj, -⟩, -⟩
    exact (Nat.not_lt_zero j hj).elim
  | succ n ih =>
    cases hn : slots n with
    | none =>
      rw [rehash_none hn, ih]
      constructor
      · rintro ⟨⟨j, hj, hs⟩, hh⟩
        exact ⟨⟨j, by omega, hs⟩, hh⟩
      · rintro ⟨⟨j, hj, hs⟩, hh⟩
        refine ⟨⟨j, ?_, hs⟩, hh⟩
        have hne : j ≠ n := by
          rintro rfl
          rw [hn] at hs
          cases hs
        omega
    | some e =>
      rw [rehash_some hn, place_free hc]
      · constructor
        · intro h
          rcases of_store h with ⟨rfl, he⟩ | ⟨-, h⟩
          · obtain rfl := Option.some.inj he
            exact ⟨⟨n, by omega, hn⟩, rfl⟩
          · obtain ⟨⟨j, hj, hs⟩, hh⟩ := ih.mp h
            exact ⟨⟨j, by omega, hs⟩, hh⟩
        · rintro ⟨⟨j, hj, hs⟩, rfl⟩
          by_cases hjn : j = n
          · rw [hjn, hn] at hs
            obtain rfl := Option.some.inj hs
            exact store_eq _ _ _
          · have hne : home x ≠ home e := fun hh ↦ hjn (hinj j n x e hs hn hh)
            rw [store_ne hne]
            exact ih.mpr ⟨⟨j, by omega, hs⟩, rfl⟩
      · by_contra hno
        obtain ⟨y, hy⟩ := Option.ne_none_iff_exists'.mp hno
        obtain ⟨⟨j, hj, hs⟩, hh⟩ := ih.mp hy
        have := hinj j n y e hs hn hh
        omega

theorem probe_mono {p : α → Bool} {slots : ℕ → Option α} {mask n n' idx i : ℕ} (hn : n ≤ n')
    (h : probe p slots mask n idx = some i) : probe p slots mask n' idx = some i := by
  induction n generalizing idx n' with
  | zero => cases h
  | succ n ih =>
    obtain ⟨n', rfl⟩ : ∃ k, n' = k + 1 := ⟨n' - 1, by omega⟩
    rw [probe] at h ⊢
    cases hs : slots idx with
    | none => rwa [hs] at h
    | some e =>
      simp only [hs] at h ⊢
      split
      · rwa [if_pos ‹_›] at h
      · rw [if_neg ‹_›] at h
        exact ih (by omega) h

theorem probe_lt {p : α → Bool} {slots : ℕ → Option α} {cap n idx i : ℕ} (hidx : idx < cap)
    (h : probe p slots (cap - 1) n idx = some i) : i < cap := by
  induction n generalizing idx with
  | zero => cases h
  | succ n ih =>
    rw [probe] at h
    cases hs : slots idx with
    | none =>
      rw [hs] at h
      exact Option.some.inj h ▸ hidx
    | some e =>
      simp only [hs] at h
      split at h
      · exact Option.some.inj h ▸ hidx
      · refine ih ?_ h
        have : (idx + 1) &&& (cap - 1) ≤ cap - 1 := Nat.and_le_right
        omega

theorem of_probe_none {p : α → Bool} {slots : ℕ → Option α} {k n idx : ℕ} (hidx : idx < 2 ^ k)
    (h : probe p slots (2 ^ k - 1) n idx = none) {j : ℕ} (hj : j < n) :
    slots ((idx + j) % 2 ^ k) ≠ none := by
  induction n generalizing idx j with
  | zero => omega
  | succ n ih =>
    rw [probe] at h
    cases hs : slots idx with
    | none => simp [hs] at h
    | some e =>
      simp only [hs] at h
      split at h
      · cases h
      · cases j with
        | zero =>
          rw [Nat.add_zero, Nat.mod_eq_of_lt hidx, hs]
          exact Option.some_ne_none e
        | succ j =>
          rw [Nat.and_two_pow_sub_one_eq_mod] at h
          have := ih (Nat.mod_lt _ (Nat.two_pow_pos k)) h (Nat.lt_of_succ_lt_succ hj)
          rwa [Nat.mod_add_mod, Nat.add_right_comm, Nat.add_assoc] at this

theorem reach_mod {c idx f : ℕ} (hidx : idx < c) (hf : f < c) : (idx + (f + c - idx) % c) % c = f := by
  rw [Nat.add_mod_mod, show idx + (f + c - idx) = f + c by omega, Nat.add_mod_right,
    Nat.mod_eq_of_lt hf]

theorem probe_ends (p : α → Bool) {slots : ℕ → Option α} {k idx f : ℕ} (hidx : idx < 2 ^ k)
    (hf : f < 2 ^ k) (hfree : slots f = none) :
    ∃ i < 2 ^ k, probe p slots (2 ^ k - 1) (2 ^ k) idx = some i := by
  cases h : probe p slots (2 ^ k - 1) (2 ^ k) idx with
  | none =>
    have hused := of_probe_none hidx h (Nat.mod_lt (f + 2 ^ k - idx) (Nat.two_pow_pos k))
    rw [reach_mod hidx hf] at hused
    exact (hused hfree).elim
  | some i => exact ⟨i, probe_lt hidx h, rfl⟩

theorem probe_free {slots : ℕ → Option α} {k idx f : ℕ} (hidx : idx < 2 ^ k) (hf : f < 2 ^ k)
    (hfree : slots f = none) :
    ∃ i < 2 ^ k, probe (fun _ ↦ false) slots (2 ^ k - 1) (2 ^ k) idx = some i ∧ slots i = none := by
  obtain ⟨i, hi, h⟩ := probe_ends (fun _ ↦ false) hidx hf hfree
  refine ⟨i, hi, h, ?_⟩
  rcases of_probe h with hnone | ⟨e, -, he⟩
  · exact hnone
  · cases he

theorem of_probeUsed_none {slots : ℕ → Option α} {k n idx : ℕ} (hidx : idx < 2 ^ k)
    (h : probeUsed slots (2 ^ k - 1) n idx = none) {j : ℕ} (hj : j < n) :
    slots ((idx + j) % 2 ^ k) = none := by
  induction n generalizing idx j with
  | zero => omega
  | succ n ih =>
    rw [probeUsed] at h
    cases hs : slots idx with
    | some e => simp [hs] at h
    | none =>
      simp only [hs, Nat.and_two_pow_sub_one_eq_mod] at h
      cases j with
      | zero => rw [Nat.add_zero, Nat.mod_eq_of_lt hidx, hs]
      | succ j =>
        have hrest := ih (Nat.mod_lt _ (Nat.two_pow_pos k)) h (Nat.lt_of_succ_lt_succ hj)
        rwa [Nat.mod_add_mod, Nat.add_right_comm, Nat.add_assoc] at hrest

/-- A search for a used slot through a whole table finds one if there is one. -/
theorem probeUsed_ends {slots : ℕ → Option α} {k idx f : ℕ} {e : α} (hidx : idx < 2 ^ k)
    (hf : f < 2 ^ k) (he : slots f = some e) :
    ∃ i, probeUsed slots (2 ^ k - 1) (2 ^ k) idx = some i := by
  cases h : probeUsed slots (2 ^ k - 1) (2 ^ k) idx with
  | none =>
    have hnone := of_probeUsed_none hidx h (Nat.mod_lt (f + 2 ^ k - idx) (Nat.two_pow_pos k))
    rw [reach_mod hidx hf, he] at hnone
    cases hnone
  | some i => exact ⟨i, rfl⟩

def used (cap : ℕ) (slots : ℕ → Option α) : Finset ℕ :=
  (Finset.range cap).filter fun i ↦ (slots i).isSome

theorem mem_used {cap i : ℕ} {slots : ℕ → Option α} :
    i ∈ used cap slots ↔ i < cap ∧ (slots i).isSome := by
  rw [used, Finset.mem_filter, Finset.mem_range]

theorem card_used_store (cap : ℕ) (slots : ℕ → Option α) (idx : ℕ) (e : Option α) :
    (used cap (store slots idx e)).card ≤ (used cap slots).card + 1 := by
  refine (Finset.card_le_card (t := insert idx (used cap slots)) fun i hi ↦ ?_).trans
    (Finset.card_insert_le _ _)
  rw [mem_used] at hi
  by_cases hidx : i = idx
  · exact hidx ▸ Finset.mem_insert_self _ _
  · rw [store_ne hidx] at hi
    exact Finset.mem_insert_of_mem (mem_used.mpr hi)

theorem exists_free {cap : ℕ} {slots : ℕ → Option α} (h : (used cap slots).card < cap) :
    ∃ f < cap, slots f = none := by
  by_contra hno
  push Not at hno
  have hall : used cap slots = Finset.range cap := by
    refine Finset.filter_true_of_mem fun i hi ↦ ?_
    exact Option.isSome_iff_ne_none.mpr (hno i (Finset.mem_range.mp hi))
  rw [hall, Finset.card_range] at h
  exact lt_irrefl _ h

end Xxfs.Lib.ProbeTable

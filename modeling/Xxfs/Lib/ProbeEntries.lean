import Mathlib.Data.Multiset.Filter
import Mathlib.Data.Multiset.Range
import Xxfs.Lib.LinearProbe

namespace Xxfs.Lib.ProbeTable

variable {α : Type}

/-- The entries of the first `cap` slots, each as often as it is there. -/
def entries (cap : ℕ) (slots : ℕ → Option α) : Multiset α := (Multiset.range cap).filterMap slots

section entries

variable {cap i : ℕ} {slots slots' : ℕ → Option α} {e e' : α}

theorem entries_none (h : slots cap = none) : entries (cap + 1) slots = entries cap slots := by
  rw [entries, Multiset.range_succ, Multiset.filterMap_cons_none _ _ h, entries]

theorem entries_some (h : slots cap = some e) : entries (cap + 1) slots = e ::ₘ entries cap slots := by
  rw [entries, Multiset.range_succ, Multiset.filterMap_cons_some _ _ _ h, entries]

theorem entries_congr (h : ∀ i < cap, slots i = slots' i) : entries cap slots = entries cap slots' := by
  induction cap with
  | zero => rfl
  | succ n ih =>
    have hn := h n (Nat.lt_succ_self n)
    have hrest := ih fun i hi ↦ h i (Nat.lt_succ_of_lt hi)
    cases hs : slots n with
    | none => rw [entries_none hs, entries_none (hn ▸ hs), hrest]
    | some e => rw [entries_some hs, entries_some (hn ▸ hs), hrest]

theorem entries_clear (hi : i < cap) (h : slots i = some e) :
    entries cap slots = e ::ₘ entries cap (store slots i none) := by
  induction cap with
  | zero => exact absurd hi (Nat.not_lt_zero i)
  | succ n ih =>
    by_cases hin : i = n
    · subst hin
      rw [entries_some h, entries_none (store_eq slots i none)]
      exact congrArg _ (entries_congr fun j hj ↦ (store_ne hj.ne).symm)
    · have hlt : i < n := by omega
      have hn : store slots i none n = slots n := store_ne (Ne.symm hin)
      cases hs : slots n with
      | none => rw [entries_none hs, entries_none (hn.trans hs), ih hlt]
      | some x => rw [entries_some hs, entries_some (hn.trans hs), ih hlt, Multiset.cons_swap]

theorem store_store (slots : ℕ → Option α) (i : ℕ) (x y : Option α) :
    store (store slots i x) i y = store slots i y := by
  funext j
  by_cases hj : j = i
  · rw [hj, store_eq, store_eq]
  · rw [store_ne hj, store_ne hj, store_ne hj]

theorem entries_add (hi : i < cap) (h : slots i = none) :
    entries cap (store slots i (some e)) = e ::ₘ entries cap slots := by
  have hsame : store slots i none = slots := by
    funext j
    by_cases hj : j = i
    · rw [hj, store_eq, h]
    · rw [store_ne hj]
  rw [entries_clear hi (store_eq slots i (some e)), store_store, hsame]

theorem entries_replace (hi : i < cap) (h : slots i = some e) (e' : α) :
    e ::ₘ entries cap (store slots i (some e')) = e' ::ₘ entries cap slots := by
  rw [entries_clear hi h, entries_clear hi (store_eq slots i (some e')), store_store,
    Multiset.cons_swap]

theorem mem_entries : e ∈ entries cap slots ↔ ∃ i < cap, slots i = some e := by
  rw [entries, Multiset.mem_filterMap]
  simp only [Multiset.mem_range]

theorem card_entries (cap : ℕ) (slots : ℕ → Option α) :
    (entries cap slots).card = (used cap slots).card := by
  induction cap with
  | zero => rfl
  | succ n ih =>
    rw [used, Finset.range_add_one, Finset.filter_insert, ← used]
    cases hs : slots n with
    | none => rw [entries_none hs, ih, Option.isSome_none, if_neg Bool.false_ne_true]
    | some e =>
      have hnot : n ∉ used n slots := fun h ↦ lt_irrefl n (mem_used.mp h).1
      rw [entries_some hs, Multiset.card_cons, ih, Option.isSome_some, if_pos rfl,
        Finset.card_insert_of_notMem hnot]

end entries

section rehash

variable {home : α → ℕ} {c k : ℕ} {slots : ℕ → Option α}

/-- Rehashing to a table that is not smaller keeps every entry as often as it was there, and
leaves no gap before it. -/
theorem rehash_entries (slots : ℕ → Option α) (hc : c ≤ 2 ^ k) (hhome : ∀ e, home e < 2 ^ k) :
    entries (2 ^ k) (rehash home c (2 ^ k) slots) = entries c slots ∧
      NoGaps home (2 ^ k) (rehash home c (2 ^ k) slots) ∧
      ∀ i e, rehash home c (2 ^ k) slots i = some e → i < 2 ^ k := by
  induction c with
  | zero =>
    refine ⟨?_, fun i e h ↦ (by cases h), fun i e h ↦ by cases h⟩
    have hnone : entries (2 ^ k) (fun _ ↦ (none : Option α)) = 0 :=
      Multiset.eq_zero_of_forall_notMem fun e he ↦ by
        obtain ⟨i, -, hi⟩ := mem_entries.mp he
        cases hi
    exact hnone
  | succ n ih =>
    obtain ⟨hent, hgaps, hlt⟩ := ih (by omega)
    cases hs : slots n with
    | none =>
      rw [rehash_none hs, entries_none hs]
      exact ⟨hent, hgaps, hlt⟩
    | some e =>
      rw [rehash_some hs, entries_some hs]
      generalize rehash home n (2 ^ k) slots = old at *
      have hcard : (used (2 ^ k) old).card < 2 ^ k := by
        rw [← card_entries, hent, card_entries]
        calc (used n slots).card ≤ n := (Finset.card_filter_le _ _).trans (Finset.card_range n).le
          _ < 2 ^ k := hc
      obtain ⟨f, hf, hfree⟩ := exists_free hcard
      obtain ⟨i, hi, hprobe, hempty⟩ := probe_free (hhome e) hf hfree
      obtain ⟨-, -, -, hclose⟩ := (probe_eq_some_iff (hhome e) le_rfl).mp hprobe
      rw [place, hprobe]
      refine ⟨by rw [entries_add hi hempty, hent], hgaps.add hempty fun j hj hd hnone ↦ ?_,
        fun j x hx ↦ ?_⟩
      · exact hclose j hj hd (.inl hnone)
      · rcases of_store hx with ⟨rfl, -⟩ | ⟨-, hx⟩
        · exact hi
        · exact hlt j x hx

theorem rehash_mem (hc : c ≤ 2 ^ k) (hhome : ∀ e, home e < 2 ^ k) {j : ℕ} (hj : j < c) {x : α}
    (hx : slots j = some x) : ∃ i, rehash home c (2 ^ k) slots i = some x := by
  have hmem : x ∈ entries (2 ^ k) (rehash home c (2 ^ k) slots) := by
    rw [(rehash_entries slots hc hhome).1]
    exact mem_entries.mpr ⟨j, hj, hx⟩
  obtain ⟨i, -, hi⟩ := mem_entries.mp hmem
  exact ⟨i, hi⟩

end rehash

end Xxfs.Lib.ProbeTable

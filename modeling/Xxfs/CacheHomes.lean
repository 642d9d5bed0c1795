import Mathlib.Data.Finset.Card
import Xxfs.IndexState

namespace Xxfs.CacheMap

open Xxfs.DiskFormat Xxfs.Machine Xxfs.InodeCache Xxfs.Hash Xxfs.PathName Xxfs.Volume
open Xxfs.IndexState Xxfs.Lib.ProbeTable

/-- No two of the paths have the same home slot, in the smallest table. -/
def Apart (K : Path → Prop) : Prop :=
  ∀ p q, K p → K q → home icacheCapInit (xxh64 p) = home icacheCapInit (xxh64 q) → p = q

/-- Every entry is in the home slot of a path of `K`. -/
structure Homed (K : Path → Prop) (c : Icache) : Prop where
  cap : ∃ j, c.cap = icacheCapInit * 2 ^ j
  entry : ∀ i e, c.slots i = some e → i = home c.cap e.hash ∧ ∃ k, K k ∧ e.hash = xxh64 k
  count : c.count ≤ (used c.cap c.slots).card

section homes

theorem home_eq_mod {cap k : ℕ} (hc : cap = 2 ^ k) (h : UInt64) :
    home cap h = h.toNat % cap := by
  rw [home, hc, Nat.and_two_pow_sub_one_eq_mod]

theorem home_mod (j : ℕ) (h : UInt64) :
    home (icacheCapInit * 2 ^ j) h % icacheCapInit = home icacheCapInit h := by
  rw [home_eq_mod (cap_two_pow j), home_eq_mod (show icacheCapInit = 2 ^ 14 from rfl)]
  exact Nat.mod_mul_right_mod _ _ _

theorem home_inj {j : ℕ} {h h' : UInt64}
    (hh : home (icacheCapInit * 2 ^ j) h = home (icacheCapInit * 2 ^ j) h') :
    home icacheCapInit h = home icacheCapInit h' := by
  rw [← home_mod j, hh, home_mod]

theorem homed_init (K : Path → Prop) : Homed K icacheInit :=
  ⟨⟨0, rfl⟩, fun _ _ h ↦ (by cases h), Nat.zero_le _⟩

variable {K : Path → Prop} (hK : Apart K) {c d : Icache} (hc : Homed K c)

theorem Apart.distinct (hK : Apart K) : Distinct K := fun p q hp hq h ↦ hK p q hp hq (by rw [h])

theorem Homed.cap_pos (hc : Homed K c) : 0 < c.cap := by
  obtain ⟨j, hcap⟩ := hc.cap
  rw [hcap, cap_two_pow]
  exact Nat.two_pow_pos _

theorem Homed.lt_cap (hc : Homed K c) {i : ℕ} {e : IcacheEntry} (hi : c.slots i = some e) :
    i < c.cap := by
  rw [(hc.entry i e hi).1]
  exact home_lt hc.cap_pos _

include hK hc

theorem Homed.unique {i j : ℕ} {e e' : IcacheEntry} (hi : c.slots i = some e)
    (hj : c.slots j = some e')
    (hh : home icacheCapInit e.hash = home icacheCapInit e'.hash) : i = j := by
  obtain ⟨rfl, k, hk, hhash⟩ := hc.entry i e hi
  obtain ⟨rfl, k', hk', hhash'⟩ := hc.entry j e' hj
  rw [hhash, hhash'] at hh
  rw [hhash, hhash', hK k k' hk hk' hh]

/-- A path's own home slot is the first in which it is looked for, and no other is needed. -/
theorem Homed.slotFor {p : Path} (hp : K p) (n : ℕ) :
    slotFor c (n + 1) (xxh64 p) = some (home c.cap (xxh64 p)) := by
  rw [CacheMap.slotFor]
  cases hs : c.slots (home c.cap (xxh64 p)) with
  | none => exact probe_empty _ _ _ hs
  | some e =>
    refine probe_hit _ _ hs ?_
    obtain ⟨j, hcap⟩ := hc.cap
    obtain ⟨hi, k, hk, hhash⟩ := hc.entry _ e hs
    rw [hcap, hhash] at hi
    rw [hhash, hK k p hk hp (home_inj hi).symm]
    simp

theorem Homed.count_lt : c.count < icacheMaxEntries := by
  have hcard : (used c.cap c.slots).card ≤ (Finset.range icacheCapInit).card := by
    refine Finset.card_le_card_of_injOn (· % icacheCapInit) (fun i _ ↦ ?_) fun i hi i' hi' hmod ↦ ?_
    · exact Finset.mem_coe.mpr (Finset.mem_range.mpr (Nat.mod_lt _ (by decide)))
    · obtain ⟨j, hcap⟩ := hc.cap
      obtain ⟨e, he⟩ := Option.isSome_iff_exists.mp (mem_used.mp hi).2
      obtain ⟨e', he'⟩ := Option.isSome_iff_exists.mp (mem_used.mp hi').2
      refine hc.unique hK he he' ?_
      dsimp only at hmod
      rwa [(hc.entry i e he).1, (hc.entry i' e' he').1, hcap, home_mod, home_mod] at hmod
  have hmax : icacheCapInit < icacheMaxEntries := by decide
  rw [Finset.card_range] at hcard
  exact (hc.count.trans hcard).trans_lt hmax

omit hK in
theorem Homed.touch {i : ℕ} {e : IcacheEntry} (hi : c.slots i = some e) (dirty : Bool) (n : Inode) :
    Homed K (touched c i e dirty n) := by
  refine ⟨hc.cap, fun j x hx ↦ ?_, hc.count.trans (Finset.card_le_card fun j hj ↦ ?_)⟩
  · rcases of_store hx with ⟨rfl, hnew⟩ | ⟨-, hx⟩
    · obtain rfl := Option.some.inj hnew
      exact hc.entry j e hi
    · exact hc.entry j x hx
  · rw [mem_used] at hj ⊢
    refine ⟨hj.1, ?_⟩
    change (store c.slots i _ j).isSome
    by_cases hji : j = i
    · rw [hji, store_eq]
      rfl
    · rw [store_ne hji]
      exact hj.2

theorem Homed.add {p : Path} (hp : K p) {i : ℕ} (hs : CacheMap.slotFor c 16 (xxh64 p) = some i)
    (hi : c.slots i = none) (n : Inode) : Homed K (added c i p n) := by
  obtain rfl := Option.some.inj ((hc.slotFor hK hp 15).symm.trans hs)
  refine ⟨hc.cap, fun j x hx ↦ ?_, ?_⟩
  · rcases of_store hx with ⟨rfl, hnew⟩ | ⟨-, hx⟩
    · obtain rfl := Option.some.inj hnew
      exact ⟨rfl, p, hp, rfl⟩
    · exact hc.entry j x hx
  · have hnot : home c.cap (xxh64 p) ∉ used c.cap c.slots := fun h ↦ by
      have := (mem_used.mp h).2
      rw [hi] at this
      cases this
    have hins : insert (home c.cap (xxh64 p)) (used c.cap c.slots) ⊆
        used c.cap (store c.slots (home c.cap (xxh64 p)) (some ⟨xxh64 p, true, some p, n⟩)) := by
      intro j hj
      rw [mem_used]
      rcases Finset.mem_insert.mp hj with rfl | hj
      · exact ⟨home_lt hc.cap_pos _, by rw [store_eq]; rfl⟩
      · have hne : j ≠ home c.cap (xxh64 p) := fun h ↦ hnot (h ▸ hj)
        rw [store_ne hne]
        exact mem_used.mp hj
    have hcard := Finset.card_le_card hins
    rw [Finset.card_insert_of_notMem hnot] at hcard
    exact (Nat.add_le_add_right hc.count 1).trans hcard

theorem Homed.grow : Homed K (growTable c) := by
  obtain ⟨j, hcap⟩ := hc.cap
  have hcap' : c.cap * 2 = icacheCapInit * 2 ^ (j + 1) := by rw [hcap, pow_succ, Nat.mul_assoc]
  have hpos := hc.cap_pos
  have hiff (i : ℕ) (x : IcacheEntry) : (growTable c).slots i = some x ↔
      (∃ i' < c.cap, c.slots i' = some x) ∧ home (c.cap * 2) x.hash = i := by
    refine rehash_iff (by omega) fun i i' e e' he he' hh ↦ hc.unique hK he he' ?_
    rw [hcap'] at hh
    exact home_inj hh
  refine ⟨⟨j + 1, hcap'⟩, fun i x hx ↦ ?_, hc.count.trans ?_⟩
  · obtain ⟨⟨i', -, hx'⟩, hh⟩ := (hiff i x).mp hx
    exact ⟨hh.symm, (hc.entry i' x hx').2⟩
  -- an entry goes from its old home to its new one
  · refine Finset.card_le_card_of_injOn
      (fun i ↦ ((c.slots i).map fun e ↦ home (c.cap * 2) e.hash).getD 0) (fun i hi ↦ ?_)
      fun i hi i' hi' heq ↦ ?_
    · obtain ⟨e, he⟩ := Option.isSome_iff_exists.mp (mem_used.mp hi).2
      refine mem_used.mpr ?_
      dsimp only
      rw [he, Option.map_some, Option.getD_some, (hiff _ e).mpr ⟨⟨i, hc.lt_cap he, he⟩, rfl⟩]
      exact ⟨home_lt (by omega) _, rfl⟩
    · obtain ⟨e, he⟩ := Option.isSome_iff_exists.mp (mem_used.mp hi).2
      obtain ⟨e', he'⟩ := Option.isSome_iff_exists.mp (mem_used.mp hi').2
      simp only [he, he', Option.map_some, Option.getD_some, hcap'] at heq
      exact hc.unique hK he he' (home_inj heq)

theorem Homed.filled (h : Filled K c d) : Homed K d := by
  induction h with
  | refl => exact hc
  | grow _ _ ih => exact ih.grow hK
  | touch dirty n _ hs ih => exact ih.touch hs dirty n
  | add n _ hp hs hi ih => exact ih.add hK hp hs hi n

theorem Homed.found : Found c := by
  intro i e hi
  obtain ⟨rfl, k, hk, hhash⟩ := hc.entry i e hi
  rw [hhash] at hi ⊢
  rw [icacheLookup_eq, hc.slotFor hK hk 15, Option.filter_some_pos]
  rw [hi]
  rfl

theorem Homed.roomy : Roomy K c :=
  ⟨fun _ h ↦ (hc.filled hK h).count_lt hK, fun _ h ↦ (hc.filled hK h).found hK,
    fun _ _ h hp ↦ by rw [(hc.filled hK h).slotFor hK hp 15]; rfl⟩

omit hK in
theorem Homed.drop (p : Path) : Homed K (dropped c p) := by
  rw [dropped]
  cases hl : icacheLookup c (xxh64 p) with
  | none => exact hc
  | some i =>
    obtain ⟨-, e, hi, -⟩ := of_lookup hl
    refine ⟨hc.cap, fun j x hx ↦ ?_, ?_⟩
    · rcases of_store hx with ⟨-, hnone⟩ | ⟨-, hx⟩
      · cases hnone
      · exact hc.entry j x hx
    · have hmem : i ∈ used c.cap c.slots := mem_used.mpr ⟨hc.lt_cap hi, by rw [hi]; rfl⟩
      have hsub : (used c.cap c.slots).erase i ⊆ used c.cap (store c.slots i none) := fun j hj ↦ by
        obtain ⟨hne, hj⟩ := Finset.mem_erase.mp hj
        rw [mem_used, store_ne hne]
        exact mem_used.mp hj
      have hcard := Finset.card_le_card hsub
      rw [Finset.card_erase_of_mem hmem] at hcard
      exact (Nat.sub_le_sub_right hc.count 1).trans hcard

theorem Homed.frees {p : Path} (hp : K p) : Frees K c p := fun d hd ↦
  ((hc.filled hK (hd.mono fun q hq ↦ by rw [hq]; exact hp)).drop p).roomy hK

end homes

theorem Apart.names {K : Path → Prop} (hK : Apart K) (hnorm : ∀ p, K p → pathNormalize p = p)
    (hshort : ∀ p, K p → p.length ≤ 3528) (hroot : K rootPath)
    (hparent : ∀ p, K p → K (getParentPath p)) : Names K := by
  refine ⟨fun p hp ↦ ?_, hK.distinct, (homed_init K).roomy hK, hshort, hroot, hparent⟩
  have hmax : maxPath = 4096 := rfl
  have := hshort p hp
  rw [← hnorm p hp]
  refine pathNormalize_clean ?_
  rw [hnorm p hp]
  omega

theorem names_list {l : List Path}
    (h : (∀ p ∈ l, ∀ q ∈ l, home icacheCapInit (xxh64 p) = home icacheCapInit (xxh64 q) → p = q) ∧
      (∀ p ∈ l, pathNormalize p = p) ∧ (∀ p ∈ l, p.length ≤ 3528) ∧ rootPath ∈ l ∧ ∀ p ∈ l, getParentPath p ∈ l) : Names (· ∈ l) :=
  Apart.names (fun p q hp hq ↦ h.1 p hp q hq) h.2.1 h.2.2.1 h.2.2.2.1 h.2.2.2.2

end Xxfs.CacheMap

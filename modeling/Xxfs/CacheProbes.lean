import Xxfs.CacheMap
import Xxfs.Frames
import Xxfs.Volume

namespace Xxfs.CacheProbes

open Xxfs.DiskFormat Xxfs.Machine Xxfs.PagedIndex Xxfs.Frames Xxfs.Volume Xxfs.InodeCache
open Xxfs.CacheMap Xxfs.Lib.ProbeTable
open Xxfs.Lib.Computation Xxfs.Lib.Computation.Comp

/-- How far slot `i` lies behind the home slot of a hash. -/
def behind (c : Icache) (hash : UInt64) (i : ℕ) : ℕ := dist c.cap (home c.cap hash) i

/-- The cache is a table of linear probing. -/
structure Probed (c : Icache) : Prop where
  cap : ∃ j, c.cap = icacheCapInit * 2 ^ j
  table : Probing IcacheEntry.hash (home c.cap) c.cap c.slots

/-- What the loop of `icache_put` makes of a table that has been given room. -/
def placed (c : Icache) (hash : UInt64) (key : Option Path) (n : Inode) : Icache :=
  (slotFor c c.cap hash).elim c fun i ↦
    (c.slots i).elim
      { c with slots := store c.slots i (some ⟨hash, true, key, n⟩), count := c.count + 1 }
      fun e ↦ touched c i e true n

/-- The tables that `icache_put` may look for a slot in. -/
inductive Roomed (c : Icache) : Icache → Prop
  | same : Roomed c c
  | grown : Roomed c (growTable c)
  | evicted {i : ℕ} : c.count ≥ icacheMaxEntries →
    probeUsed c.slots (c.cap - 1) c.cap (c.tick &&& (c.cap - 1)) = some i →
    Roomed c (icacheDrop c i)

section table

variable {c : Icache} {hash : UInt64} {i : ℕ} {e : IcacheEntry}

theorem slotFor_iff {k : ℕ} (hk : c.cap = 2 ^ k) {n : ℕ} (hn : n ≤ c.cap) :
    slotFor c n hash = some i ↔ i < c.cap ∧ behind c hash i < n ∧
      Stops (fun e ↦ e.hash == hash) c.slots i ∧ ∀ j < c.cap, behind c hash j < behind c hash i →
        ¬Stops (fun e ↦ e.hash == hash) c.slots j := by
  have hh : home c.cap hash < c.cap := home_lt (by rw [hk]; exact Nat.two_pow_pos k) hash
  simp only [slotFor, behind]
  rw [hk] at hn hh ⊢
  exact probe_eq_some_iff hh hn

/-- In a table with an empty slot the search of `icache_put` ends. -/
theorem slotFor_some {k : ℕ} (hk : c.cap = 2 ^ k) (hfree : (used c.cap c.slots).card < c.cap)
    (hash : UInt64) : ∃ i < c.cap, slotFor c c.cap hash = some i := by
  obtain ⟨f, hf, hnone⟩ := exists_free hfree
  have hh : home c.cap hash < c.cap := home_lt (by rw [hk]; exact Nat.two_pow_pos k) hash
  simp only [slotFor]
  rw [hk] at hf hh ⊢
  exact probe_ends (fun e ↦ e.hash == hash) hh hf hnone

theorem of_slotFor {n : ℕ} (hs : slotFor c n hash = some i) :
    c.slots i = none ∨ ∃ e, c.slots i = some e ∧ e.hash = hash := by
  rcases of_probe hs with hnone | ⟨e, he, hh⟩
  · exact .inl hnone
  · exact .inr ⟨e, he, beq_iff_eq.mp hh⟩

/-- The larger table has the entries of the old one, each with no gap before it. -/
theorem growTable_entries {k : ℕ} (hk : c.cap = 2 ^ k) :
    entries (growTable c).cap (growTable c).slots = entries c.cap c.slots ∧
      NoGaps (fun e ↦ home (growTable c).cap e.hash) (growTable c).cap (growTable c).slots ∧
      ∀ i e, (growTable c).slots i = some e → i < (growTable c).cap := by
  have hcap : c.cap * 2 = 2 ^ (k + 1) := by rw [hk, pow_succ]
  have hhome (e : IcacheEntry) : home (2 ^ (k + 1)) e.hash < 2 ^ (k + 1) :=
    home_lt (Nat.two_pow_pos _) e.hash
  have hrehash := rehash_entries c.slots (c := c.cap)
    (show c.cap ≤ 2 ^ (k + 1) by omega) hhome
  rw [← hcap] at hrehash
  exact hrehash

theorem icacheInode_eq {e : IcacheEntry} (hl : icacheLookup c hash = some i)
    (hi : c.slots i = some e) : icacheInode c hash = some e.inode := by
  rw [icacheInode, hl, Option.bind_some, hi]
  rfl

theorem probed_init : Probed icacheInit := ⟨⟨0, rfl⟩, .empty _ _ _⟩

namespace Probed

variable (hc : Probed c)
include hc

theorem pow : ∃ k, c.cap = 2 ^ k := by
  obtain ⟨j, hj⟩ := hc.cap
  exact ⟨14 + j, by rw [hj, cap_two_pow]⟩

theorem le_cap : 16 ≤ c.cap := by
  obtain ⟨j, hj⟩ := hc.cap
  have := Nat.one_le_two_pow (n := j)
  rw [hj, icacheCapInit]
  omega

theorem home_lt (hash : UInt64) : home c.cap hash < c.cap :=
  CacheMap.home_lt (by have := hc.le_cap; omega) hash

theorem lookup_iff (hi : c.slots i = some e) :
    icacheLookup c e.hash = some i ↔ behind c e.hash i < 16 := by
  obtain ⟨k, hk⟩ := hc.pow
  have hiff := @Probing.probe_iff _ _ _ _ k _ _ 16 _ _ (hk ▸ hc.table)
    (fun x ↦ hk ▸ hc.home_lt x) (hk ▸ hc.le_cap) hi
  rw [← hk] at hiff
  rw [icacheLookup_eq, Option.filter_eq_some_iff, behind, ← hiff, hi]
  exact and_iff_left rfl

theorem unique {j : ℕ} {e' : IcacheEntry} (hi : c.slots i = some e) (hj : c.slots j = some e')
    (hh : e.hash = e'.hash) : i = j :=
  hc.table.uniq i j e e' hi hj hh

theorem drop (hclear : ∀ j e, c.slots j = some e → ¬behind c e.hash i < behind c e.hash j) :
    Probed (icacheDrop c i) := by
  obtain ⟨k, hk⟩ := hc.pow
  refine ⟨hc.cap, ?_⟩
  change Probing _ (home c.cap) c.cap (store c.slots i none)
  have htable := hc.table
  rw [hk] at htable ⊢
  exact htable.drop fun j e hj ↦ by
    have := hclear j e hj
    rwa [behind, behind, hk] at this

theorem grow : Probed (growTable c) := by
  obtain ⟨j, hj⟩ := hc.cap
  have hcap : c.cap * 2 = 2 ^ (14 + j + 1) := by rw [hj, cap_two_pow, pow_succ]
  refine ⟨⟨j + 1, ?_⟩, ?_⟩
  · exact hcap.trans (cap_two_pow (j + 1)).symm
  · change Probing _ (home (c.cap * 2)) (c.cap * 2) (rehash _ c.cap (c.cap * 2) c.slots)
    rw [hcap]
    refine probing_rehash (fun x ↦ ?_) fun _ _ _ _ ↦ hc.table.uniq _ _ _ _
    exact CacheMap.home_lt (Nat.two_pow_pos _) x

theorem placed (hash : UInt64) (key : Option Path) (n : Inode) :
    Probed (placed c hash key n) := by
  obtain ⟨k, hk⟩ := hc.pow
  rw [CacheProbes.placed]
  cases hs : slotFor c c.cap hash with
  | none => exact hc
  | some i =>
    have hput (e : IcacheEntry) (he : e.hash = hash) :
        Probing IcacheEntry.hash (home c.cap) c.cap (store c.slots i (some e)) := by
      have htable := hc.table
      have hhome := hc.home_lt
      rw [slotFor] at hs
      rw [hk] at htable hhome hs ⊢
      refine htable.put hhome le_rfl ?_
      rw [he]
      exact hs
    rw [Option.elim_some]
    cases hi : c.slots i with
    | none => exact ⟨hc.cap, hput _ rfl⟩
    | some e =>
      refine ⟨hc.cap, hput _ ?_⟩
      rcases of_slotFor hs with hnone | ⟨x, hx, hh⟩
      · rw [hi] at hnone
        cases hnone
      · obtain rfl := Option.some.inj (hi.symm.trans hx)
        exact hh

end Probed

end table

section calls

variable {env : Env} {fs fs' : Fs} {hash : UInt64} {key : Path} {n : Inode}

theorem osAlloc_eq (env : Env) (fs : Fs) :
    osAlloc env fs = some (env.mem fs.clock, { fs with clock := fs.clock + 1 }) := rfl

theorem osTime_eq (env : Env) (fs : Fs) :
    osTime env fs = some (env.time fs.clock, { fs with clock := fs.clock + 1 }) := rfl

/-- The loop of `icache_put`, with whatever memory the key gets. -/
theorem icachePlace_placed {u : Unit} (h : icachePlace env hash key n fs = some (u, fs')) :
    ∃ key', (env.mem fs.clock = true → key' = some key) ∧
      fs'.icache = placed fs.icache hash key' n := by
  simp only [icachePlace, bind_apply, get_apply, Option.bind_some] at h
  rw [← slotFor] at h
  cases hs : slotFor fs.icache fs.icache.cap hash with
  | none =>
    simp only [hs, pure_apply] at h
    obtain ⟨-, rfl⟩ := Prod.mk.inj (Option.some.inj h)
    exact ⟨some key, fun _ ↦ rfl, by rw [placed, hs]; rfl⟩
  | some i =>
    simp only [hs] at h
    cases hi : fs.icache.slots i with
    | none =>
      simp only [hi, bind_apply, osAlloc_eq, Option.bind_some, modify_apply] at h
      obtain ⟨-, rfl⟩ := Prod.mk.inj (Option.some.inj h)
      refine ⟨if env.mem fs.clock = true then some key else none, fun hm ↦ if_pos hm, ?_⟩
      rw [placed, hs, Option.elim_some, hi]
      rfl
    | some e =>
      simp only [hi, modify_apply] at h
      obtain ⟨-, rfl⟩ := Prod.mk.inj (Option.some.inj h)
      exact ⟨some key, fun _ ↦ rfl, by rw [placed, hs, Option.elim_some, hi]; rfl⟩

theorem icachePlace_returns (env : Env) (hash : UInt64) (key : Path) (n : Inode) (fs : Fs) :
    ∃ fs', icachePlace env hash key n fs = some ((), fs') := by
  simp only [icachePlace, bind_apply, get_apply, Option.bind_some]
  cases probe (fun e ↦ e.hash == hash) fs.icache.slots (fs.icache.cap - 1) fs.icache.cap
      (home fs.icache.cap hash) with
  | none => exact ⟨_, rfl⟩
  | some i =>
    dsimp only
    cases fs.icache.slots i with
    | none => exact ⟨_, rfl⟩
    | some e => exact ⟨_, rfl⟩

/-- The eviction empties the first used slot from the tick on, if there is one. -/
theorem icacheEvictOne_icache {u : Unit} (h : icacheEvictOne env fs = some (u, fs')) :
    fs'.icache = (probeUsed fs.icache.slots (fs.icache.cap - 1) fs.icache.cap
      (fs.icache.tick &&& (fs.icache.cap - 1))).elim fs.icache (icacheDrop fs.icache) := by
  simp only [icacheEvictOne, bind_apply, get_apply, Option.bind_some] at h
  cases hp : probeUsed fs.icache.slots (fs.icache.cap - 1) fs.icache.cap
      (fs.icache.tick &&& (fs.icache.cap - 1)) with
  | none =>
    simp only [hp, pure_apply] at h
    obtain ⟨-, rfl⟩ := Prod.mk.inj (Option.some.inj h)
    rfl
  | some i =>
    simp only [hp] at h
    obtain ⟨e, hi⟩ := of_probeUsed hp
    simp only [hi, if_apply] at h
    split at h
    · obtain ⟨now, fs₁, h₁, h⟩ := of_bind h
      obtain ⟨v, fs₂, h₂, h⟩ := of_bind h
      obtain ⟨-, rfl⟩ := Prod.mk.inj (Option.some.inj h)
      have hput : Within (IndexOnly fun _ ↦ True)
          (putEntry env e.key (writebackInode e.inode now)) := by
        cases e.key with
        | none => exact .diverge
        | some key => exact pagedPut_indexOnly env key trivial
      have hkept : fs₂.icache = fs.icache :=
        (discard_indexOnly hput _ _ _ h₂).icache.trans
          (osTime_indexOnly (P := fun _ ↦ True) env _ _ _ h₁).icache
      change icacheDrop fs₂.icache i = _
      rw [hkept]
      rfl
    · obtain ⟨-, rfl⟩ := Prod.mk.inj (Option.some.inj h)
      rfl

theorem icachePut_placed {u : Unit} (h : icachePut env hash key n fs = some (u, fs')) :
    ∃ c key', Roomed fs.icache c ∧ fs'.icache = placed c hash key' n := by
  obtain ⟨v, fs₁, h₁, h₂⟩ := of_bind h
  obtain ⟨key', -, hplaced⟩ := icachePlace_placed h₂
  refine ⟨fs₁.icache, key', ?_, hplaced⟩
  simp only [icacheRoom, bind_apply, get_apply, Option.bind_some, if_apply] at h₁
  split at h₁
  · rename_i hfull
    rw [icacheEvictOne_icache h₁]
    cases hp : probeUsed fs.icache.slots (fs.icache.cap - 1) fs.icache.cap
        (fs.icache.tick &&& (fs.icache.cap - 1)) with
    | none => exact .same
    | some i => exact .evicted hfull hp
  · split at h₁
    · simp only [icacheGrow, bind_apply, osAlloc_eq, Option.bind_some, if_apply] at h₁
      split at h₁
      · obtain ⟨-, rfl⟩ := Prod.mk.inj (Option.some.inj h₁)
        exact .grown
      · obtain ⟨-, rfl⟩ := Prod.mk.inj (Option.some.inj h₁)
        exact .same
    · obtain ⟨-, rfl⟩ := Prod.mk.inj (Option.some.inj h₁)
      exact .same

theorem icacheDel_icache {u : Unit} (h : icacheDel hash fs = some (u, fs')) :
    fs'.icache = (icacheLookup fs.icache hash).elim fs.icache (icacheDrop fs.icache) := by
  simp only [icacheDel, bind_apply, get_apply, Option.bind_some] at h
  cases hl : icacheLookup fs.icache hash with
  | none =>
    simp only [hl, pure_apply] at h
    obtain ⟨-, rfl⟩ := Prod.mk.inj (Option.some.inj h)
    rfl
  | some i =>
    simp only [hl, modify_apply] at h
    obtain ⟨-, rfl⟩ := Prod.mk.inj (Option.some.inj h)
    rfl

end calls

end Xxfs.CacheProbes

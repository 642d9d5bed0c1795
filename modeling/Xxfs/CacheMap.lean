import Mathlib.Logic.Function.Basic
import Xxfs.Healthy
import Xxfs.InodeCache
import Xxfs.Lib.ProbeEntries

namespace Xxfs.CacheMap

open Function
open Xxfs.DiskFormat Xxfs.Machine Xxfs.InodeCache Xxfs.Hash Xxfs.Lib.ProbeTable
open Xxfs.Lib.Computation Xxfs.Lib.Computation.Comp

def Distinct (K : Path → Prop) : Prop := ∀ p q, K p → K q → xxh64 p = xxh64 q → p = q

/-- None of the paths has the hash of `p`, unless it is `p`. -/
def Untwinned (K : Path → Prop) (p : Path) : Prop := ∀ k, K k → xxh64 k = xxh64 p → k = p

theorem Distinct.untwinned {K : Path → Prop} (hK : Distinct K) {p : Path} (hp : K p) :
    Untwinned K p := fun k hk ↦ hK k p hk hp

/-- The slot with the hash, or else the first empty one, among `n` slots from its home on. -/
def slotFor (c : Icache) (n : ℕ) (hash : UInt64) : Option ℕ :=
  probe (fun e ↦ e.hash == hash) c.slots (c.cap - 1) n (home c.cap hash)

section tables

def touched (c : Icache) (i : ℕ) (e : IcacheEntry) (dirty : Bool) (n : Inode) : Icache :=
  { c with slots := store c.slots i (some { e with dirty := dirty, inode := n }) }

def added (c : Icache) (i : ℕ) (p : Path) (n : Inode) : Icache :=
  { c with slots := store c.slots i (some ⟨xxh64 p, true, some p, n⟩), count := c.count + 1 }

def dropped (c : Icache) (p : Path) : Icache :=
  match icacheLookup c (xxh64 p) with
  | none => c
  | some i => icacheDrop c i

/-- The tables that `icache_put` makes of a table under paths of `K`. -/
inductive Filled (K : Path → Prop) (c : Icache) : Icache → Prop
  | refl : Filled K c c
  | grow {d : Icache} : Filled K c d → d.cap ≤ d.count * 2 → Filled K c (growTable d)
  | touch {d : Icache} {i : ℕ} {e : IcacheEntry} (dirty : Bool) (n : Inode) : Filled K c d →
    d.slots i = some e → Filled K c (touched d i e dirty n)
  | add {d : Icache} {i : ℕ} {p : Path} (n : Inode) : Filled K c d → K p →
    slotFor d 16 (xxh64 p) = some i → d.slots i = none → Filled K c (added d i p n)

def Found (c : Icache) : Prop := ∀ i e, c.slots i = some e → icacheLookup c e.hash = some i

/-- However the cache fills up with paths of `K`, it evicts nothing, it finds all it has, and
each path has a slot among the 16 that `icache_lookup` tries. -/
structure Roomy (K : Path → Prop) (c : Icache) : Prop where
  below : ∀ d, Filled K c d → d.count < icacheMaxEntries
  found : ∀ d, Filled K c d → Found d
  reaches : ∀ d p, Filled K c d → K p → (slotFor d 16 (xxh64 p)).isSome

/-- The entry of a path can go, also after it has been put anew: none that stays was moved past
its slot. -/
def Frees (K : Path → Prop) (c : Icache) (p : Path) : Prop :=
  ∀ d, Filled (· = p) c d → Roomy K (dropped d p)

variable {K K' : Path → Prop} {c d e : Icache} {p : Path}

theorem Filled.trans (h : Filled K c d) (h' : Filled K d e) : Filled K c e := by
  induction h' with
  | refl => exact h
  | grow _ hc ih => exact .grow ih hc
  | touch dirty n _ hs ih => exact .touch dirty n ih hs
  | add n _ hp hs hn ih => exact .add n ih hp hs hn

theorem Filled.mono (hK : ∀ p, K p → K' p) (h : Filled K c d) : Filled K' c d := by
  induction h with
  | refl => exact .refl
  | grow _ hc ih => exact .grow ih hc
  | touch dirty n _ hs ih => exact .touch dirty n ih hs
  | add n _ hp hs hn ih => exact .add n ih (hK _ hp) hs hn

theorem Roomy.filled (h : Roomy K c) (hf : Filled K c d) : Roomy K d :=
  ⟨fun _ h' ↦ h.below _ (hf.trans h'), fun _ h' ↦ h.found _ (hf.trans h'),
    fun _ q h' hq ↦ h.reaches _ q (hf.trans h') hq⟩

theorem Frees.filled (h : Frees K c p) (hf : Filled (· = p) c d) : Frees K d p :=
  fun _ h' ↦ h _ (hf.trans h')

end tables

/-- The cache holds inodes of paths of `K`, each under its path. -/
structure Settled (K : Path → Prop) (c : Icache) : Prop where
  cap : ∃ j, c.cap = icacheCapInit * 2 ^ j
  entry : ∀ i e, c.slots i = some e → ∃ k, K k ∧ e.key = some k ∧ e.hash = xxh64 k
  roomy : Roomy K c

/-- What the cache holds under the hash of a path. -/
def entryAt (c : Icache) (p : Path) : Option IcacheEntry :=
  (icacheLookup c (xxh64 p)).bind c.slots

/-- The inode the cache holds under a path, and whether it is dirty. -/
def cell (c : Icache) (p : Path) : Option (Inode × Bool) :=
  ((entryAt c p).filter fun e ↦ e.key = some p).map fun e ↦ (e.inode, e.dirty)

def cached (c : Icache) (p : Path) : Option Inode := (cell c p).map Prod.fst

section lookup

variable {c : Icache} {hash : UInt64} {i : ℕ}

theorem cap_two_pow (j : ℕ) : icacheCapInit * 2 ^ j = 2 ^ (14 + j) := by
  rw [pow_add, icacheCapInit, show 2 ^ 14 = 16384 from rfl]

theorem home_lt {cap : ℕ} (hc : 0 < cap) (hash : UInt64) : home cap hash < cap := by
  have : hash.toNat &&& (cap - 1) ≤ cap - 1 := Nat.and_le_right
  rw [home]
  omega

theorem icacheLookup_eq (c : Icache) (hash : UInt64) :
    icacheLookup c hash = (slotFor c 16 hash).filter fun i ↦ (c.slots i).isSome := by
  have htest : (fun e : IcacheEntry ↦ icacheCtrl e.hash == icacheCtrl hash && e.hash == hash) =
      fun e ↦ e.hash == hash := by
    funext e
    by_cases he : e.hash = hash <;> simp [he]
  rw [icacheLookup, htest, ← slotFor]
  cases slotFor c 16 hash with
  | none => rfl
  | some i => rfl

theorem of_lookup (h : icacheLookup c hash = some i) :
    slotFor c 16 hash = some i ∧ ∃ e, c.slots i = some e ∧ e.hash = hash := by
  rw [icacheLookup_eq] at h
  obtain ⟨hs, hi⟩ := Option.filter_eq_some_iff.mp h
  refine ⟨hs, ?_⟩
  rcases of_probe hs with hn | ⟨e, he, hh⟩
  · simp [hn] at hi
  · exact ⟨e, he, by simpa using hh⟩

theorem lookup_none_of_empty (h : slotFor c 16 hash = some i) (hi : c.slots i = none) :
    icacheLookup c hash = none := by
  rw [icacheLookup_eq, h]
  simp [hi]

end lookup

section settled

variable {K : Path → Prop} {c d : Icache} (hc : Settled K c)
include hc

theorem Settled.found : Found c := hc.roomy.found c .refl

theorem Settled.unique {i j : ℕ} {e e' : IcacheEntry} (hi : c.slots i = some e)
    (hj : c.slots j = some e') (hh : e.hash = e'.hash) : i = j := by
  have h₁ := hc.found i e hi
  rw [hh, hc.found j e' hj] at h₁
  exact (Option.some.inj h₁).symm

theorem Settled.cap_pos : 0 < c.cap := by
  obtain ⟨j, hcap⟩ := hc.cap
  rw [hcap, cap_two_pow]
  exact Nat.two_pow_pos _

theorem Settled.cap_le : 16 ≤ c.cap := by
  obtain ⟨j, hcap⟩ := hc.cap
  have := Nat.one_le_two_pow (n := j)
  rw [hcap, icacheCapInit]
  omega

theorem Settled.lt_cap {i : ℕ} {e : IcacheEntry} (hi : c.slots i = some e) : i < c.cap :=
  probe_lt (home_lt hc.cap_pos _) (of_lookup (hc.found i e hi)).1

theorem Settled.hash_eq {i : ℕ} {e : IcacheEntry} (hi : c.slots i = some e) {p : Path}
    (hkey : e.key = some p) : K p ∧ e.hash = xxh64 p := by
  obtain ⟨k, hk, hkey', hhash⟩ := hc.entry i e hi
  obtain rfl := Option.some.inj (hkey'.symm.trans hkey)
  exact ⟨hk, hhash⟩

theorem Settled.cell_iff {p : Path} {x : Inode × Bool} : cell c p = some x ↔
    ∃ i e, c.slots i = some e ∧ e.key = some p ∧ (e.inode, e.dirty) = x := by
  constructor
  · intro h
    obtain ⟨e, he, hx⟩ := Option.map_eq_some_iff.mp h
    obtain ⟨hent, hkey⟩ := Option.filter_eq_some_iff.mp he
    obtain ⟨i, -, hi⟩ := Option.bind_eq_some_iff.mp hent
    exact ⟨i, e, hi, by simpa using hkey, hx⟩
  · rintro ⟨i, e, hi, hkey, hx⟩
    have hfound := hc.found i e hi
    rw [(hc.hash_eq hi hkey).2] at hfound
    rw [cell, entryAt, hfound, Option.bind_some, hi, Option.filter_some_pos (by simpa using hkey),
      Option.map_some, hx]

theorem Settled.own {p : Path} (hp : Untwinned K p) {i : ℕ} {e : IcacheEntry}
    (hi : c.slots i = some e) (hh : e.hash = xxh64 p) : e.key = some p := by
  obtain ⟨k, hk, hkey, hhash⟩ := hc.entry i e hi
  rw [hkey, hp k hk (hhash.symm.trans hh)]

theorem Settled.lookup {p : Path} (hp : Untwinned K p) :
    (∃ i e, icacheLookup c (xxh64 p) = some i ∧ c.slots i = some e ∧ e.key = some p ∧
      cell c p = some (e.inode, e.dirty)) ∨
    icacheLookup c (xxh64 p) = none ∧ cell c p = none := by
  cases h : icacheLookup c (xxh64 p) with
  | none =>
    refine .inr ⟨rfl, ?_⟩
    rw [cell, entryAt, h]
    rfl
  | some i =>
    obtain ⟨-, e, hi, hh⟩ := of_lookup h
    have hkey := hc.own hp hi hh
    exact .inl ⟨i, e, rfl, hi, hkey, hc.cell_iff.mpr ⟨i, e, hi, hkey, rfl⟩⟩

theorem Settled.icacheInode {p : Path} (hp : Untwinned K p) :
    icacheInode c (xxh64 p) = cached c p := by
  rw [InodeCache.icacheInode, cached]
  rcases hc.lookup hp with ⟨i, e, hl, hi, -, hcell⟩ | ⟨hl, hcell⟩
  · rw [hl, hcell, Option.bind_some, hi]
    rfl
  · rw [hl, hcell]
    rfl

theorem Settled.cell_update (hd : Settled K d) {p : Path} {x : Option (Inode × Bool)}
    (hp : ∀ y, (∃ i e, d.slots i = some e ∧ e.key = some p ∧ (e.inode, e.dirty) = y) ↔ x = some y)
    (hother : ∀ e : IcacheEntry, e.key ≠ some p →
      ((∃ i, d.slots i = some e) ↔ ∃ i, c.slots i = some e)) : cell d = update (cell c) p x := by
  funext q
  refine Option.ext fun y ↦ ?_
  by_cases hq : q = p
  · rw [hq, update_self, hd.cell_iff, hp]
  · rw [update_of_ne hq, hd.cell_iff, hc.cell_iff]
    have hne {e : IcacheEntry} (hkey : e.key = some q) : e.key ≠ some p := fun h ↦
      hq (Option.some.inj (hkey.symm.trans h))
    constructor
    · rintro ⟨i, e, hi, hkey, hy⟩
      obtain ⟨j, hj⟩ := (hother e (hne hkey)).mp ⟨i, hi⟩
      exact ⟨j, e, hj, hkey, hy⟩
    · rintro ⟨i, e, hi, hkey, hy⟩
      obtain ⟨j, hj⟩ := (hother e (hne hkey)).mpr ⟨i, hi⟩
      exact ⟨j, e, hj, hkey, hy⟩

theorem Settled.touch {p : Path} {i : ℕ} {e : IcacheEntry} (hi : c.slots i = some e)
    (hkey : e.key = some p) (dirty : Bool) (n : Inode) : Settled K (touched c i e dirty n) ∧
      cell (touched c i e dirty n) = update (cell c) p (some (n, dirty)) := by
  have hslot : (touched c i e dirty n).slots i = some { e with dirty := dirty, inode := n } :=
    store_eq _ _ _
  have hs : Settled K (touched c i e dirty n) := by
    refine ⟨hc.cap, fun j x hx ↦ ?_, hc.roomy.filled (.touch dirty n .refl hi)⟩
    rcases of_store hx with ⟨-, hx⟩ | ⟨-, hx⟩
    · obtain rfl := Option.some.inj hx
      exact hc.entry i e hi
    · exact hc.entry j x hx
  refine ⟨hs, hc.cell_update hs (fun y ↦ ⟨?_, ?_⟩) fun x hx ↦ ⟨?_, ?_⟩⟩
  · rintro ⟨j, x, hj, hxkey, rfl⟩
    obtain rfl := hs.unique hslot hj ((hs.hash_eq hslot hkey).2.trans (hs.hash_eq hj hxkey).2.symm)
    obtain rfl := Option.some.inj (hslot.symm.trans hj)
    rfl
  · rintro ⟨⟩
    exact ⟨i, _, hslot, hkey, rfl⟩
  · rintro ⟨j, hj⟩
    rcases of_store hj with ⟨-, he⟩ | ⟨-, hj⟩
    · obtain rfl := Option.some.inj he
      exact (hx hkey).elim
    · exact ⟨j, hj⟩
  · rintro ⟨j, hj⟩
    refine ⟨j, (store_ne ?_).trans hj⟩
    rintro rfl
    obtain rfl := Option.some.inj (hi.symm.trans hj)
    exact hx hkey

theorem Settled.add {p : Path} (hp : K p) {i : ℕ} (hslot : slotFor c 16 (xxh64 p) = some i)
    (hi : c.slots i = none) (n : Inode) : Settled K (added c i p n) ∧
      cell (added c i p n) = update (cell c) p (some (n, true)) := by
  have hnew : (added c i p n).slots i = some ⟨xxh64 p, true, some p, n⟩ := store_eq _ _ _
  have hs : Settled K (added c i p n) := by
    refine ⟨hc.cap, fun j x hx ↦ ?_, hc.roomy.filled (.add n .refl hp hslot hi)⟩
    rcases of_store hx with ⟨-, hx⟩ | ⟨-, hx⟩
    · obtain rfl := Option.some.inj hx
      exact ⟨p, hp, rfl, rfl⟩
    · exact hc.entry j x hx
  refine ⟨hs, hc.cell_update hs (fun y ↦ ⟨?_, ?_⟩) fun x hx ↦ ⟨?_, ?_⟩⟩
  · rintro ⟨j, x, hj, hxkey, rfl⟩
    obtain rfl := hs.unique hnew hj (hs.hash_eq hj hxkey).2.symm
    obtain rfl := Option.some.inj (hnew.symm.trans hj)
    rfl
  · rintro ⟨⟩
    exact ⟨i, _, hnew, rfl, rfl⟩
  · rintro ⟨j, hj⟩
    rcases of_store hj with ⟨-, he⟩ | ⟨-, hj⟩
    · obtain rfl := Option.some.inj he
      exact (hx rfl).elim
    · exact ⟨j, hj⟩
  · rintro ⟨j, hj⟩
    refine ⟨j, (store_ne ?_).trans hj⟩
    rintro rfl
    rw [hi] at hj
    cases hj

theorem Settled.drop {p : Path} {i : ℕ} {e : IcacheEntry} (hi : c.slots i = some e)
    (hkey : e.key = some p) (hroom : Roomy K (icacheDrop c i)) : Settled K (icacheDrop c i) ∧
      cell (icacheDrop c i) = update (cell c) p none := by
  have hother {j : ℕ} {x : IcacheEntry} (hj : (icacheDrop c i).slots j = some x) :
      j ≠ i ∧ c.slots j = some x := by
    rcases of_store hj with ⟨-, he⟩ | ⟨hne, hj⟩
    · cases he
    · exact ⟨hne, hj⟩
  have hs : Settled K (icacheDrop c i) :=
    ⟨hc.cap, fun j x hx ↦ hc.entry j x (hother hx).2, hroom⟩
  refine ⟨hs, hc.cell_update hs (fun y ↦ ⟨?_, fun h ↦ by cases h⟩) fun x hx ↦ ⟨?_, ?_⟩⟩
  · rintro ⟨j, x, hj, hxkey, -⟩
    obtain ⟨hne, hj⟩ := hother hj
    exact (hne (hc.unique hj hi ((hc.hash_eq hj hxkey).2.trans (hc.hash_eq hi hkey).2.symm))).elim
  · rintro ⟨j, hj⟩
    exact ⟨j, (hother hj).2⟩
  · rintro ⟨j, hj⟩
    refine ⟨j, (store_ne ?_).trans hj⟩
    rintro rfl
    obtain rfl := Option.some.inj (hi.symm.trans hj)
    exact hx hkey

theorem Settled.grow (hfull : c.cap ≤ c.count * 2) :
    Settled K (growTable c) ∧ cell (growTable c) = cell c := by
  obtain ⟨j, hj⟩ := hc.cap
  have hcap : c.cap * 2 = 2 ^ (14 + j + 1) := by rw [hj, cap_two_pow, pow_succ]
  have hs : Settled K (growTable c) := by
    refine ⟨⟨j + 1, ?_⟩, fun i x hx ↦ ?_, hc.roomy.filled (.grow .refl hfull)⟩
    · exact hcap.trans (cap_two_pow (j + 1)).symm
    · obtain ⟨i', -, hx'⟩ := of_rehash hx
      exact hc.entry i' x hx'
  refine ⟨hs, funext fun q ↦ Option.ext fun y ↦ ?_⟩
  rw [hs.cell_iff, hc.cell_iff]
  constructor
  · rintro ⟨i, e, hi, hkey, hy⟩
    obtain ⟨i', -, hi'⟩ := of_rehash hi
    exact ⟨i', e, hi', hkey, hy⟩
  · rintro ⟨i, e, hi, hkey, hy⟩
    have hpos := hc.cap_pos
    have hhome (x : IcacheEntry) : home (c.cap * 2) x.hash < 2 ^ (14 + j + 1) := by
      rw [← hcap]
      exact home_lt (by omega) _
    obtain ⟨i', hi'⟩ := rehash_mem (by omega) hhome (hc.lt_cap hi) hi
    rw [← hcap] at hi'
    exact ⟨i', e, hi', hkey, hy⟩

end settled

section operations

variable {env : Env} (he : Healthy env) {K : Path → Prop} (hK : Distinct K) {fs : Fs}
  (hc : Settled K fs.icache) {p : Path} (hp : K p)
include hc

include he in
theorem icacheRoom_apply : ∃ c t, icacheRoom env fs = some ((), { fs with icache := c, clock := t }) ∧
    Settled K c ∧ cell c = cell fs.icache ∧ Filled (fun _ ↦ False) fs.icache c := by
  have hlt : ¬fs.icache.count ≥ icacheMaxEntries := Nat.not_le.mpr (hc.roomy.below _ .refl)
  simp only [icacheRoom, bind_apply, get_apply, Option.bind_some, if_apply, hlt, ↓reduceIte]
  split
  · rename_i hfull
    obtain ⟨hs, hsame⟩ := hc.grow hfull
    refine ⟨growTable fs.icache, fs.clock + 1, ?_, hs, hsame, .grow .refl hfull⟩
    simp only [icacheGrow, bind_apply, he.osAlloc_apply, Option.bind_some, ↓reduceIte, modify_apply]
  · exact ⟨fs.icache, fs.clock, rfl, hc, rfl, .refl⟩

include hK hp

include he in
/-- `icache_put` under a path of `K` sets that path's inode and no other. -/
theorem icachePut_apply (n : Inode) : ∃ c t,
    icachePut env (xxh64 p) p n fs = some ((), { fs with icache := c, clock := t }) ∧
    Settled K c ∧ cell c = update (cell fs.icache) p (some (n, true)) ∧
    Filled (· = p) fs.icache c := by
  obtain ⟨c, t, hroom, hs, hsame, hfill⟩ := icacheRoom_apply he hc
  replace hfill : Filled (· = p) fs.icache c := hfill.mono fun _ h ↦ h.elim
  rw [icachePut, bind_apply, hroom, Option.bind_some, ← hsame]
  obtain ⟨i, hslot⟩ := Option.isSome_iff_exists.mp (hs.roomy.reaches c p .refl hp)
  have hprobe := probe_mono hs.cap_le hslot
  cases hi : c.slots i with
  | none =>
    obtain ⟨hs', hcell⟩ := hs.add hp hslot hi n
    refine ⟨added c i p n, t + 1, ?_, hs', hcell, .add n hfill rfl hslot hi⟩
    simp only [icachePlace, bind_apply, get_apply, Option.bind_some, hprobe, hi,
      he.osAlloc_apply, ↓reduceIte, modify_apply]
    rfl
  | some e =>
    have hhash : e.hash = xxh64 p := by
      rcases of_probe hslot with hn | ⟨x, hx, hh⟩
      · rw [hi] at hn
        cases hn
      · obtain rfl := Option.some.inj (hi.symm.trans hx)
        simpa using hh
    obtain ⟨hs', hcell⟩ := hs.touch hi (hs.own (hK.untwinned hp) hi hhash) true n
    refine ⟨touched c i e true n, t, ?_, hs', hcell, .touch true n hfill hi⟩
    simp only [icachePlace, bind_apply, get_apply, Option.bind_some, hprobe, hi, modify_apply]
    rfl

theorem icacheDel_apply (hroom : Roomy K (dropped fs.icache p)) :
    ∃ c, icacheDel (xxh64 p) fs = some ((), { fs with icache := c }) ∧
      Settled K c ∧ cell c = update (cell fs.icache) p none := by
  rcases hc.lookup (hK.untwinned hp) with ⟨i, e, hl, hi, hkey, -⟩ | ⟨hl, hcell⟩
  · rw [dropped, hl] at hroom
    refine ⟨icacheDrop fs.icache i, ?_, hc.drop hi hkey hroom⟩
    simp only [icacheDel, bind_apply, get_apply, Option.bind_some, hl, modify_apply]
  · refine ⟨fs.icache, ?_, hc, (update_eq_self_iff.mpr hcell.symm).symm⟩
    simp only [icacheDel, bind_apply, get_apply, Option.bind_some, hl, pure_apply]

end operations

end Xxfs.CacheMap

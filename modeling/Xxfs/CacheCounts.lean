import Xxfs.CachePuts

namespace Xxfs.CacheCounts

open Xxfs.DiskFormat Xxfs.Machine Xxfs.PagedIndex Xxfs.InodeCache Xxfs.CacheMap Xxfs.CacheProbes
open Xxfs.Frames Xxfs.Lib.ProbeTable Xxfs.Lib.Computation Xxfs.Lib.Computation.Comp

/-- A call that changes the cache. -/
inductive Call
  | put (hash : UInt64) (key : Path) (n : Inode)
  | del (hash : UInt64)
  | evict

def Call.run (env : Env) : Call → FsM Unit
  | .put hash key n => icachePut env hash key n
  | .del hash => icacheDel hash
  | .evict => icacheEvictOne env

/-- The states that such calls lead to from an empty cache, whatever else happens to the mount. -/
inductive Reached (env : Env) : Fs → Prop
  | init {fs : Fs} : fs.icache = icacheInit → Reached env fs
  | call {fs fs' : Fs} (c : Call) : Reached env fs → c.run env fs = some ((), fs') → Reached env fs'
  | other {fs fs' : Fs} : Reached env fs → fs'.icache = fs.icache → Reached env fs'

/-- What `icache_put` makes of the table before it looks for a slot, when it finds memory. -/
def roomed (c : Icache) : Icache :=
  if c.count ≥ icacheMaxEntries then
    (probeUsed c.slots (c.cap - 1) c.cap (c.tick &&& (c.cap - 1))).elim c (icacheDrop c)
  else if c.count * 2 ≥ c.cap then growTable c else c

/-- The counter is right, and bounds the table from both sides. -/
structure Counted (c : Icache) : Prop where
  cap : ∃ j ≤ 4, c.cap = icacheCapInit * 2 ^ j
  lt : ∀ i e, c.slots i = some e → i < c.cap
  count : c.count = (entries c.cap c.slots).card
  room : 2 * c.count ≤ c.cap
  keyed : ∀ i e, c.slots i = some e → e.key ≠ none

/-- Some entry of the table has the hash and the inode. -/
def Has (c : Icache) (hash : UInt64) (n : Inode) : Prop :=
  ∃ i e, c.slots i = some e ∧ e.hash = hash ∧ e.inode = n

/-- The write-back of some entry, with which an eviction begins, does not return. -/
def WritebackStuck (env : Env) (fs : Fs) : Prop :=
  ∃ i e k, fs.icache.slots i = some e ∧ e.key = some k ∧
    pagedPut env k (inodeToVal (writebackInode e.inode (env.time fs.clock)))
      { fs with clock := fs.clock + 1 } = none

section tables

variable {c : Icache} {i : ℕ} {e : IcacheEntry}

theorem counted_init : Counted icacheInit :=
  ⟨⟨0, Nat.zero_le 4, rfl⟩, fun _ _ h ↦ (by cases h), by
    rw [card_entries]
    simp [used, icacheInit], Nat.zero_le _, fun _ _ h ↦ (by cases h)⟩

namespace Counted

variable (hc : Counted c)
include hc

theorem pow : ∃ k, c.cap = 2 ^ k := by
  obtain ⟨j, -, hj⟩ := hc.cap
  exact ⟨14 + j, by rw [hj, cap_two_pow]⟩

theorem cap_le : c.cap ≤ 2 * icacheMaxEntries := by
  obtain ⟨j, hj, hcap⟩ := hc.cap
  rw [hcap]
  exact Nat.mul_le_mul_left icacheCapInit (Nat.pow_le_pow_right (by decide) hj)

theorem cap_pos : 0 < c.cap := by
  obtain ⟨k, hk⟩ := hc.pow
  rw [hk]
  exact Nat.two_pow_pos k

theorem drop (hi : c.slots i = some e) :
    Counted (icacheDrop c i) ∧ (icacheDrop c i).count + 1 = c.count := by
  have hent := entries_clear (hc.lt i e hi) hi
  have hcount : c.count = (entries c.cap (store c.slots i none)).card + 1 := by
    rw [hc.count, hent, Multiset.card_cons]
  have hold {j : ℕ} {x : IcacheEntry} (hx : store c.slots i none j = some x) :
      c.slots j = some x := by
    rcases of_store hx with ⟨-, hx⟩ | ⟨-, hx⟩
    · cases hx
    · exact hx
  have hroom := hc.room
  refine ⟨⟨hc.cap, fun j x hx ↦ hc.lt j x (hold hx), ?_, ?_, fun j x hx ↦ hc.keyed j x (hold hx)⟩, ?_⟩
  · change c.count - 1 = (entries c.cap (store c.slots i none)).card
    omega
  · change 2 * (c.count - 1) ≤ c.cap
    omega
  · change c.count - 1 + 1 = c.count
    omega

theorem grow (hmax : c.count < icacheMaxEntries) (hfull : c.cap ≤ c.count * 2) :
    Counted (growTable c) := by
  obtain ⟨k, hk⟩ := hc.pow
  obtain ⟨hent, -, hlt⟩ := growTable_entries hk
  obtain ⟨j, -, hj⟩ := hc.cap
  have hsmall : j < 4 := by
    have hinit : icacheCapInit = 16384 := rfl
    have hentries : icacheMaxEntries = 131072 := rfl
    by_contra hj4
    have hpow : 2 ^ 4 ≤ 2 ^ j := Nat.pow_le_pow_right (by decide) (Nat.not_lt.mp hj4)
    rw [hinit] at hj
    omega
  have hroom := hc.room
  refine ⟨⟨j + 1, hsmall, ?_⟩, hlt, ?_, ?_, fun i e hi ↦ ?_⟩
  · change c.cap * 2 = _
    rw [hj, pow_succ, Nat.mul_assoc]
  · rw [hent]
    exact hc.count
  · change 2 * c.count ≤ c.cap * 2
    omega
  · obtain ⟨i', -, hi'⟩ := of_rehash hi
    exact hc.keyed i' e hi'

/-- After the first part of `icache_put` less than half the table is used. -/
theorem roomed : Counted (roomed c) ∧
    2 * (CacheCounts.roomed c).count < (CacheCounts.roomed c).cap := by
  have hroom := hc.room
  rw [CacheCounts.roomed]
  split
  · rename_i hmax
    obtain ⟨k, hk⟩ := hc.pow
    have hpos : 0 < (entries c.cap c.slots).card := hc.count ▸ lt_of_lt_of_le (by decide) hmax
    obtain ⟨x, hx⟩ := Multiset.card_pos_iff_exists_mem.mp hpos
    obtain ⟨f, hf, hxf⟩ := mem_entries.mp hx
    obtain ⟨i, hi⟩ : ∃ i, probeUsed c.slots (c.cap - 1) c.cap (c.tick &&& (c.cap - 1)) = some i := by
      have htick : c.tick &&& (c.cap - 1) < c.cap := by
        have hle : c.tick &&& (c.cap - 1) ≤ c.cap - 1 := Nat.and_le_right
        omega
      rw [hk] at hf htick ⊢
      exact probeUsed_ends htick hf hxf
    obtain ⟨e, he⟩ := of_probeUsed hi
    obtain ⟨hd, hcount⟩ := hc.drop he
    rw [hi, Option.elim_some]
    refine ⟨hd, ?_⟩
    change 2 * (icacheDrop c i).count < c.cap
    omega
  · rename_i hmax
    split
    · rename_i hfull
      have hg := hc.grow (Nat.lt_of_not_le hmax) hfull
      refine ⟨hg, ?_⟩
      have hpos := hc.cap_pos
      change 2 * c.count < c.cap * 2
      omega
    · exact ⟨hc, by omega⟩

theorem placed (hroom : 2 * c.count < c.cap) (hash : UInt64) (key : Path) (n : Inode) :
    Counted (placed c hash (some key) n) ∧
      Has (CacheProbes.placed c hash (some key) n) hash n := by
  obtain ⟨k, hk⟩ := hc.pow
  have hcard : (used c.cap c.slots).card < c.cap := by
    rw [← card_entries, ← hc.count]
    omega
  obtain ⟨i, hi, hs⟩ := slotFor_some hk hcard hash
  have hlt (x : IcacheEntry) (j : ℕ) (y : IcacheEntry) (hj : store c.slots i (some x) j = some y) :
      j < c.cap := by
    rcases of_store hj with ⟨rfl, -⟩ | ⟨-, hj⟩
    · exact hi
    · exact hc.lt j y hj
  have hkeyed (x : IcacheEntry) (hx : x.key ≠ none) (j : ℕ) (y : IcacheEntry)
      (hj : store c.slots i (some x) j = some y) : y.key ≠ none := by
    rcases of_store hj with ⟨-, hxy⟩ | ⟨-, hj⟩
    · rwa [← Option.some.inj hxy]
    · exact hc.keyed j y hj
  obtain ⟨m, -, hm⟩ := hc.cap
  have heven : c.cap = 2 * (8192 * 2 ^ m) := by rw [hm, icacheCapInit]; omega
  rw [CacheProbes.placed, hs, Option.elim_some]
  rcases of_slotFor hs with hnone | ⟨e, he, hhash⟩
  · rw [hnone, Option.elim_none]
    refine ⟨⟨hc.cap, hlt _, ?_, ?_, hkeyed _ (Option.some_ne_none key)⟩,
      i, _, store_eq _ _ _, rfl, rfl⟩
    · change c.count + 1 = (entries c.cap (store c.slots i _)).card
      rw [entries_add hi hnone, Multiset.card_cons, hc.count]
    · change 2 * (c.count + 1) ≤ c.cap
      omega
  · rw [he, Option.elim_some]
    refine ⟨⟨hc.cap, hlt _, ?_, hc.room, hkeyed _ (hc.keyed i e he)⟩,
      i, _, store_eq _ _ _, hhash, rfl⟩
    have hsame := congrArg Multiset.card
      (entries_replace hi he { e with dirty := true, inode := n })
    rw [Multiset.card_cons, Multiset.card_cons] at hsame
    change c.count = (entries c.cap (store c.slots i _)).card
    rw [hc.count]
    omega

end Counted

end tables

section calls

variable {env : Env} {fs fs' : Fs} {hash : UInt64} {key : Path} {n : Inode}

theorem stuck_of_evict (hc : Counted fs.icache) (h : icacheEvictOne env fs = none) :
    WritebackStuck env fs := by
  simp only [icacheEvictOne, bind_apply, get_apply, Option.bind_some] at h
  cases hp : probeUsed fs.icache.slots (fs.icache.cap - 1) fs.icache.cap
      (fs.icache.tick &&& (fs.icache.cap - 1)) with
  | none =>
    rw [hp] at h
    cases h
  | some i =>
    obtain ⟨e, hi⟩ := of_probeUsed hp
    obtain ⟨k, hk⟩ := Option.ne_none_iff_exists'.mp (hc.keyed i e hi)
    simp only [hp, hi, if_apply, hk] at h
    split at h
    · simp only [bind_apply, osTime_eq, Option.bind_some, putEntry] at h
      cases hput : pagedPut env k (inodeToVal (writebackInode e.inode (env.time fs.clock)))
          { fs with clock := fs.clock + 1 } with
      | none => exact ⟨i, e, k, hi, hk, hput⟩
      | some r =>
        change ((pagedPut env k _ _).bind _).bind _ = none at h
        rw [hput] at h
        cases h
    · cases h

variable (hmem : ∀ n, env.mem n = true)
include hmem

theorem icacheGrow_apply : icacheGrow env fs =
    some ((), { fs with icache := growTable fs.icache, clock := fs.clock + 1 }) := by
  rw [icacheGrow, bind_apply, osAlloc_eq, Option.bind_some, if_pos (hmem _)]
  rfl

theorem icacheRoom_roomed (h : icacheRoom env fs = some ((), fs')) :
    fs'.icache = roomed fs.icache := by
  simp only [icacheRoom, bind_apply, get_apply, Option.bind_some, if_apply] at h
  rw [roomed]
  split at h
  · rw [if_pos ‹_›]
    exact icacheEvictOne_icache h
  · rw [if_neg ‹_›]
    split at h
    · rw [if_pos ‹_›]
      rw [icacheGrow_apply hmem] at h
      obtain ⟨-, rfl⟩ := Prod.mk.inj (Option.some.inj h)
      rfl
    · rw [if_neg ‹_›]
      obtain ⟨-, rfl⟩ := Prod.mk.inj (Option.some.inj h)
      rfl

theorem Counted.put (hc : Counted fs.icache) (h : icachePut env hash key n fs = some ((), fs')) :
    Counted fs'.icache ∧ Has fs'.icache hash n := by
  obtain ⟨u, fs₁, hroom, hplace⟩ := of_bind h
  obtain ⟨key', hkey, hplaced⟩ := icachePlace_placed hplace
  obtain ⟨hr, hhalf⟩ := hc.roomed
  rw [← icacheRoom_roomed hmem hroom] at hr hhalf
  rw [hplaced, hkey (hmem _)]
  exact hr.placed hhalf hash key n

theorem Counted.put_returns (hc : Counted fs.icache) (h : icachePut env hash key n fs = none) :
    WritebackStuck env fs := by
  refine stuck_of_evict hc ?_
  cases hroom : icacheRoom env fs with
  | some r =>
    obtain ⟨fs₂, hplace⟩ := icachePlace_returns env hash key n r.2
    rw [icachePut, bind_apply, hroom, Option.bind_some, hplace] at h
    cases h
  | none =>
    simp only [icacheRoom, bind_apply, get_apply, Option.bind_some, if_apply] at hroom
    split at hroom
    · exact hroom
    · split at hroom
      · rw [icacheGrow_apply hmem] at hroom
        cases hroom
      · cases hroom

theorem Counted.call (hc : Counted fs.icache) {c : Call} (h : c.run env fs = some ((), fs')) :
    Counted fs'.icache := by
  cases c with
  | put hash key n => exact (hc.put hmem h).1
  | del hash =>
    rw [icacheDel_icache h]
    cases hl : icacheLookup fs.icache hash with
    | none => exact hc
    | some i =>
      obtain ⟨-, e, hi, -⟩ := of_lookup hl
      exact (hc.drop hi).1
  | evict =>
    rw [icacheEvictOne_icache h]
    cases hp : probeUsed fs.icache.slots (fs.icache.cap - 1) fs.icache.cap
        (fs.icache.tick &&& (fs.icache.cap - 1)) with
    | none => exact hc
    | some i =>
      obtain ⟨e, hi⟩ := of_probeUsed hp
      exact (hc.drop hi).1

theorem Reached.counted (h : Reached env fs) : Counted fs.icache := by
  induction h with
  | init h₀ => exact h₀ ▸ counted_init
  | call c _ hx ih => exact ih.call hmem hx
  | other _ hsame ih => exact hsame ▸ ih

/-- The counter of the cache is right and bounds the table, a put leaves an entry with its hash and
its inode, and growing keeps all entries, each with no empty slot between its home and its place. -/
theorem put_never_dropped (h : Reached env fs) :
    fs.icache.count = (used fs.icache.cap fs.icache.slots).card ∧
    (∃ k, fs.icache.cap = 2 ^ k) ∧ fs.icache.cap ≤ 2 * icacheMaxEntries ∧
    2 * fs.icache.count ≤ fs.icache.cap ∧
    (∀ hash key n fs', icachePut env hash key n fs = some ((), fs') → Has fs'.icache hash n) ∧
    (∀ hash key n, icachePut env hash key n fs = none → WritebackStuck env fs) ∧
    ∃ fs', icacheGrow env fs = some ((), fs') ∧
      entries fs'.icache.cap fs'.icache.slots = entries fs.icache.cap fs.icache.slots ∧
      NoGaps (fun e ↦ home fs'.icache.cap e.hash) fs'.icache.cap fs'.icache.slots := by
  have hc := h.counted hmem
  obtain ⟨k, hk⟩ := hc.pow
  obtain ⟨hent, hgaps, -⟩ := growTable_entries hk
  exact ⟨hc.count.trans (card_entries _ _), ⟨k, hk⟩, hc.cap_le, hc.room,
    fun _ _ _ _ hx ↦ (hc.put hmem hx).2, fun _ _ _ hx ↦ hc.put_returns hmem hx,
    _, icacheGrow_apply hmem, hent, hgaps⟩

end calls

section growth

theorem Counted.placed_new {c : Icache} (hc : Counted c) (hroom : 2 * c.count < c.cap) {hash : UInt64}
    (hnew : ∀ i e, c.slots i = some e → e.hash ≠ hash) (key : Path) (n : Inode) :
    (CacheProbes.placed c hash (some key) n).count = c.count + 1 ∧
      (CacheProbes.placed c hash (some key) n).cap = c.cap ∧
      ∀ i e, (CacheProbes.placed c hash (some key) n).slots i = some e →
        e.hash = hash ∨ c.slots i = some e := by
  obtain ⟨k, hk⟩ := hc.pow
  have hcard : (used c.cap c.slots).card < c.cap := by
    rw [← card_entries, ← hc.count]
    omega
  obtain ⟨i, -, hs⟩ := slotFor_some hk hcard hash
  have hnone : c.slots i = none :=
    (of_slotFor hs).resolve_right fun ⟨e, he, hhash⟩ ↦ hnew i e he hhash
  rw [CacheProbes.placed, hs, Option.elim_some, hnone, Option.elim_none]
  refine ⟨rfl, rfl, fun j e he ↦ ?_⟩
  rcases of_store he with ⟨-, he⟩ | ⟨-, he⟩
  · exact .inl (congrArg IcacheEntry.hash (Option.some.inj he)).symm
  · exact .inr he

/-- The table after `k` puts with the hashes 0, 1, 2 and so on. -/
structure Filled (k : ℕ) (fs : Fs) : Prop where
  reached : Reached steady fs
  count : fs.icache.count = k
  cap : fs.icache.cap = icacheCapInit
  hashes : ∀ i e, fs.icache.slots i = some e → e.hash.toNat < k

theorem filled {k : ℕ} (hk : k ≤ 8192) : ∃ fs, Filled k fs := by
  have hinit : icacheCapInit = 16384 := rfl
  have hmax : icacheMaxEntries = 131072 := rfl
  have hword : UInt64.size = 2 ^ 64 := rfl
  induction k with
  | zero => exact ⟨coldFs, .init rfl, rfl, rfl, fun _ _ h ↦ (by cases h)⟩
  | succ k ih =>
    obtain ⟨fs, h⟩ := ih (by omega)
    have hroom : icacheRoom steady fs = some ((), fs) := by
      simp only [icacheRoom, bind_apply, get_apply, Option.bind_some, h.count, h.cap, if_apply]
      rw [if_neg (by omega), if_neg (by omega)]
      rfl
    obtain ⟨fs', hplace⟩ := icachePlace_returns steady (UInt64.ofNat k) [47] zeroInode fs
    have hput : icachePut steady (UInt64.ofNat k) [47] zeroInode fs = some ((), fs') := by
      rw [icachePut, bind_apply, hroom, Option.bind_some, hplace]
    obtain ⟨key, hkey, hplaced⟩ := icachePlace_placed hplace
    rw [hkey rfl] at hplaced
    have hnat : (UInt64.ofNat k).toNat = k := UInt64.toNat_ofNat_of_lt' (by omega)
    obtain ⟨hcount, hcap, hhash⟩ := (h.reached.counted fun _ ↦ rfl).placed_new
      (by rw [h.count, h.cap]; omega)
      (fun i e he (hh : e.hash = UInt64.ofNat k) ↦ by have := h.hashes i e he; rw [hh, hnat] at this; omega) [47] zeroInode
    rw [← hplaced] at hcount hcap hhash
    refine ⟨fs', h.reached.call (.put _ [47] zeroInode) hput, by rw [hcount, h.count],
      hcap.trans h.cap, fun i e he ↦ ?_⟩
    rcases hhash i e he with hh | hold
    · rw [hh, hnat]
      exact Nat.lt_succ_self k
    · exact (h.hashes i e hold).trans (Nat.lt_succ_self k)

/-- The put that doubles a table of which half is used. -/
theorem put_never_dropped_grown : ∃ fs fs', fs.icache.count = 8192 ∧
    icachePut steady 8192 [47] zeroInode fs = some ((), fs') ∧
      fs'.icache.cap = 2 * fs.icache.cap ∧ Has fs'.icache 8192 zeroInode ∧
      fs'.icache.count = (used fs'.icache.cap fs'.icache.slots).card := by
  obtain ⟨fs, h⟩ := filled le_rfl
  obtain ⟨-, -, -, -, hput, -⟩ := put_never_dropped (fun _ ↦ rfl) h.reached
  obtain ⟨fs₁, hroom, hgrown⟩ : ∃ fs₁, icacheRoom steady fs = some ((), fs₁) ∧
      fs₁.icache = growTable fs.icache := by
    refine ⟨{ fs with icache := growTable fs.icache, clock := fs.clock + 1 }, ?_, rfl⟩
    simp only [icacheRoom, bind_apply, get_apply, Option.bind_some, h.count, h.cap, if_apply]
    rw [if_neg (by decide), if_pos (by decide)]
    exact icacheGrow_apply fun _ ↦ rfl
  obtain ⟨fs', hplace⟩ := icachePlace_returns steady 8192 [47] zeroInode fs₁
  have hx : icachePut steady 8192 [47] zeroInode fs = some ((), fs') := by
    rw [icachePut, bind_apply, hroom, Option.bind_some, hplace]
  obtain ⟨key, -, hplaced⟩ := icachePlace_placed hplace
  have hnext : Reached steady fs' := h.reached.call (.put 8192 [47] zeroInode) hx
  refine ⟨fs, fs', h.count, hx, ?_, hput 8192 [47] zeroInode fs' hx,
    (put_never_dropped (fun _ ↦ rfl) hnext).1⟩
  have hcap : (placed fs₁.icache 8192 key zeroInode).cap = fs₁.icache.cap := by
    rw [placed]
    rcases slotFor fs₁.icache fs₁.icache.cap 8192 with _ | i
    · rfl
    · rw [Option.elim_some]
      cases fs₁.icache.slots i <;> rfl
  rw [hplaced, hcap, hgrown]
  exact Nat.mul_comm _ _

end growth

end Xxfs.CacheCounts

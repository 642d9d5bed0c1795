import Xxfs.CacheProbes

namespace Xxfs.CacheProbes

open Xxfs.DiskFormat Xxfs.Machine Xxfs.PagedIndex Xxfs.Frames Xxfs.Volume Xxfs.InodeCache
open Xxfs.CacheMap Xxfs.Lib.ProbeTable
open Xxfs.Lib.Computation Xxfs.Lib.Computation.Comp

section puts

open Function

/-- What a call of `icache_put` is given. -/
structure Put where
  hash : UInt64
  key : Path
  inode : Inode

def putAll (env : Env) (puts : List Put) : FsM Unit :=
  puts.forM fun p ↦ icachePut env p.hash p.key p.inode

def lastPut (puts : List Put) : UInt64 → Option Inode :=
  puts.foldl (fun m p ↦ update m p.hash (some p.inode)) fun _ ↦ none

/-- The table that `icache_put` leaves when it finds memory and need not evict. -/
def putTable (c : Icache) (p : Put) : Icache :=
  placed (if c.count * 2 ≥ c.cap then growTable c else c) p.hash (some p.key) p.inode

/-- The cache holds the inodes of the map, all of them dirty, and counts no slot too few. -/
structure Holds (c : Icache) (m : UInt64 → Option Inode) : Prop where
  entry : ∀ i e, c.slots i = some e → e.dirty = true ∧ m e.hash = some e.inode
  has : ∀ h n, m h = some n → ∃ i e, c.slots i = some e ∧ e.hash = h
  count : (used c.cap c.slots).card ≤ c.count

/-- The lookup of the hash returns a dirty entry with the inode. -/
def Finds (c : Icache) (hash : UInt64) (n : Inode) : Prop :=
  ∃ i e, icacheLookup c hash = some i ∧ c.slots i = some e ∧ e.inode = n ∧ e.dirty = true

/-- Every entry is within reach of the lookup of its hash. -/
def Near (c : Icache) : Prop := ∀ i e, c.slots i = some e → behind c e.hash i < 16

variable {env : Env} {fs : Fs} {c : Icache} {m : UInt64 → Option Inode}

theorem Probed.finds_iff (hc : Probed c) (hm : Holds c m) :
    (∀ h n, m h = some n → Finds c h n) ↔ Near c := by
  constructor
  · intro hall i e hi
    obtain ⟨j, e', hl, hj, -⟩ := hall e.hash e.inode (hm.entry i e hi).2
    obtain ⟨-, x, hx, hh⟩ := of_lookup hl
    obtain rfl := hc.unique hx hi hh
    exact (hc.lookup_iff hi).mp hl
  · rintro hnear h n hn
    obtain ⟨i, e, hi, rfl⟩ := hm.has h n hn
    obtain ⟨hdirty, hinode⟩ := hm.entry i e hi
    rw [hn] at hinode
    exact ⟨i, e, (hc.lookup_iff hi).mpr (hnear i e hi), hi, (Option.some.inj hinode).symm, hdirty⟩

theorem holds_init : Holds icacheInit fun _ ↦ none :=
  ⟨fun _ _ h ↦ (by cases h), fun _ _ h ↦ (by cases h), by simp [used, icacheInit]⟩

theorem Probed.used_grow (hc : Probed c) :
    (used (growTable c).cap (growTable c).slots).card = (used c.cap c.slots).card := by
  obtain ⟨k, hk⟩ := hc.pow
  rw [← card_entries, ← card_entries, (growTable_entries hk).1]

theorem Probed.holds_grow (hc : Probed c) (hm : Holds c m) : Holds (growTable c) m := by
  obtain ⟨k, hk⟩ := hc.pow
  have hcap : c.cap * 2 = 2 ^ (k + 1) := by rw [hk, pow_succ]
  have hmem {i : ℕ} {e : IcacheEntry} (hi : (growTable c).slots i = some e) :
      ∃ j < c.cap, c.slots j = some e := of_rehash hi
  refine ⟨fun i e hi ↦ ?_, fun h n hn ↦ ?_, ?_⟩
  · obtain ⟨j, -, hj⟩ := hmem hi
    exact hm.entry j e hj
  · obtain ⟨j, e, hj, hh⟩ := hm.has h n hn
    have hpos := Nat.two_pow_pos k
    have hhome (x : IcacheEntry) : home (c.cap * 2) x.hash < 2 ^ (k + 1) := by
      rw [← hcap]
      exact CacheMap.home_lt (by omega) _
    obtain ⟨i, hi⟩ := rehash_mem (by omega) hhome (hc.table.lt j e hj) hj
    rw [← hcap] at hi
    exact ⟨i, e, hi, hh⟩
  · exact hc.used_grow.le.trans hm.count

theorem Probed.holds_placed (hc : Probed c) (hm : Holds c m)
    (hfree : (used c.cap c.slots).card < c.cap) (hash : UInt64) (key : Option Path) (n : Inode) :
    Holds (CacheProbes.placed c hash key n) (update m hash (some n)) := by
  obtain ⟨k, hk⟩ := hc.pow
  obtain ⟨i, -, hs⟩ := slotFor_some hk hfree hash
  -- The slot the search ends at gets an entry of the hash; no other entry has it.
  have hstore (e : IcacheEntry) (he : e.hash = hash) (hdirty : e.dirty = true) (hn : e.inode = n)
      (hother : ∀ j x, j ≠ i → c.slots j = some x → x.hash ≠ hash)
      (hsame : ∀ x, c.slots i = some x → x.hash = hash) :
      (∀ j x, store c.slots i (some e) j = some x →
        x.dirty = true ∧ update m hash (some n) x.hash = some x.inode) ∧
      ∀ h n', update m hash (some n) h = some n' →
        ∃ j x, store c.slots i (some e) j = some x ∧ x.hash = h := by
    refine ⟨fun j x hx ↦ ?_, fun h n' hn' ↦ ?_⟩
    · rcases of_store hx with ⟨-, hxe⟩ | ⟨hji, hx⟩
      · obtain rfl := Option.some.inj hxe
        exact ⟨hdirty, by rw [he, update_self, hn]⟩
      · rw [update_of_ne (hother j x hji hx)]
        exact hm.entry j x hx
    · by_cases hh : h = hash
      · exact ⟨i, e, store_eq _ _ _, he.trans hh.symm⟩
      · rw [update_of_ne hh] at hn'
        obtain ⟨j, x, hx, rfl⟩ := hm.has h n' hn'
        refine ⟨j, x, (store_ne ?_).trans hx, rfl⟩
        rintro rfl
        exact hh (hsame x hx)
  rw [CacheProbes.placed, hs, Option.elim_some]
  cases hi : c.slots i with
  | none =>
    have hno (j : ℕ) (x : IcacheEntry) (hx : c.slots j = some x) : x.hash ≠ hash := by
      have htable := hc.table
      have hhome := hc.home_lt
      rw [slotFor] at hs
      rw [hk] at hs htable hhome
      exact htable.no_entry hhome le_rfl hs hi j x hx
    obtain ⟨hentry, hhas⟩ := hstore ⟨hash, true, key, n⟩ rfl rfl rfl (fun j x _ ↦ hno j x)
      fun x hx ↦ by rw [hi] at hx; cases hx
    exact ⟨hentry, hhas, (card_used_store _ _ _ _).trans (Nat.succ_le_succ hm.count)⟩
  | some e =>
    have he : e.hash = hash := by
      rcases of_slotFor hs with hnone | ⟨x, hx, hh⟩
      · rw [hi] at hnone
        cases hnone
      · obtain rfl := Option.some.inj (hi.symm.trans hx)
        exact hh
    obtain ⟨hentry, hhas⟩ := hstore { e with dirty := true, inode := n } he rfl rfl
      (fun j x hji hx hh ↦ hji (hc.unique hx hi (hh.trans he.symm)))
      fun x hx ↦ by rw [← Option.some.inj (hi.symm.trans hx), he]
    refine ⟨hentry, hhas, (Finset.card_le_card fun j hj ↦ ?_).trans hm.count⟩
    obtain ⟨hjc, hsome⟩ := mem_used.mp hj
    refine mem_used.mpr ⟨hjc, ?_⟩
    by_cases hji : j = i
    · rw [hji, hi]
      rfl
    · change (store c.slots i _ j).isSome = true at hsome
      rwa [store_ne hji] at hsome

theorem Probed.putTable (hc : Probed c) (hm : Holds c m) (p : Put) :
    Probed (putTable c p) ∧ Holds (CacheProbes.putTable c p) (update m p.hash (some p.inode)) := by
  rw [CacheProbes.putTable]
  split
  · have hle : (used (growTable c).cap (growTable c).slots).card < (growTable c).cap := by
      have hcap : (growTable c).cap = c.cap * 2 := rfl
      have hall : (used c.cap c.slots).card ≤ c.cap :=
        (Finset.card_filter_le _ _).trans (Finset.card_range _).le
      have := hc.used_grow
      have := hc.le_cap
      omega
    exact ⟨hc.grow.placed _ _ _, hc.grow.holds_placed (hc.holds_grow hm) hle _ _ _⟩
  · have := hm.count
    exact ⟨hc.placed _ _ _, hc.holds_placed hm (by omega) _ _ _⟩

/-- A call that finds memory and need not evict leaves the table of `putTable`. -/
theorem icachePut_putTable (hmem : ∀ n, env.mem n = true)
    (hlt : fs.icache.count < icacheMaxEntries) (p : Put) :
    ∃ fs', icachePut env p.hash p.key p.inode fs = some ((), fs') ∧
      fs'.icache = putTable fs.icache p := by
  obtain ⟨fs₁, hroom, hcache⟩ : ∃ fs₁, icacheRoom env fs = some ((), fs₁) ∧ fs₁.icache =
      if fs.icache.count * 2 ≥ fs.icache.cap then growTable fs.icache else fs.icache := by
    simp only [icacheRoom, bind_apply, get_apply, Option.bind_some, if_apply,
      Nat.not_le.mpr hlt, ↓reduceIte]
    split
    · simp only [icacheGrow, bind_apply, osAlloc_eq, Option.bind_some, if_apply, hmem, ↓reduceIte,
        modify_apply]
      exact ⟨_, rfl, rfl⟩
    · exact ⟨_, rfl, rfl⟩
  obtain ⟨fs', hplace⟩ := icachePlace_returns env p.hash p.key p.inode fs₁
  refine ⟨fs', by rw [icachePut, bind_apply, hroom, Option.bind_some, hplace], ?_⟩
  obtain ⟨key', hkey, hplaced⟩ := icachePlace_placed hplace
  rw [hplaced, hkey (hmem _), hcache]
  rfl

/-- The cache stays below the number of entries from which on it evicts. -/
def StaysBelow (env : Env) (puts : List Put) (fs : Fs) : Prop :=
  ∀ pre, pre <+: puts → ∀ fs', putAll env pre fs = some ((), fs') →
    fs'.icache.count < icacheMaxEntries

theorem putAll_cons {p : Put} {puts : List Put} {fs₁ : Fs}
    (h : icachePut env p.hash p.key p.inode fs = some ((), fs₁)) :
    putAll env (p :: puts) fs = putAll env puts fs₁ := by
  change (icachePut env p.hash p.key p.inode >>= fun _ ↦ putAll env puts) fs = _
  rw [bind_apply, h, Option.bind_some]

/-- A run of calls below the limit keeps the table and the map that it stands for. -/
theorem putAll_apply (hmem : ∀ n, env.mem n = true) {puts : List Put}
    (hbelow : StaysBelow env puts fs) (hc : Probed fs.icache) (hm : Holds fs.icache m) :
    ∃ fs', putAll env puts fs = some ((), fs') ∧ fs'.icache = puts.foldl putTable fs.icache ∧
      Probed fs'.icache ∧
      Holds fs'.icache (puts.foldl (fun m p ↦ update m p.hash (some p.inode)) m) := by
  induction puts generalizing fs m with
  | nil => exact ⟨fs, rfl, rfl, hc, hm⟩
  | cons p puts ih =>
    obtain ⟨fs₁, h₁, hcache⟩ := icachePut_putTable hmem (hbelow [] List.nil_prefix fs rfl) p
    obtain ⟨hc₁, hm₁⟩ := hc.putTable hm p
    rw [← hcache] at hc₁ hm₁
    have hbelow₁ : StaysBelow env puts fs₁ := fun pre hpre fs' hfs' ↦
      hbelow (p :: pre) ((List.prefix_cons_inj p).mpr hpre) fs' (by rw [putAll_cons h₁, hfs'])
    obtain ⟨fs', hrun, htable, hc', hm'⟩ := ih hbelow₁ hc₁ hm₁
    exact ⟨fs', by rw [putAll_cons h₁, hrun], by rw [htable, hcache]; rfl, hc', hm'⟩

/-- After every run of puts below the limit each hash is found with its last inode exactly when no
entry lies 16 slots or more behind its home. -/
theorem every_put_found_iff (hmem : ∀ n, env.mem n = true) (h₀ : fs.icache = icacheInit)
    {puts : List Put} (hbelow : StaysBelow env puts fs) :
    ∃ fs', putAll env puts fs = some ((), fs') ∧
      ((∀ h n, lastPut puts h = some n → Finds fs'.icache h n) ↔ Near fs'.icache) := by
  obtain ⟨fs', hrun, -, hc, hm⟩ :=
    putAll_apply hmem hbelow (h₀ ▸ probed_init) (h₀ ▸ holds_init)
  exact ⟨fs', hrun, hc.finds_iff hm⟩

theorem foldl_putTable_cap {puts : List Put} (h : (c.count + puts.length) * 2 ≤ c.cap) :
    (puts.foldl putTable c).cap = c.cap ∧
      (puts.foldl putTable c).count ≤ c.count + puts.length := by
  induction puts generalizing c with
  | nil => exact ⟨rfl, le_rfl⟩
  | cons p puts ih =>
    rw [List.length_cons] at h
    have hput : (putTable c p).cap = c.cap ∧ (putTable c p).count ≤ c.count + 1 := by
      rw [putTable, if_neg (by omega), placed]
      cases slotFor c c.cap p.hash with
      | none => exact ⟨rfl, Nat.le_succ _⟩
      | some i =>
        rw [Option.elim_some]
        cases c.slots i with
        | none => exact ⟨rfl, le_rfl⟩
        | some e => exact ⟨rfl, Nat.le_succ _⟩
    obtain ⟨hcap, hcount⟩ := ih (c := putTable c p) (by omega)
    rw [List.foldl_cons, List.length_cons]
    exact ⟨hcap.trans hput.1, by omega⟩

theorem putAll_short (hmem : ∀ n, env.mem n = true) {puts : List Put}
    (h : (fs.icache.count + puts.length) * 2 ≤ fs.icache.cap)
    (hmax : fs.icache.count + puts.length ≤ icacheMaxEntries) :
    ∃ fs', putAll env puts fs = some ((), fs') ∧ fs'.icache = puts.foldl putTable fs.icache := by
  induction puts generalizing fs with
  | nil => exact ⟨fs, rfl, rfl⟩
  | cons p puts ih =>
    rw [List.length_cons] at h hmax
    obtain ⟨fs₁, h₁, hcache⟩ := @icachePut_putTable env fs hmem (by omega) p
    obtain ⟨hcap, hcount⟩ := @foldl_putTable_cap fs.icache [p] (by rw [List.length_singleton]; omega)
    rw [List.foldl_cons, List.foldl_nil, ← hcache] at hcap hcount
    rw [List.length_singleton] at hcount
    obtain ⟨fs', hrun, htable⟩ := @ih fs₁ (by omega) (by omega)
    exact ⟨fs', by rw [putAll_cons h₁, hrun], by rw [htable, hcache]; rfl⟩

theorem staysBelow_of_length (hmem : ∀ n, env.mem n = true) (h₀ : fs.icache = icacheInit)
    {puts : List Put} (hlen : puts.length * 2 ≤ icacheCapInit) : StaysBelow env puts fs := by
  intro pre hpre fs' hfs'
  have hle := hpre.length_le
  have hcap : fs.icache.cap = icacheCapInit := by rw [h₀]; rfl
  have hcount : fs.icache.count = 0 := by rw [h₀]; rfl
  have hmax : icacheCapInit * 8 = icacheMaxEntries := by decide
  have hinit : icacheCapInit = 16384 := rfl
  obtain ⟨fs₁, hrun, htable⟩ := @putAll_short env fs hmem pre (by omega) (by omega)
  obtain ⟨-, rfl⟩ := Prod.mk.inj (Option.some.inj (hfs'.symm.trans hrun))
  have := (@foldl_putTable_cap fs.icache pre (by omega)).2
  rw [htable]
  omega

theorem foldl_const {puts : List Put} {n : Inode} {h : UInt64} (hn : ∀ p ∈ puts, p.inode = n)
    (hh : m h = some n ∨ ∃ p ∈ puts, p.hash = h) :
    puts.foldl (fun (m : UInt64 → Option Inode) p ↦ update m p.hash (some p.inode)) m h =
      some n := by
  induction puts generalizing m with
  | nil =>
    refine hh.resolve_right ?_
    rintro ⟨p, hp, -⟩
    exact absurd hp List.not_mem_nil
  | cons p puts ih =>
    refine ih (fun q hq ↦ hn q (List.mem_cons_of_mem p hq)) ?_
    dsimp only
    by_cases hp : h = p.hash
    · exact .inl (by rw [hp, update_self, hn p List.mem_cons_self])
    · rw [update_of_ne hp]
      rcases hh with hm | ⟨q, hq, hqh⟩
      · exact .inl hm
      · refine .inr ⟨q, (List.mem_cons.mp hq).resolve_left ?_, hqh⟩
        rintro rfl
        exact hp hqh.symm

end puts

section examples

def coldFs : Fs := blank emptyImage 0 0

def zeroInode : Inode := Inode.decode fun _ ↦ 0

/-- The hash `16384 * i`: all of them have the home slot 0. -/
def putZero (i : ℕ) : Put := ⟨UInt64.ofNat (16384 * i), [47], zeroInode⟩

theorem two_puts_found_iff : ∃ fs', putAll steady [putZero 0, putZero 1] coldFs = some ((), fs') ∧
    ((∀ h n, lastPut [putZero 0, putZero 1] h = some n → Finds fs'.icache h n) ↔
      Near fs'.icache) :=
  every_put_found_iff (fun _ ↦ rfl) rfl (staysBelow_of_length (fun _ ↦ rfl) rfl (by decide))

/-- The last of 17 hashes with one home slot is not found. -/
theorem seventeenth_put_lost : ¬∀ env fs puts, (∀ n, env.mem n = true) → fs.icache = icacheInit →
    StaysBelow env puts fs → ∀ fs', putAll env puts fs = some ((), fs') →
      ∀ h n, lastPut puts h = some n → Finds fs'.icache h n := by
  intro hall
  have hbelow : StaysBelow steady ((List.range 17).map putZero) coldFs :=
    staysBelow_of_length (fun _ ↦ rfl) rfl (by decide)
  obtain ⟨fs', hrun, htable, hc, hm⟩ := putAll_apply (fun _ ↦ rfl) hbelow probed_init holds_init
  have hfinds := hall steady coldFs _ (fun _ ↦ rfl) rfl hbelow fs' hrun
  have hnear := (hc.finds_iff hm).mp hfinds
  have hcap : fs'.icache.cap = icacheCapInit := by
    rw [htable]
    exact (foldl_putTable_cap (c := icacheInit) (by decide)).1
  have hentry (i : ℕ) (hi : i ∈ Finset.range 17) : ∃ j < 16, ∃ e, fs'.icache.slots j = some e ∧
      e.hash = UInt64.ofNat (16384 * i) := by
    obtain ⟨j, e, hslot, hhash⟩ : ∃ j e, fs'.icache.slots j = some e ∧
        e.hash = UInt64.ofNat (16384 * i) := by
      refine hm.has _ zeroInode (foldl_const (fun p hp ↦ ?_) (.inr ⟨putZero i, ?_, rfl⟩))
      · obtain ⟨k, -, rfl⟩ := List.mem_map.mp hp
        rfl
      · exact List.mem_map.mpr ⟨i, List.mem_range.mpr (Finset.mem_range.mp hi), rfl⟩
    have hhome : ∀ i ∈ Finset.range 17, home icacheCapInit (UInt64.ofNat (16384 * i)) = 0 := by
      decide
    have hd := hnear j e hslot
    have hlt := hc.table.lt _ _ hslot
    rw [behind, hcap, hhash, hhome i hi] at hd
    rw [hcap] at hlt
    rw [dist_eq (by decide) hlt, if_pos (Nat.zero_le _), Nat.sub_zero] at hd
    exact ⟨j, hd, e, hslot, hhash⟩
  choose! f hf e hslot hhash using hentry
  obtain ⟨i, hi, j, hj, hij, heq⟩ := Finset.exists_ne_map_eq_of_card_lt_of_maps_to
    (s := Finset.range 17) (t := Finset.range 16) (by decide)
    fun i hi ↦ Finset.mem_coe.mpr (Finset.mem_range.mpr (hf i hi))
  have hsame : e i hi = e j hj := Option.some.inj ((hslot i hi).symm.trans (heq ▸ hslot j hj))
  have hne : ∀ i ∈ Finset.range 17, ∀ j ∈ Finset.range 17, i ≠ j →
      UInt64.ofNat (16384 * i) ≠ UInt64.ofNat (16384 * j) := by decide
  exact hne i hi j hj hij (by rw [← hhash i hi, ← hhash j hj, hsame])

end examples

end Xxfs.CacheProbes

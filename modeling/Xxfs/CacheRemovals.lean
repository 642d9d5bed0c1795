import Xxfs.CachePuts

namespace Xxfs.CacheProbes

open Xxfs.DiskFormat Xxfs.Machine Xxfs.PagedIndex Xxfs.Frames Xxfs.Volume Xxfs.InodeCache
open Xxfs.CacheMap Xxfs.Lib.ProbeTable
open Xxfs.Lib.Computation Xxfs.Lib.Computation.Comp

section removals

def victim (c : Icache) : Option ℕ :=
  probeUsed c.slots (c.cap - 1) c.cap (c.tick &&& (c.cap - 1))

inductive Removal
  | del (hash : UInt64)
  | evict

inductive CacheOp
  | put (hash : UInt64) (key : Path) (n : Inode)
  | remove (r : Removal)

def Removal.run (env : Env) : Removal → FsM Unit
  | .del hash => icacheDel hash
  | .evict => icacheEvictOne env

def CacheOp.run (env : Env) : CacheOp → FsM Unit
  | .put hash key n => icachePut env hash key n
  | .remove r => r.run env

def Removal.frees (c : Icache) : Removal → Option ℕ
  | .del hash => icacheLookup c hash
  | .evict => victim c

/-- The slot that a call empties; `icache_put` evicts when the cache is full. -/
def CacheOp.frees (c : Icache) : CacheOp → Option ℕ
  | .put _ _ _ => if c.count ≥ icacheMaxEntries then victim c else none
  | .remove r => r.frees c

def Clear (c : Icache) (i : ℕ) : Prop :=
  ∀ j e, c.slots j = some e → ¬behind c e.hash i < behind c e.hash j

/-- A run of calls on the cache, each of which empties only slots with `free`. -/
inductive CacheRun (env : Env) (free : Icache → ℕ → Prop) : Fs → Fs → Prop
  | refl (fs : Fs) : CacheRun env free fs fs
  | step {fs fs₁ fs₂ : Fs} (op : CacheOp) : CacheRun env free fs fs₁ →
    (∀ i, op.frees fs₁.icache = some i → free fs₁.icache i) → op.run env fs₁ = some ((), fs₂) →
    CacheRun env free fs fs₂

variable {env : Env} {fs fs' : Fs} {c : Icache}

theorem Removal.run_icache {r : Removal} (h : r.run env fs = some ((), fs')) :
    fs'.icache = (r.frees fs.icache).elim fs.icache (icacheDrop fs.icache) := by
  cases r with
  | del hash => exact icacheDel_icache h
  | evict => exact icacheEvictOne_icache h

theorem Probed.step (hc : Probed fs.icache) {op : CacheOp}
    (hclear : ∀ i, op.frees fs.icache = some i → Clear fs.icache i)
    (h : op.run env fs = some ((), fs')) : Probed fs'.icache := by
  cases op with
  | put hash key n =>
    obtain ⟨c, key', hroom, hplaced⟩ := icachePut_placed h
    rw [hplaced]
    refine Probed.placed ?_ hash key' n
    cases hroom with
    | same => exact hc
    | grown => exact hc.grow
    | evicted hfull hp => exact hc.drop (hclear _ (by rw [CacheOp.frees, if_pos hfull]; exact hp))
  | remove r =>
    rw [Removal.run_icache h]
    cases hf : r.frees fs.icache with
    | none => exact hc
    | some i => exact hc.drop (hclear i hf)

theorem Probed.run (hc : Probed fs.icache) (h : CacheRun env Clear fs fs') : Probed fs'.icache := by
  induction h with
  | refl => exact hc
  | step op _ hclear hop ih => exact (ih).step hclear hop

/-- Emptying a slot in front of an entry hides the entry; the others are found as before. -/
theorem Probed.drop_iff (hc : Probed c) {i : ℕ} {e₀ : IcacheEntry} (hi : c.slots i = some e₀) :
    (∀ g j, g ≠ e₀.hash → icacheLookup c g = some j →
      icacheInode (icacheDrop c i) g = icacheInode c g) ↔
    ∀ g j, icacheLookup c g = some j → ¬behind c g i < behind c g j := by
  obtain ⟨k, hk⟩ := hc.pow
  have hslots {j : ℕ} (hj : j ≠ i) : (icacheDrop c i).slots j = c.slots j := store_ne hj
  have hlt : i < c.cap := hc.table.lt i e₀ hi
  have hempty : (icacheDrop c i).slots i = none := store_eq _ _ _
  -- The slots in front of a slot that are not emptied stop no probe that they did not stop before.
  have hpass {g : UInt64} {l : ℕ} (hl : l ≠ i)
      (hs : ¬Stops (fun e : IcacheEntry ↦ e.hash == g) c.slots l) :
      ¬Stops (fun e : IcacheEntry ↦ e.hash == g) (icacheDrop c i).slots l := by
    rwa [Stops, hslots hl]
  constructor
  · intro hframe g j hl hij
    obtain ⟨hslot, e, he, hg⟩ := of_lookup hl
    obtain ⟨hj, hj16, -, hclose⟩ := (slotFor_iff hk hc.le_cap).mp hslot
    have hne : g ≠ e₀.hash := by
      rintro rfl
      rw [hc.unique hi he hg.symm] at hij
      exact lt_irrefl _ hij
    have hdrop : slotFor (icacheDrop c i) 16 g = some i := by
      refine (slotFor_iff (c := icacheDrop c i) hk hc.le_cap).mpr
        ⟨hlt, hij.trans hj16, .inl hempty, fun l hlc hli ↦ hpass ?_ (hclose l hlc (hli.trans hij))⟩
      rintro rfl
      exact lt_irrefl _ hli
    have hinode := hframe g j hne hl
    rw [icacheInode_eq hl he, icacheInode, lookup_none_of_empty hdrop hempty] at hinode
    cases hinode
  · intro hclear g j hne hl
    obtain ⟨hslot, e, he, hg⟩ := of_lookup hl
    obtain ⟨hj, hj16, hstop, hclose⟩ := (slotFor_iff hk hc.le_cap).mp hslot
    have hji : j ≠ i := by
      rintro rfl
      obtain rfl := Option.some.inj (hi.symm.trans he)
      exact hne hg.symm
    have he' : (icacheDrop c i).slots j = some e := (hslots hji).trans he
    have hdrop : slotFor (icacheDrop c i) 16 g = some j := by
      refine (slotFor_iff (c := icacheDrop c i) hk hc.le_cap).mpr
        ⟨hj, hj16, ?_, fun l hlc hlj ↦ hpass ?_ (hclose l hlc hlj)⟩
      · rwa [Stops, hslots hji]
      · rintro rfl
        exact hclear g j hl hlj
    have hl' : icacheLookup (icacheDrop c i) g = some j := by
      rw [icacheLookup_eq, hdrop, Option.filter_some_pos]
      rw [he']
      rfl
    rw [icacheInode_eq hl he, icacheInode_eq hl' he']

/-- In every run whose removals empty slots that no entry was moved past, no two entries have one
hash, and a further removal hides exactly the entries that were moved past the slot it empties. -/
theorem removals_frame {fs₀ : Fs} (h₀ : fs₀.icache = icacheInit) (hrun : CacheRun env Clear fs₀ fs) :
    (∀ i j e e', fs.icache.slots i = some e → fs.icache.slots j = some e' → e.hash = e'.hash →
      i = j) ∧
    ∀ (r : Removal) i e₀ fs', r.frees fs.icache = some i → fs.icache.slots i = some e₀ →
      r.run env fs = some ((), fs') →
      ((∀ g j, g ≠ e₀.hash → icacheLookup fs.icache g = some j →
        icacheInode fs'.icache g = icacheInode fs.icache g) ↔
      ∀ g j, icacheLookup fs.icache g = some j →
        ¬behind fs.icache g i < behind fs.icache g j) := by
  have hc : Probed fs.icache := Probed.run (h₀ ▸ probed_init) hrun
  refine ⟨fun i j e e' hi hj hh ↦ hc.unique hi hj hh, fun r i e₀ fs' hf hi hr ↦ ?_⟩
  have hdrop : fs'.icache = icacheDrop fs.icache i := by
    rw [Removal.run_icache hr, hf]
    rfl
  rw [hdrop]
  exact hc.drop_iff hi

end removals

section examples

/-- Two hashes with the home slot 0, the second moved on to slot 1. -/
def crowded : Icache := [putZero 0, putZero 1].foldl putTable icacheInit

theorem crowded_run (free : Icache → ℕ → Prop) :
    ∃ fs, CacheRun steady free coldFs fs ∧ fs.icache = crowded := by
  have hlt {p : Put} (c : Icache) (hc : c.count < icacheMaxEntries) (i : ℕ)
      (hf : (CacheOp.put p.hash p.key p.inode).frees c = some i) : free c i := by
    rw [CacheOp.frees, if_neg (Nat.not_le.mpr hc)] at hf
    cases hf
  obtain ⟨fs₁, h₁, hc₁⟩ :=
    @icachePut_putTable steady coldFs (fun _ ↦ rfl) (by decide) (putZero 0)
  have hcount : fs₁.icache.count < icacheMaxEntries := by
    rw [hc₁]
    decide
  obtain ⟨fs₂, h₂, hc₂⟩ := @icachePut_putTable steady fs₁ (fun _ ↦ rfl) hcount (putZero 1)
  refine ⟨fs₂, .step _ (.step _ (.refl coldFs) (hlt _ (by decide)) h₁) (hlt _ hcount) h₂, ?_⟩
  rw [hc₂, hc₁]
  rfl

theorem removals_frame_crowded : ∃ fs, CacheRun steady Clear coldFs fs ∧
    (∀ i j e e', fs.icache.slots i = some e → fs.icache.slots j = some e' → e.hash = e'.hash →
      i = j) ∧
    ∀ (r : Removal) i e₀ fs', r.frees fs.icache = some i → fs.icache.slots i = some e₀ →
      r.run steady fs = some ((), fs') →
      ((∀ g j, g ≠ e₀.hash → icacheLookup fs.icache g = some j →
        icacheInode fs'.icache g = icacheInode fs.icache g) ↔
      ∀ g j, icacheLookup fs.icache g = some j →
        ¬behind fs.icache g i < behind fs.icache g j) := by
  obtain ⟨fs, hrun, -⟩ := crowded_run Clear
  exact ⟨fs, hrun, removals_frame rfl hrun⟩

/-- Deleting the first of the two hides the second. -/
theorem deletion_hides : ¬∀ env fs₀ fs, fs₀.icache = icacheInit →
    CacheRun env (fun _ _ ↦ True) fs₀ fs → ∀ (r : Removal) i e₀ fs', r.frees fs.icache = some i →
      fs.icache.slots i = some e₀ → r.run env fs = some ((), fs') →
      ∀ g j, g ≠ e₀.hash → icacheLookup fs.icache g = some j →
        icacheInode fs'.icache g = icacheInode fs.icache g := by
  intro hall
  obtain ⟨fs, hrun, hc⟩ := crowded_run fun _ _ ↦ True
  have hfirst : icacheLookup crowded 0 = some 0 := by decide
  have hsecond : icacheLookup crowded 16384 = some 1 := by decide
  have hgone : icacheLookup (icacheDrop crowded 0) 16384 = none := by decide
  obtain ⟨-, e₀, he₀, hh⟩ := of_lookup hfirst
  obtain ⟨-, e₁, he₁, -⟩ := of_lookup hsecond
  have hdel : (Removal.del 0).run steady fs =
      some ((), { fs with icache := icacheDrop fs.icache 0 }) := by
    change icacheDel 0 fs = _
    simp only [icacheDel, bind_apply, get_apply, Option.bind_some, hc, hfirst, modify_apply]
  have hframe := hall steady coldFs fs rfl hrun (.del 0) 0 e₀ _
    (by rw [Removal.frees, hc, hfirst]) (by rw [hc, he₀]) hdel 16384 1
    (by rw [hh]; decide) (by rw [hc, hsecond])
  dsimp only at hframe
  rw [hc, icacheInode, hgone, icacheInode_eq hsecond he₁] at hframe
  cases hframe

end examples

end Xxfs.CacheProbes

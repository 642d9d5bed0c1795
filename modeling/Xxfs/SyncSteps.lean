import Xxfs.HandleSteps

namespace Xxfs.Soundness

open Function
open Xxfs.DiskFormat Xxfs.Machine Xxfs.Allocator Xxfs.PageCache Xxfs.PagedIndex Xxfs.PageStore
open Xxfs.InodeCache Xxfs.DirCache Xxfs.Volume Xxfs.Operations Xxfs.Hash Xxfs.PathName
open Xxfs.IndexRep Xxfs.CacheMap Xxfs.IndexState Xxfs.OperationFrames Xxfs.Checksum Xxfs.CacheKeys
open Xxfs.Frames Xxfs.Lib Xxfs.Lib.Computation Xxfs.Lib.Computation.Comp

/-- What writing back the inode cache does: dirty inodes are stored, with the time of then. -/
structure Stamped (env : Env) (m m' : Inodes) (fs fs' : Fs) : Prop where
  inodes : ∀ p, m' p = m p ∧ cell fs'.icache p = cell fs.icache p ∨
    ∃ n t, fs.clock ≤ t ∧ cell fs.icache p = some (n, true) ∧
      m' p = some (writebackInode n (env.time t)) ∧
      cell fs'.icache p = some (writebackInode n (env.time t), false)
  moves : Moves (ground m ∅ fs) fs fs'
  dcache : fs'.dcache = fs.dcache
  clock : fs.clock ≤ fs'.clock

section stamped

variable {env : Env} {K : Path → Prop} {m m₁ m₂ : Inodes} {fs fs₁ fs₂ : Fs}

theorem Stamped.refl (env : Env) (m : Inodes) (fs : Fs) : Stamped env m m fs fs :=
  ⟨fun _ ↦ .inl ⟨rfl, rfl⟩, .refl _ _, rfl, le_rfl⟩

theorem Stamped.seen (h : Stamped env m m₁ fs fs₁) (p : Path) :
    Soundness.seen m₁ fs₁ p = Soundness.seen m fs p ∨
      ∃ n t, fs.clock ≤ t ∧ cell fs.icache p = some (n, true) ∧ Soundness.seen m fs p = some n ∧
        Soundness.seen m₁ fs₁ p = some (writebackInode n (env.time t)) := by
  rcases h.inodes p with ⟨hm, hc⟩ | ⟨n, t, ht, hc, -, hc'⟩
  · refine .inl ?_
    rw [Soundness.seen, Soundness.seen, cur, cur, hc, hm]
  · refine .inr ⟨n, t, ht, hc, ?_, ?_⟩
    · rw [Soundness.seen, cur, hc]
      rfl
    · rw [Soundness.seen, cur, hc']
      rfl

theorem Stamped.extentOf (h : Stamped env m m₁ fs fs₁) (p : Path) :
    extentOf (Soundness.seen m₁ fs₁ p) = extentOf (Soundness.seen m fs p) := by
  rcases h.seen p with heq | ⟨n, t, -, -, hn, hn'⟩
  · rw [heq]
  · rw [hn, hn', extentOf_some, extentOf_some, (sameBody_writeback n (env.time t)).extent]

theorem Stamped.ground (h : Stamped env m m₁ fs fs₁) : ground m₁ ∅ fs₁ = ground m ∅ fs := by
  rw [Soundness.ground, Soundness.ground, claimed, claimed, h.moves.pdirOff,
    share_congr h.extentOf]

theorem Stamped.trans (h : Stamped env m m₁ fs fs₁) (h' : Stamped env m₁ m₂ fs₁ fs₂) :
    Stamped env m m₂ fs fs₂ := by
  have hM := h'.moves
  rw [h.ground] at hM
  refine ⟨fun p ↦ ?_, h.moves.trans hM, h'.dcache.trans h.dcache, h.clock.trans h'.clock⟩
  rcases h.inodes p with ⟨hm, hc⟩ | ⟨n, t, ht, hc, hm, hc₁⟩
  · rcases h'.inodes p with ⟨hm', hc'⟩ | ⟨n, t, ht, hc', hm', hc₂⟩
    · exact .inl ⟨hm'.trans hm, hc'.trans hc⟩
    · exact .inr ⟨n, t, h.clock.trans ht, hc.symm.trans hc', hm', hc₂⟩
  · rcases h'.inodes p with ⟨hm', hc'⟩ | ⟨x, t', ht', hc', hm', hc₂⟩
    · exact .inr ⟨n, t, ht, hc, hm'.trans hm, hc'.trans hc₁⟩
    · rw [hc₁] at hc'
      cases hc'

end stamped

section icache

variable {env : Env} (he : Healthy env) {K : Path → Prop} (hK : Names K) {m : Inodes} {fs fs' : Fs}

/-- The table of the inode cache with slot `i` written back. -/
structure SlotClean (i : ℕ) (c c' : Icache) : Prop where
  cap : c'.cap = c.cap
  others : ∀ j, j ≠ i → c'.slots j = c.slots j
  clean : ∀ e, c'.slots i = some e → e.dirty = false

/-- The table with the inode of a slot written back. -/
def writtenSlot (c : Icache) (i : ℕ) (e : IcacheEntry) (n : Inode) : Icache :=
  { c with slots := ProbeTable.store c.slots i (some { e with dirty := false, inode := n }) }

include he hK

/-- The inode of a path is stored, and its entry in the cache becomes clean. -/
theorem Sound.writtenBack (h : Sound K m ∅ fs) {k : Path} (hk : K k) {i : ℕ} {e : IcacheEntry}
    (hat : fs.icache.slots i = some e) (hkey : e.key = some k) {n : Inode} (hfits : Fits m ∅ ∅ fs k n) (hs : Sealed n)
    {rc : Rc} (hput : pagedPut env k (inodeToVal n) { fs with clock := fs.clock + 1 } = some (rc, fs'))
    (hl : Live fs') : fs'.icache = fs.icache ∧ fs'.dcache = fs.dcache ∧ fs.clock ≤ fs'.clock ∧
      ∃ c, c = writtenSlot fs.icache i e n ∧
        cell c = update (cell fs.icache) k (some (n, false)) ∧
        Moves (ground m ∅ fs) fs { fs' with icache := c } ∧
        Sound K (update m k (some n)) ∅ { fs' with icache := c } := by
  obtain ⟨L, hb⟩ := h.backed
  have hl₁ : Live { fs with clock := fs.clock + 1 } := hl.of_spent
    (pagedPut_indexOnly (P := fun _ ↦ True) env k trivial _ _ _ hput).spent
  have hb₁ : Backed K m (ground m ∅ fs) { fs with clock := fs.clock + 1 } L :=
    hb.same rfl rfl rfl rfl
  obtain ⟨rc₂, fs₃, hput', hgood⟩ := hb₁.pagedPut he hK hk hs hl₁
  obtain ⟨rfl, rfl⟩ := Prod.mk.inj (Option.some.inj (hput.symm.trans hput'))
  obtain ⟨-, hkept, L₂, hb₂⟩ := hgood hl
  obtain ⟨hset, hcell⟩ : Settled K (writtenSlot fs.icache i e n) ∧
      cell (writtenSlot fs.icache i e n) = update (cell fs.icache) k (some (n, false)) :=
    h.settled.touch hat hkey false n
  generalize writtenSlot fs.icache i e n = c at *
  have hM : Moves (ground m ∅ fs) fs { fs' with icache := c } :=
    ((Moves.caches _ fs fs.icache fs.dcache (fs.clock + 1)).trans (.of_kept hkept)).trans
      (.caches _ fs' c _ _)
  exact ⟨hkept.only.icache, hkept.only.dcache, (Nat.le_succ _).trans hkept.only.clock, c, rfl, hcell,
    hM, h.both hfits hset hcell hkept.only.dcache hM (hb₂.same rfl rfl rfl rfl)⟩

theorem Sound.flushInode (h : Sound K m ∅ fs) {i : ℕ}
    (hx : icacheFlushSlot env i fs = some ((), fs')) (hl : Live fs') :
    ∃ m', Sound K m' ∅ fs' ∧ Stamped env m m' fs fs' ∧ SlotClean i fs.icache fs'.icache := by
  simp only [icacheFlushSlot, bind_apply, get_apply, Option.bind_some] at hx
  cases hent : fs.icache.slots i with
  | none =>
    rw [hent] at hx
    obtain ⟨-, rfl⟩ := Prod.mk.inj (Option.some.inj hx)
    exact ⟨m, h, .refl env m fs, rfl, fun _ _ ↦ rfl, fun e he ↦ by rw [hent] at he; cases he⟩
  | some e =>
    rw [hent] at hx
    dsimp only at hx
    by_cases hd : e.dirty = true
    · obtain ⟨k, hk, hkey, -⟩ := h.settled.entry i e hent
      have hcell : cell fs.icache k = some (e.inode, true) :=
        h.settled.cell_iff.mpr ⟨i, e, hent, hkey, by rw [hd]⟩
      have hn : seen m fs k = some e.inode := by
        rw [seen, cur, hcell]
        rfl
      rw [if_pos hd] at hx
      obtain ⟨now, _, htime, hx⟩ := of_bind hx
      obtain ⟨rfl, rfl⟩ := Prod.mk.inj (Option.some.inj htime)
      obtain ⟨_, fs₃, hdis, hx⟩ := of_bind hx
      obtain ⟨⟨rc, fs₂⟩, hput, hfs⟩ := Option.bind_eq_some_iff.mp hdis
      obtain ⟨-, rfl⟩ := Prod.mk.inj (Option.some.inj hfs)
      have hfs' : fs' = { fs₂ with
          icache := writtenSlot fs₂.icache i e (writebackInode e.inode (env.time fs.clock)) } :=
        (Prod.mk.inj (Option.some.inj hx)).2.symm
      rw [hkey] at hput
      have hl₂ : Live fs₂ := by
        rw [hfs'] at hl
        exact ⟨hl.pool, hl.addr⟩
      obtain ⟨hicache, hdcache, hclock, c, hc, hcell₁, hM, hs⟩ := h.writtenBack he hK hk hent hkey
        (h.fits_same hn (sameBody_writeback e.inode (env.time fs.clock)))
        (sealed_writeback e.inode (env.time fs.clock)) hput hl₂
      rw [hicache, ← hc] at hfs'
      subst hfs'
      refine ⟨_, hs, ⟨fun p ↦ ?_, hM, hdcache, hclock⟩, ?_, fun j hj ↦ ?_, fun x hx ↦ ?_⟩
      · by_cases hp : p = k
        · subst hp
          refine .inr ⟨e.inode, fs.clock, le_rfl, hcell, update_self _ _ _, ?_⟩
          exact (congrFun hcell₁ p).trans (update_self _ _ _)
        · exact .inl ⟨update_of_ne hp _ _, (congrFun hcell₁ p).trans (update_of_ne hp _ _)⟩
      · rw [hc]
        rfl
      · rw [hc]
        exact ProbeTable.store_ne hj
      · rw [hc, writtenSlot] at hx
        have hslot : some { e with
            dirty := false, inode := writebackInode e.inode (env.time fs.clock) } = some x :=
          (ProbeTable.store_eq _ _ _).symm.trans hx
        obtain rfl := Option.some.inj hslot
        rfl
    · rw [if_neg hd] at hx
      obtain ⟨-, rfl⟩ := Prod.mk.inj (Option.some.inj hx)
      refine ⟨m, h, .refl env m fs, rfl, fun _ _ ↦ rfl, fun x hx ↦ ?_⟩
      obtain rfl := Option.some.inj (hent.symm.trans hx)
      simpa using hd

theorem Sound.flushInodes {l : List ℕ} (h : Sound K m ∅ fs)
    (hx : l.forM (icacheFlushSlot env) fs = some ((), fs')) (hl : Live fs') :
    ∃ m', Sound K m' ∅ fs' ∧ Stamped env m m' fs fs' ∧ fs'.icache.cap = fs.icache.cap ∧
      ∀ i ∈ l, ∀ e, fs'.icache.slots i = some e → e.dirty = false := by
  suffices hrun : ∃ m', Sound K m' ∅ fs' ∧ Stamped env m m' fs fs' ∧
      fs'.icache.cap = fs.icache.cap ∧ (∀ i ∈ l, ∀ e, fs'.icache.slots i = some e → e.dirty = false) ∧
        ∀ i, i ∉ l → fs'.icache.slots i = fs.icache.slots i by
    obtain ⟨m', hs, hst, hcap, hclean, -⟩ := hrun
    exact ⟨m', hs, hst, hcap, hclean⟩
  induction l generalizing m fs with
  | nil =>
    obtain ⟨-, rfl⟩ := Prod.mk.inj (Option.some.inj hx)
    exact ⟨m, h, .refl env m fs, rfl, fun i hi ↦ absurd hi List.not_mem_nil, fun _ _ ↦ rfl⟩
  | cons j l ih =>
    rw [forM_cons_apply] at hx
    obtain ⟨⟨_, fs₁⟩, hj, hx⟩ := Option.bind_eq_some_iff.mp hx
    have hl₁ : Live fs₁ :=
      live_before (spends_of_inside (.forM _ fun i ↦ icacheFlushSlot_inside env i)) hx hl
    obtain ⟨m₁, hs₁, hst₁, hslot⟩ := h.flushInode he hK hj hl₁
    obtain ⟨m', hs, hst, hcap, hclean, hrest⟩ := ih hs₁ hx
    refine ⟨m', hs, hst₁.trans hst, hcap.trans hslot.cap, fun i hi e hie ↦ ?_, fun i hi ↦ ?_⟩
    · by_cases hil : i ∈ l
      · exact hclean i hil e hie
      · obtain rfl := (List.mem_cons.mp hi).resolve_right hil
        rw [hrest i hil] at hie
        exact hslot.clean e hie
    · rw [List.mem_cons, not_or] at hi
      rw [hrest i hi.2, hslot.others i hi.1]

theorem Sound.flushesInodes (h : Sound K m ∅ fs) (hx : icacheFlushAll env fs = some ((), fs'))
    (hl : Live fs') : ∃ m', Sound K m' ∅ fs' ∧ Stamped env m m' fs fs' ∧
      ∀ p n d, cell fs'.icache p = some (n, d) → d = false := by
  simp only [icacheFlushAll, bind_apply, get_apply, Option.bind_some] at hx
  obtain ⟨m', hs, hst, hcap, hclean⟩ := h.flushInodes he hK hx hl
  refine ⟨m', hs, hst, fun p n d hp ↦ ?_⟩
  obtain ⟨i, e, hi, -, hnd⟩ := hs.settled.cell_iff.mp hp
  obtain ⟨-, rfl⟩ := Prod.mk.inj hnd
  have hlt := hs.settled.lt_cap hi
  rw [hcap] at hlt
  exact hclean i (List.mem_range.mpr hlt) e hi

end icache

section dcache

variable {env : Env} (he : Healthy env) {K : Path → Prop} (hK : Names K) {m : Inodes} {fs fs' : Fs}

/-- The directories whose changed listings are only in the directory cache. -/
def dirtyDirs (fs : Fs) : Set Path := { q | ∃ i, q ∈ dirtyAt fs i }

theorem dcIndex_lt (p : Path) : dcIndex p < dirCacheSize := by
  rw [dcIndex, UInt64.toNat_and]
  exact Nat.lt_succ_of_le Nat.and_le_right

def flushListing (env : Env) (i : ℕ) : FsM Unit := do
  let fs ← FsM.get
  if (fs.dcache i).dirty then dcacheFlushEntry env i

theorem flushListing_inside (env : Env) (i : ℕ) : Within Inside (flushListing env i) :=
  .bind .get fun _ ↦ .ite (fun _ ↦ dcacheFlushEntry_inside env i) fun _ ↦ .pure _

def SameSlots (fs fs' : Fs) : Prop :=
  ∀ i, (fs'.dcache i).valid = (fs.dcache i).valid ∧ (fs'.dcache i).path = (fs.dcache i).path ∧
    (fs'.dcache i).children = (fs.dcache i).children

theorem SameSlots.refl (fs : Fs) : SameSlots fs fs := fun _ ↦ ⟨rfl, rfl, rfl⟩

theorem SameSlots.trans {fs₁ fs₂ : Fs} (h : SameSlots fs fs₁) (h' : SameSlots fs₁ fs₂) :
    SameSlots fs fs₂ :=
  fun i ↦ ⟨(h' i).1.trans (h i).1, (h' i).2.1.trans (h i).2.1, (h' i).2.2.trans (h i).2.2⟩

theorem SameSlots.found (h : SameSlots fs fs') (q : Path) :
    (dcacheFind fs' q).map DirCacheEntry.children = (dcacheFind fs q).map DirCacheEntry.children := by
  obtain ⟨hv, hp, hc⟩ := h (dcIndex q)
  rw [dcacheFind, dcacheFind, hv, hp]
  split
  · exact congrArg some hc
  · rfl

include he hK

theorem Sound.flushListing (h : Sound K m ∅ fs) {i : ℕ}
    (hx : Soundness.flushListing env i fs = some ((), fs')) (hl : Live fs') :
    ∃ m', Sound K m' ∅ fs' ∧ Rewrites (dirtyAt fs i) m m' fs fs' ∧
      (∀ j, j ≠ i → fs'.dcache j = fs.dcache j) ∧ SameSlots fs fs' ∧
      (∀ q ∈ dirtyAt fs i, ∀ n, m q = some n →
        ∃ n', m' q = some n' ∧ Rewritten env (fs.dcache i).children n n') ∧
      (∀ q ∈ dirtyAt fs' i, q ∈ dirtyAt fs i ∧ m' q = none) := by
  simp only [Soundness.flushListing, bind_apply, get_apply, Option.bind_some, if_apply] at hx
  split at hx
  · obtain ⟨m', hs, hR, hrest, hstores, hslot⟩ := h.flushEntry he hK hx hl
    have hsame : SameSlots fs fs' := by
      intro j
      by_cases hj : j = i
      · rw [hj]
        rcases hslot with hclean | ⟨hsame, -⟩
        · rw [hclean]
          exact ⟨rfl, rfl, rfl⟩
        · rw [hsame]
          exact ⟨rfl, rfl, rfl⟩
      · rw [hrest j hj]
        exact ⟨rfl, rfl, rfl⟩
    refine ⟨m', hs, hR, hrest, hsame, hstores, fun q hq ↦ ?_⟩
    obtain ⟨hv, hd, rfl⟩ := hq
    rcases hslot with hclean | ⟨hsame, hnone⟩
    · rw [hclean] at hd
      cases hd
    · rw [hsame] at hv hd ⊢
      refine ⟨⟨hv, hd, rfl⟩, ?_⟩
      have hk := hR.toEffect.kind (Set.notMem_empty (fs.dcache i).path)
      rw [kind, kind, hnone hv hd] at hk
      exact Option.map_eq_none_iff.mp hk
  · rename_i hd
    obtain ⟨-, rfl⟩ := Prod.mk.inj (Option.some.inj hx)
    exact ⟨m, h, .refl _ m fs, fun _ _ ↦ rfl, .refl fs, fun q hq ↦ absurd hq.2.1 hd,
      fun q hq ↦ absurd hq.2.1 hd⟩

theorem Sound.flushListings {l : List ℕ} (h : Sound K m ∅ fs)
    (hx : l.forM (Soundness.flushListing env) fs = some ((), fs')) (hl : Live fs') :
    ∃ m', Sound K m' ∅ fs' ∧ Rewrites (dirtyDirs fs) m m' fs fs' ∧
      (∀ i, i ∉ l → fs'.dcache i = fs.dcache i) ∧ SameSlots fs fs' ∧
      (∀ i ∈ l, ∀ q ∈ dirtyAt fs i, ∀ n, m q = some n →
        ∃ n', m' q = some n' ∧ Rewritten env (fs.dcache i).children n n') ∧
      ∀ i, ∀ q ∈ dirtyAt fs' i, q ∈ dirtyAt fs i ∧ (i ∈ l → m' q = none) := by
  induction l generalizing m fs with
  | nil =>
    obtain ⟨-, rfl⟩ := Prod.mk.inj (Option.some.inj hx)
    exact ⟨m, h, .refl _ m fs, fun _ _ ↦ rfl, .refl fs, fun i hi ↦ absurd hi List.not_mem_nil,
      fun i q hq ↦ ⟨hq, fun hi ↦ absurd hi List.not_mem_nil⟩⟩
  | cons j l ih =>
    rw [forM_cons_apply] at hx
    obtain ⟨⟨_, fs₁⟩, hj, hx⟩ := Option.bind_eq_some_iff.mp hx
    have hl₁ : Live fs₁ :=
      live_before (spends_of_inside (.forM _ fun i ↦ flushListing_inside env i)) hx hl
    obtain ⟨m₁, hs₁, hR₁, hrest₁, hsame₁, hstores₁, hslot⟩ := h.flushListing he hK hj hl₁
    obtain ⟨m', hs, hR, hrest, hsame, hstores, hdone⟩ := ih hs₁ hx
    have hback (i : ℕ) (q : Path) (hq : q ∈ dirtyAt fs₁ i) : q ∈ dirtyAt fs i := by
      by_cases hij : i = j
      · subst hij
        exact (hslot q hq).1
      · rwa [dirtyAt, hrest₁ i hij] at hq
    have hsub : dirtyDirs fs₁ ⊆ dirtyDirs fs := fun q hq ↦ hq.imp fun i ↦ hback i q
    have hat : dirtyAt fs j ⊆ dirtyDirs fs := fun q hq ↦ ⟨j, hq⟩
    -- a directory is listed in one slot only
    have hslots (i : ℕ) (q : Path) (hq : q ∈ dirtyAt fs i) : dcIndex q = i := by
      obtain ⟨hv, -, rfl⟩ := hq
      exact (h.listings.named i hv).2
    refine ⟨m', hs, (hR₁.mono hat).trans (hR.mono hsub) h.coherent, fun i hi ↦ ?_,
      hsame₁.trans hsame, fun i hi q hq n hn ↦ ?_, fun i q hq ↦ ?_⟩
    · rw [List.mem_cons, not_or] at hi
      rw [hrest i hi.2, hrest₁ i hi.1]
    · by_cases hij : i = j
      · subst hij
        obtain ⟨n', hn', hr⟩ := hstores₁ q hq n hn
        refine ⟨n', ?_, hr⟩
        rcases hR.inodes q (Set.notMem_empty q) with ⟨hm, -⟩ | ⟨⟨k, hk⟩, -⟩
        · exact hm.trans hn'
        · obtain rfl : i = k := (hslots i q hq).symm.trans (hslots k q (hback k q hk))
          rw [(hslot q hk).2] at hn'
          cases hn'
      · have hn₁ : m₁ q = some n := by
          rcases hR₁.inodes q (Set.notMem_empty q) with ⟨hm, -⟩ | ⟨hk, -⟩
          · exact hm.trans hn
          · exact (hij ((hslots i q hq).symm.trans (hslots j q hk))).elim
        have hq₁ : q ∈ dirtyAt fs₁ i := by rwa [dirtyAt, hrest₁ i hij]
        have hst := hstores i ((List.mem_cons.mp hi).resolve_left hij) q hq₁ n hn₁
        rwa [hrest₁ i hij] at hst
    · obtain ⟨hq₁, hnone⟩ := hdone i q hq
      refine ⟨hback i q hq₁, fun hi ↦ ?_⟩
      by_cases hil : i ∈ l
      · exact hnone hil
      · obtain rfl := (List.mem_cons.mp hi).resolve_right hil
        have hk := hR.toEffect.kind (Set.notMem_empty q)
        rw [kind, kind, (hslot q hq₁).2] at hk
        exact Option.map_eq_none_iff.mp hk

/-- `dcache_flush_all`: what stays dirty are listings of directories that do not exist. -/
theorem Sound.flushesListings (h : Sound K m ∅ fs) (hx : dcacheFlushAll env fs = some ((), fs'))
    (hl : Live fs') : ∃ m', Sound K m' ∅ fs' ∧ Rewrites (dirtyDirs fs) m m' fs fs' ∧
      SameSlots fs fs' ∧
      (∀ q ∈ dirtyDirs fs, ∀ n, m q = some n →
        ∃ n', m' q = some n' ∧ Rewritten env (fs.dcache (dcIndex q)).children n n') ∧
      ∀ q ∈ dirtyDirs fs', m' q = none := by
  obtain ⟨m', hs, hR, -, hsame, hstores, hdone⟩ :=
    h.flushListings he hK (l := List.range dirCacheSize) hx hl
  refine ⟨m', hs, hR, hsame, fun q ⟨i, hq⟩ n hn ↦ ?_, fun q ⟨i, hq⟩ ↦ (hdone i q hq).2 ?_⟩
  · have hi : dcIndex q = i := by
      obtain ⟨hv, -, rfl⟩ := hq
      exact (h.listings.named i hv).2
    rw [hi]
    exact hstores i (List.mem_range.mpr (hi ▸ dcIndex_lt q)) q hq n hn
  · rw [List.mem_range, ← (hs.listings.named i hq.1).2]
    exact dcIndex_lt _

end dcache

/-- The paths whose inodes in the cache are dirty. -/
def dirtyInodes (fs : Fs) : Set Path := { p | ∃ n, cell fs.icache p = some (n, true) }

/-- What `xxfs_sync` does: files keep their bodies and directories their listings, and afterwards
the cached inodes are the stored ones. -/
structure Synced (env : Env) (m m' : Inodes) (fs fs' : Fs) : Prop
    extends Effect (dirtyInodes fs) ∅ (dirtyDirs fs) m m' fs fs' where
  kinds : ∀ p, Soundness.kind m' p = Soundness.kind m p
  listings : ∀ p, Soundness.kind m p = some ftDir → Soundness.listing m' fs' p =
    Soundness.listing m fs p
  files : ∀ p n, Soundness.seen m fs p = some n → (n.iFileType = ftDir → p ∉ dirtyDirs fs) →
    (∃ n', Soundness.seen m' fs' p = some n' ∧ SameBody n n') ∧
      ∀ i ∈ extent n, fs'.img.data i = fs.img.data i
  level : ∀ p, Soundness.seen m' fs' p = m' p
  stamped : ∀ p n, cell fs.icache p = some (n, true) → p ∉ dirtyDirs fs →
    ∃ t, fs.clock ≤ t ∧ Soundness.seen m' fs' p = some (writebackInode n (env.time t))
  flushed : ∀ q ∈ dirtyDirs fs', m' q = none
  found : ∀ q, (dcacheFind fs' q).map DirCacheEntry.children =
    (dcacheFind fs q).map DirCacheEntry.children
  count : fs'.sb.sInodesCount = fs.sb.sInodesCount

theorem Synced.cached {env : Env} {m m' : Inodes} {fs fs' : Fs} (h : Synced env m m' fs fs')
    {q : Path} (hq : dcacheFind fs' q ≠ none) : dcacheFind fs q ≠ none := by
  intro hnone
  have hfound := h.found q
  rw [hnone] at hfound
  exact hq (Option.map_eq_none_iff.mp hfound)

section sync

variable {env : Env} {K : Path → Prop} {m m' : Inodes} {fs fs' : Fs} (h : Sound K m ∅ fs)
include h

theorem Sound.effect_stamped (hst : Stamped env m m' fs fs') :
    Effect (dirtyInodes fs) ∅ ∅ m m' fs fs' := by
  refine h.effect_ground _ ∅ (fun p hp ↦ ?_) (fun p hp ↦ ?_) hst.dcache hst.moves
  · rcases hst.inodes p with ⟨hm, -⟩ | ⟨n, _, _, hc, -⟩
    · exact hm
    · exact (hp ⟨n, hc⟩).elim
  · rcases hst.seen p with hs | ⟨n, _, _, hc, -⟩
    · exact hs
    · exact (hp ⟨n, hc⟩).elim

theorem Sound.stamped_dir (hst : Stamped env m m' fs fs') {p : Path} {n : Inode}
    (hn : m p = some n) (ht : n.iFileType = ftDir) : ∃ n', m' p = some n' ∧ SameBody n n' := by
  rcases hst.inodes p with ⟨hm, -⟩ | ⟨x, t, _, hc, hm, -⟩
  · exact ⟨n, hm.trans hn, rfl, rfl, rfl, rfl⟩
  · obtain ⟨z, hz, htz, hsame⟩ := h.coherent p x true hc
    obtain rfl := Option.some.inj (hn.symm.trans hz)
    obtain rfl := hsame (.inl (htz.symm.trans ht))
    exact ⟨_, hm, sameBody_writeback _ _⟩

theorem Sound.stamped_listing (hst : Stamped env m m' fs fs') {p : Path}
    (hp : kind m p = some ftDir) : listing m' fs' p = listing m fs p := by
  obtain ⟨n, hn, ht⟩ := kind_some hp
  obtain ⟨n', hn', hb⟩ := h.stamped_dir hst hn ht
  have hseen := cur_dir (h.coherent p) hn ht
  have hdisk : diskChildren fs'.img n' = diskChildren fs.img n := by
    rw [hb.diskChildren]
    exact h.diskChildren_eq hn ht fun i hi ↦ hst.moves.data i (extent_subset hseen hi)
  rw [listing, listing, dcacheFind_congr hst.dcache, hn, hn', Option.map_some, Option.map_some, hdisk]

theorem Sound.stamped_kind (hst : Stamped env m m' fs fs') (p : Path) : kind m' p = kind m p := by
  rcases hst.inodes p with ⟨hm, -⟩ | ⟨x, t, _, hc, hm, -⟩
  · rw [kind, kind, hm]
  · obtain ⟨z, hz, htz, -⟩ := h.coherent p x true hc
    rw [kind, kind, hm, hz, Option.map_some, Option.map_some, (sameBody_writeback x _).type, htz]

/-- The inode cache is written back first, then the listings, then the rest. -/
theorem Sound.synced {m₁ : Inodes} {fs₁ fs₂ : Fs} (hst : Stamped env m m₁ fs fs₁)
    (hs₁ : Sound K m₁ ∅ fs₁) (hclean : ∀ p n d, cell fs₁.icache p = some (n, d) → d = false)
    (hR : Rewrites (dirtyDirs fs₁) m₁ m' fs₁ fs₂) (hs₂ : Sound K m' ∅ fs₂)
    (hsame : SameSlots fs₁ fs₂) (hdone : ∀ q ∈ dirtyDirs fs₂, m' q = none)
    (hL : Looked K m' fs₂ fs') : Synced env m m' fs fs' := by
  have hdirs : dirtyDirs fs₁ = dirtyDirs fs := by
    rw [dirtyDirs, dirtyDirs]
    simp only [dirtyAt, hst.dcache]
  have hdirs' : dirtyDirs fs' = dirtyDirs fs₂ := by
    rw [dirtyDirs, dirtyDirs]
    simp only [dirtyAt, hL.dcache]
  rw [hdirs] at hR
  have hE := (h.effect_stamped hst).mono subset_rfl subset_rfl (Set.empty_subset (dirtyDirs fs))
  have hE₁ := hR.toEffect.mono (Set.empty_subset (dirtyInodes fs)) subset_rfl subset_rfl
  have hE₂ := hL.effect.mono (Set.empty_subset (dirtyInodes fs)) subset_rfl
    (Set.empty_subset (dirtyDirs fs))
  have hkind (p : Path) : kind m' p = kind m p :=
    (hR.toEffect.kind (Set.notMem_empty p)).trans (h.stamped_kind hst p)
  refine ⟨(hE.trans hE₁ h.coherent).trans hE₂ h.coherent, hkind, fun p hp ↦ ?_, fun p n hn ht ↦ ?_,
    fun p ↦ ?_, fun p n hc hp ↦ ?_, fun q hq ↦ hdone q (hdirs' ▸ hq), fun q ↦ ?_, ?_⟩
  · obtain ⟨n₁, hn₁, ht₁⟩ := kind_some ((h.stamped_kind hst p).trans hp)
    calc listing m' fs' p = listing m' fs₂ p := hL.listing ((hkind p).trans hp)
      _ = listing m₁ fs₁ p :=
        hR.toEffect.listing p n₁ (Set.notMem_empty p) (Set.notMem_empty p) hn₁ ht₁
      _ = listing m fs p := h.stamped_listing hst hp
  · obtain ⟨n₁, hn₁, hb⟩ : ∃ n₁, seen m₁ fs₁ p = some n₁ ∧ SameBody n n₁ := by
      rcases hst.seen p with hs | ⟨x, t, -, -, hx, hx'⟩
      · exact ⟨n, hs.trans hn, rfl, rfl, rfl, rfl⟩
      · obtain rfl := Option.some.inj (hn.symm.trans hx)
        exact ⟨_, hx', sameBody_writeback _ _⟩
    have ht₁ (hd : n₁.iFileType = ftDir) : p ∉ dirtyDirs fs := ht (hb.type.symm.trans hd)
    have hn₂ := (hR.toEffect.stays hs₁.coherent (Set.notMem_empty p) hn₁ ht₁).2
    refine ⟨⟨n₁, by rw [hL.seen]; exact hn₂, hb⟩, fun i hi ↦ ?_⟩
    have hi₁ : i ∈ extent n₁ := by rwa [hb.extent]
    calc fs'.img.data i = fs₂.img.data i := hL.effect.data p n₁ (Set.notMem_empty p) hn₂
          (fun _ ↦ Set.notMem_empty p) i hi₁
      _ = fs₁.img.data i := hR.toEffect.data p n₁ (Set.notMem_empty p) hn₁ ht₁ i hi₁
      _ = fs.img.data i := hst.moves.data i (extent_subset hn hi)
  · rw [hL.seen]
    rcases hR.toEffect.inodes p (Set.notMem_empty p) with ⟨hm, hs⟩ | ⟨-, -, n, -, -, hn, hn'⟩
    · rw [hm, hs, seen, cur]
      cases hc : cell fs₁.icache p with
      | none => rfl
      | some x =>
        obtain ⟨z, hz, -, hsame⟩ := hs₁.coherent p x.1 x.2 hc
        rw [hz, hsame (.inr (hclean p x.1 x.2 hc))]
        rfl
    · rw [hn']
      exact cur_dir (hs₂.coherent p) hn' hn
  · have hnow : ∃ t, fs.clock ≤ t ∧ seen m₁ fs₁ p = some (writebackInode n (env.time t)) := by
      rcases hst.inodes p with ⟨-, hc₁⟩ | ⟨x, t, ht, hc', -, hc₁⟩
      · exact absurd (hclean p n true (hc₁.trans hc)) (by decide)
      · obtain ⟨rfl, -⟩ := Prod.mk.inj (Option.some.inj (hc.symm.trans hc'))
        refine ⟨t, ht, ?_⟩
        rw [seen, cur, hc₁]
        rfl
    obtain ⟨t, ht, hnow⟩ := hnow
    refine ⟨t, ht, ?_⟩
    rw [hL.seen]
    rcases hR.toEffect.inodes p (Set.notMem_empty p) with ⟨-, hs⟩ | ⟨hw, -⟩
    · exact hs.trans hnow
    · exact (hp hw).elim
  · rw [dcacheFind_congr hL.dcache, hsame.found q, dcacheFind_congr hst.dcache]
  · rw [hL.count, hR.moves.inodes, hst.moves.inodes]

omit h in
theorem Synced.relock {l : Lock} (hS : Synced env m m' { fs with lock := l } fs') :
    Synced env m m' fs fs' :=
  ⟨hS.toEffect.start rfl rfl rfl, hS.kinds,
    fun p hp ↦ (hS.listings p hp).trans (listing_relock m fs l p), hS.files, hS.level, hS.stamped,
    hS.flushed, hS.found, hS.count⟩

end sync

/-- The end of `xxfs_sync` and of `xxfs_umount`. -/
def writeOut (env : Env) : FsM Unit := do
  pcacheFlushAll env
  superWrite env
  discard tick
  fsWunlock

theorem writeOut_spends (env : Env) : Within Spends (writeOut env) :=
  .bind (spends_of_index (pcacheFlushAll_indexOnly env)) fun _ ↦
    .bind (spends_of_index (superWrite_indexOnly env)) fun _ ↦
      .bind (spends_of_index (discard_indexOnly tick_indexOnly)) fun _ ↦ wreturn_spends ()

section out

variable {env : Env} (he : Healthy env) {K : Path → Prop} {m : Inodes} {fs fs' : Fs}
  (h : Sound K m ∅ fs)
include he h

theorem Sound.writeOut : ∃ fs', Soundness.writeOut env fs = some ((), fs') ∧ Looked K m fs fs' ∧
    (Live fs → Live fs') ∧ Mountable fs' ∧ ∀ i < pcacheSize, PageClean (fs'.pcache i) := by
  obtain ⟨fs₁, hx₁, hs₁, hk, hsb, hclean⟩ := h.flushPages he
  obtain ⟨fs₂, hx₂, hs₂, hE, hmount, ho⟩ := hs₁.superWrite he
  obtain ⟨l, hl⟩ := unlocked_eq .write { fs₂ with clock := fs₂.clock + 1 } ()
  refine ⟨{ fs₂ with clock := fs₂.clock + 1, lock := l }, ?_, ?_, fun hl ↦ ?_, ?_, fun i hi ↦ ?_⟩
  · rw [Soundness.writeOut, bind_apply, hx₁, Option.bind_some, bind_apply, hx₂, Option.bind_some]
    exact hl
  · have hL : Looked K m fs₁ fs₂ := ⟨hs₂, hE, ho.only.dcache, ho.only.inodes⟩
    have hlast : Looked K m fs₂ { fs₂ with clock := fs₂.clock + 1, lock := l } :=
      hs₂.looked_same rfl rfl rfl rfl rfl rfl
    exact ((h.looked_kept hk hs₁).trans hL h.coherent).trans hlast h.coherent
  · have hl₁ : Live fs₁ := hl.of_sb hsb
    have hfront : front fs₂.sb = front fs₁.sb := by rw [front, front, ho.off, ho.count, ho.free]
    exact ⟨by rw [ho.free]; exact hl₁.pool, by rw [hfront]; exact hl₁.addr⟩
  · exact ⟨hmount.super, hmount.size, hmount.sealed, hmount.dirSize, hmount.dirDepth, hmount.dir,
      hmount.dirEnd⟩
  · rw [ho.pcache]
    exact hclean i hi

variable (hK : Names K)
include hK

theorem Sound.sync {rc : Rc} (hx : xxfsSync env fs = some (rc, fs')) (hl : Live fs') :
    rc = .ok ∧ ∃ m', Sound K m' ∅ fs' ∧ Synced env m m' fs fs' := by
  obtain ⟨l, hx⟩ := locked_cases hx
  obtain ⟨_, fs₁, hx₁, hx⟩ := of_bind hx
  obtain ⟨_, fs₂, hx₂, hx⟩ := of_bind hx
  have hout : (Soundness.writeOut env fs₂).bind (fun p ↦ some (Rc.ok, p.2)) = some (rc, fs') := by
    rw [← hx, Soundness.writeOut]
    simp only [bind_apply, Option.bind_assoc]
    rfl
  obtain ⟨⟨_, fs₃⟩, hx₃, hrc⟩ := Option.bind_eq_some_iff.mp hout
  obtain ⟨rfl, rfl⟩ := Prod.mk.inj (Option.some.inj hrc)
  have hl₂ : Live fs₂ := live_before (writeOut_spends env) hx₃ hl
  have hl₁ : Live fs₁ := live_before (spends_of_inside (dcacheFlushAll_inside env)) hx₂ hl₂
  obtain ⟨m₁, hs₁, hst, hclean⟩ := (h.relock l).sound.flushesInodes he hK hx₁ hl₁
  obtain ⟨m', hs₂, hR, hsame, -, hdone⟩ := hs₁.flushesListings he hK hx₂ hl₂
  obtain ⟨fs₄, hx₄, hL, -⟩ := hs₂.writeOut he
  obtain ⟨-, rfl⟩ := Prod.mk.inj (Option.some.inj (hx₃.symm.trans hx₄))
  exact ⟨rfl, m', hL.sound, ((h.relock l).sound.synced hst hs₁ hclean hR hs₂ hsame hdone hL).relock⟩

end out

end Xxfs.Soundness

import Xxfs.ListingSteps

namespace Xxfs.Soundness

open Function
open Xxfs.DiskFormat Xxfs.Machine Xxfs.Allocator Xxfs.PagedIndex Xxfs.PageStore Xxfs.InodeCache
open Xxfs.DirCache Xxfs.Volume Xxfs.Operations Xxfs.Hash Xxfs.PathName Xxfs.IndexRep Xxfs.CacheMap
open Xxfs.IndexState Xxfs.OperationFrames Xxfs.Checksum Xxfs.CacheKeys Xxfs.Frames
open Xxfs.Lib Xxfs.Lib.Computation Xxfs.Lib.Computation.Comp

/-- The state with another entry in a slot of the directory cache. -/
def withListing (fs : Fs) (idx : ℕ) (e : DirCacheEntry) : Fs :=
  { fs with dcache := fun i ↦ if i = idx then e else fs.dcache i }

section load

variable {env : Env} (he : Healthy env) {fs : Fs} {p : Path} {n : Inode}
include he

omit he in
theorem decodeChildren_read {img : Image} (hn : Shape img.size n) (ht : n.iFileType = ftDir)
    (hs : n.iSize ≠ 0) (ho : n.iExtentOff ≠ 0) (junk : ℕ → UInt8) :
    decodeChildren (fun i ↦ if i < min n.iSize.toNat (img.size - n.iExtentOff.toNat) then
      img.data (n.iExtentOff.toNat + i) else junk i) (n.iSize.toNat / dirChildSize % 2 ^ 32) =
      diskChildren img n := by
  rw [diskChildren, if_neg (by simp [hs, ho])]
  refine decodeChildren_congr le_rfl fun j hj ↦ ?_
  rcases hn.dir ht with ⟨-, h0, -⟩ | ⟨hone, k, hk, hsz⟩
  · exact (ho h0).elim
  · have hfill := hn.filled (by rw [hone]; decide)
    have hle : n.iSize.toNat / dirChildSize % 2 ^ 32 * dirChildSize ≤ n.iSize.toNat :=
      (Nat.mul_le_mul_right _ (Nat.mod_le _ _)).trans (Nat.div_mul_le_self _ _)
    rw [if_pos (by omega)]

/-- What is loaded for a directory with an extent, whatever its size says. -/
theorem loadChildren_read (hc : 0 < n.iSize ∧ n.iExtentOff ≠ 0) (hb : n.iExtentOff.toNat < 2 ^ 63) :
    loadChildren env p n fs = some ((), { withListing fs (dcIndex p)
      ⟨p, decodeChildren (fun i ↦ if i < min n.iSize.toNat (fs.img.size - n.iExtentOff.toNat) then
        fs.img.data (n.iExtentOff.toNat + i) else env.junk fs.clock i)
        (n.iSize.toNat / dirChildSize % 2 ^ 32), n.iSize.toNat / dirChildSize % 2 ^ 32, false, true⟩
      with clock := fs.clock + 2 }) := by
  simp only [loadChildren, hc, ne_eq, not_false_eq_true, and_self, ↓reduceIte, bind_apply,
    get_apply, Option.bind_some, he.osAlloc_apply, he.osPread_apply _ _ _ hb, setDcache,
    modify_apply, withListing]

/-- `loadChildren` on the empty entry that `dcacheAlloc` leaves. -/
theorem loadChildren_apply (hslot : fs.dcache (dcIndex p) = ⟨p, [], 0, false, true⟩)
    (hn : Shape fs.img.size n) (ht : n.iFileType = ftDir) (hb : n.iExtentOff.toNat < 2 ^ 63) :
    ∃ cap t, loadChildren env p n fs = some ((), { withListing fs (dcIndex p)
      ⟨p, diskChildren fs.img n, cap, false, true⟩ with clock := t }) := by
  by_cases hc : 0 < n.iSize ∧ n.iExtentOff ≠ 0
  · have hs : n.iSize ≠ 0 := fun h0 ↦ by simp [h0] at hc
    refine ⟨n.iSize.toNat / dirChildSize % 2 ^ 32, fs.clock + 2, ?_⟩
    rw [← decodeChildren_read hn ht hs hc.2 (env.junk fs.clock), loadChildren_read he hc hb]
  · have hnil : diskChildren fs.img n = [] := by
      rw [diskChildren, if_pos]
      by_contra hno
      rw [not_or] at hno
      refine hc ⟨?_, hno.2⟩
      exact UInt64.pos_iff_ne_zero.mpr hno.1
    refine ⟨0, fs.clock, ?_⟩
    rw [hnil, loadChildren, if_neg hc, pure_apply, withListing]
    have hsame : (fun i ↦ if i = dcIndex p then ⟨p, [], 0, false, true⟩ else fs.dcache i) =
        fs.dcache := by
      funext i
      split
      · rename_i hi
        rw [hi, hslot]
      · rfl
    rw [hsame]

end load

section claim

theorem withListing_moves (fs : Fs) (idx : ℕ) (e : DirCacheEntry) (t : ℕ) :
    Moves ∅ fs { withListing fs idx e with clock := t } :=
  ⟨rfl, rfl, rfl, ⟨0, UInt64.zero_le, by rw [taken_zero]; rfl⟩, fun _ h ↦ h.elim, fun _ _ ↦ rfl, le_rfl⟩

theorem rewrites_withListing {m : Inodes} {fs : Fs} {idx : ℕ} {e : DirCacheEntry}
    (h : ∀ q x, m q = some x → x.iFileType = ftDir →
      listing m (withListing fs idx e) q = listing m fs q) (t : ℕ) :
    Rewrites ∅ m m fs { withListing fs idx e with clock := t } :=
  ⟨⟨fun _ _ ↦ .inl ⟨rfl, rfl⟩, fun q x _ _ hx ht ↦ (listing_clock m _ t q).trans (h q x hx ht),
    fun _ _ _ _ _ _ _ ↦ rfl⟩, withListing_moves fs idx e t⟩

variable {K : Path → Prop} {m : Inodes} {fs : Fs} (h : Sound K m ∅ fs) {p : Path} {n : Inode}
include h

theorem Sound.clockTo (t : ℕ) : Sound K m ∅ { fs with clock := t } :=
  h.same rfl rfl rfl rfl rfl ⟨rfl, rfl, rfl, rfl, rfl⟩

theorem Sound.few_diskChildren (hn : m p = some n) (ht : n.iFileType = ftDir) :
    (diskChildren fs.img n).length ≤ 15 := by
  rcases (h.owned.shape p n (cur_dir (h.coherent p) hn ht)).dir ht with ⟨-, -, h0⟩ | ⟨-, k, hk, hs⟩
  · rw [diskChildren, if_pos (.inl h0)]
    exact Nat.zero_le _
  · rw [diskChildren]
    split
    · exact Nat.zero_le _
    · rw [decodeChildren, List.length_map, List.length_range, hs,
        Nat.mul_div_cancel_left _ (by decide)]
      exact (Nat.mod_le _ _).trans hk

theorem Sound.evict_listing {idx : ℕ} (hold : (fs.dcache idx).valid = true →
    (fs.dcache idx).dirty = true → m (fs.dcache idx).path = none) {e : DirCacheEntry} {q : Path}
    {x : Inode} (hx : m q = some x) (hq : ¬(e.valid = true ∧ e.path = q)) :
    listing m (withListing fs idx e) q = listing m fs q := by
  rw [listing, listing, withListing, dcacheFind_set]
  by_cases hidx : dcIndex q = idx
  · rw [if_pos hidx, if_neg hq]
    dsimp only
    rw [dcacheFind, hidx]
    split
    · rename_i e he
      split at he
      · rename_i hv
        obtain rfl := Option.some.inj he
        have hclean : (fs.dcache idx).dirty = false := by
          by_contra hd
          have := hold hv.1 (by simpa using hd)
          rw [hv.2, hx] at this
          cases this
        rw [hx, Option.map_some, h.listings.clean _ x hv.1 hclean (hv.2.symm ▸ hx)]
      · cases he
    · rfl
  · rw [if_neg hidx]

theorem Sound.claim_listing (hn : m p = some n) {idx : ℕ} (hidx : dcIndex p = idx)
    (hfind : dcacheFind fs p = none)
    (hold : (fs.dcache idx).valid = true → (fs.dcache idx).dirty = true →
      m (fs.dcache idx).path = none) (cap : ℕ) {q : Path} {x : Inode} (hx : m q = some x) :
    listing m (withListing fs idx ⟨p, diskChildren fs.img n, cap, false, true⟩) q =
      listing m fs q := by
  by_cases hqp : q = p
  · rw [hqp, listing, listing, withListing, dcacheFind_set, if_pos hidx, if_pos ⟨rfl, rfl⟩, hfind,
      hn, Option.map_some]
  · exact h.evict_listing hold hx fun hc ↦ hqp hc.2.symm

/-- A slot of the directory cache goes from a directory that is written back to another one. -/
theorem Sound.claimSlot (hp : K p) (hn : m p = some n) (ht : n.iFileType = ftDir) {idx : ℕ}
    (hidx : dcIndex p = idx) (hfind : dcacheFind fs p = none)
    (hold : (fs.dcache idx).valid = true → (fs.dcache idx).dirty = true →
      m (fs.dcache idx).path = none) (cap t : ℕ) :
    Sound K m ∅ { withListing fs idx ⟨p, diskChildren fs.img n, cap, false, true⟩ with
        clock := t } ∧
      Rewrites ∅ m m fs { withListing fs idx ⟨p, diskChildren fs.img n, cap, false, true⟩ with
        clock := t } := by
  have hset : Sound K m ∅
      (withListing fs idx ⟨p, diskChildren fs.img n, cap, false, true⟩) := by
    refine h.setListing (fun _ ↦ ⟨hp, hidx⟩) (h.few_diskChildren hn ht) (fun x _ hx ↦ ?_)
      fun x _ _ hx ↦ ?_
    · obtain rfl := Option.some.inj (hn.symm.trans hx)
      exact ht
    · obtain rfl := Option.some.inj (hn.symm.trans hx)
      rfl
  exact ⟨hset.clockTo t,
    rewrites_withListing (fun q x hx _ ↦ h.claim_listing hn hidx hfind hold cap hx) t⟩

end claim

section opened

variable {env : Env} (he : Healthy env) {K : Path → Prop} (hK : Names K) {m : Inodes} {fs fs' : Fs}
  (h : Sound K m ∅ fs) {p : Path} {n : Inode}
include he hK h

/-- The directory is in the cache, with the children it had. -/
structure Opened (p : Path) (m : Inodes) (fs fs' : Fs) : Prop where
  valid : (fs'.dcache (dcIndex p)).valid = true
  path : (fs'.dcache (dcIndex p)).path = p
  children : listing m fs p = some (fs'.dcache (dcIndex p)).children
  others : ∀ i, i ≠ dcIndex p → fs'.dcache i = fs.dcache i

theorem Sound.dcacheAlloc (hx : dcacheAlloc env p fs = some ((), fs')) (hl : Live fs') :
    ∃ m₁ fs₁, fs' = withListing fs₁ (dcIndex p) ⟨p, [], 0, false, true⟩ ∧ Sound K m₁ ∅ fs₁ ∧
      Rewrites (dirtyAt fs (dcIndex p)) m m₁ fs fs₁ ∧ (∀ i, i ≠ dcIndex p → fs₁.dcache i = fs.dcache i) ∧
      (fs₁.dcache (dcIndex p)).path = (fs.dcache (dcIndex p)).path ∧
      (fs₁.dcache (dcIndex p)).valid = (fs.dcache (dcIndex p)).valid ∧
      ((fs₁.dcache (dcIndex p)).valid = true → (fs₁.dcache (dcIndex p)).dirty = true →
        m₁ (fs₁.dcache (dcIndex p)).path = none) := by
  by_cases hd : (fs.dcache (dcIndex p)).valid = true ∧ (fs.dcache (dcIndex p)).dirty = true
  · simp only [DirCache.dcacheAlloc, bind_apply, get_apply, Option.bind_some, if_pos hd] at hx
    obtain ⟨⟨_, fs₁⟩, hflush, hend⟩ := Option.bind_eq_some_iff.mp hx
    have hset : fs' = withListing fs₁ (dcIndex p) ⟨p, [], 0, false, true⟩ :=
      (Prod.mk.inj (Option.some.inj hend)).2.symm
    have hl₁ : Live fs₁ := by rw [hset] at hl; exact ⟨hl.pool, hl.addr⟩
    obtain ⟨m₁, hs₁, hR, hothers, -, hslot⟩ := h.flushEntry he hK hflush hl₁
    refine ⟨m₁, fs₁, hset, hs₁, hR, hothers, ?_⟩
    rcases hslot with hslot | ⟨hslot, hnone⟩
    · rw [hslot]
      exact ⟨rfl, rfl, fun _ hc ↦ by cases hc⟩
    · rw [hslot]
      refine ⟨rfl, rfl, fun hv hdirty ↦ ?_⟩
      rcases hR.inodes (fs.dcache (dcIndex p)).path (Set.notMem_empty _) with
        ⟨hm, -⟩ | ⟨-, x, -, hx, -⟩
      · rw [hm]
        exact hnone hv hdirty
      · rw [hnone hv hdirty] at hx
        cases hx
  · simp only [DirCache.dcacheAlloc, bind_apply, get_apply, Option.bind_some, if_neg hd, setDcache,
      modify_apply, Option.some.injEq, Prod.mk.injEq, true_and] at hx
    exact ⟨m, fs, hx.symm, h, .refl _ _ _, fun _ _ ↦ rfl, rfl, rfl,
      fun hv hdirty ↦ (hd ⟨hv, hdirty⟩).elim⟩

omit hK in
/-- The children of a directory are read into the slot that was claimed for it. -/
theorem Sound.loadClaimed (hp : K p) (hn : m p = some n) (ht : n.iFileType = ftDir)
    (hfind : dcacheFind fs p = none)
    (hold : (fs.dcache (dcIndex p)).valid = true → (fs.dcache (dcIndex p)).dirty = true →
      m (fs.dcache (dcIndex p)).path = none) : ∃ fs',
    loadChildren env p n (withListing fs (dcIndex p) ⟨p, [], 0, false, true⟩) = some ((), fs') ∧
      Sound K m ∅ fs' ∧ Rewrites ∅ m m fs fs' ∧ Opened p m fs fs' ∧ fs'.sb = fs.sb := by
  have hseen := cur_dir (h.coherent p) hn ht
  have hoff : n.iExtentOff.toNat < 2 ^ 63 := by
    have hb := h.bound
    rcases (h.owned.shape p n hseen).dir ht with ⟨-, h0, -⟩ | ⟨hone, -⟩
    · rw [h0]
      decide
    · have := (h.extent_off hseen (by rw [hone]; decide)).2
      omega
  have hslot : (withListing fs (dcIndex p) ⟨p, [], 0, false, true⟩).dcache (dcIndex p) =
      ⟨p, [], 0, false, true⟩ := if_pos rfl
  obtain ⟨cap, t, hload⟩ := loadChildren_apply he hslot (h.owned.shape p n hseen) ht hoff
  have hagain (e e' : DirCacheEntry) :
      withListing (withListing fs (dcIndex p) e') (dcIndex p) e = withListing fs (dcIndex p) e := by
    simp only [withListing, Fs.mk.injEq, true_and, and_true]
    funext i
    split <;> rfl
  rw [hagain] at hload
  obtain ⟨hs, hR⟩ := h.claimSlot hp hn ht rfl hfind hold cap t
  refine ⟨_, hload, hs, hR, ⟨?_, ?_, ?_, fun i hi ↦ ?_⟩, rfl⟩
  · simp only [withListing, ↓reduceIte]
  · simp only [withListing, ↓reduceIte]
  · simp only [withListing, ↓reduceIte, listing, hfind, hn, Option.map_some]
  · simp only [withListing, hi, ↓reduceIte]

/-- What `dirOpen` does once it has claimed a slot. -/
def openClaimed (env : Env) (path : Path) : FsM Rc := do
  let fs ← FsM.get
  match (icacheInode fs.icache (xxh64 path)).filter (fun n ↦ n.iFileType = ftDir) with
  | some n =>
    loadChildren env path n
    return .ok
  | none =>
    match ← inodePagedGet env path with
    | .error _ => return .enoent
    | .ok n =>
      loadChildren env path n
      return .ok

omit he hK h in
theorem dirOpen_miss {env : Env} {fs : Fs} {d : Path} (hfind : dcacheFind fs d = none) :
    DirCache.dirOpen env d fs =
      (DirCache.dcacheAlloc env d >>= fun _ ↦ Soundness.openClaimed env d) fs := by
  simp only [DirCache.dirOpen, bind_apply, get_apply, Option.bind_some, hfind]
  rfl

theorem Sound.openClaimed (hp : K p) (hn : m p = some n) (ht : n.iFileType = ftDir)
    (hfind : dcacheFind fs p = none)
    (hold : (fs.dcache (dcIndex p)).valid = true → (fs.dcache (dcIndex p)).dirty = true →
      m (fs.dcache (dcIndex p)).path = none) : ∃ fs',
    openClaimed env p (withListing fs (dcIndex p) ⟨p, [], 0, false, true⟩) = some (.ok, fs') ∧
      Sound K m ∅ fs' ∧ Rewrites ∅ m m fs fs' ∧ Opened p m fs fs' ∧ fs'.sb = fs.sb := by
  have hcache := h.cacheGet (hK.untwinned hp)
  cases hc : cell fs.icache p with
  | some x =>
    obtain ⟨z, hz, hzt, hsame⟩ := h.coherent p x.1 x.2 hc
    obtain rfl : z = n := Option.some.inj (hz.symm.trans hn)
    obtain rfl : z = x.1 := hsame (.inl (hzt ▸ ht))
    rw [hc, Option.map_some] at hcache
    obtain ⟨fs', hload, hs, hR, ho, hsb⟩ := h.loadClaimed he hp hn ht hfind hold
    refine ⟨fs', ?_, hs, hR, ho, hsb⟩
    have hget : (icacheInode (withListing fs (dcIndex p) ⟨p, [], 0, false, true⟩).icache
        (xxh64 p)).filter (fun n ↦ n.iFileType = ftDir) = some x.1 := by
      rw [show (withListing fs (dcIndex p) ⟨p, [], 0, false, true⟩).icache = fs.icache from rfl,
        hcache]
      simp [ht]
    simp only [Soundness.openClaimed, bind_apply, get_apply, Option.bind_some, hget, hload,
      pure_apply]
  | none =>
    rw [hc, Option.map_none] at hcache
    obtain ⟨L, hb⟩ := h.backed
    have hb₀ : Backed K m (ground m ∅ fs) (withListing fs (dcIndex p) ⟨p, [], 0, false, true⟩) L :=
      hb.same rfl rfl rfl rfl
    obtain ⟨fs₁, hget, hb₁, hk, hsb⟩ := hb₀.inodePagedGet he (hK.length_lt hp)
    have hk' : Kept (ground m ∅ fs) fs { fs₁ with dcache := fs.dcache } :=
      ⟨⟨hk.only.lock, hk.only.flags, hk.only.cowGen, hk.only.icache, rfl, hk.only.spent,
        hk.only.inodes, hk.only.passed, hk.only.clock, hk.only.size⟩, hk.sb, hk.data, hk.free, hk.size⟩
    have hs₁ := h.kept hk' (hb₁.same rfl rfl rfl rfl)
    have heq : fs₁ = withListing { fs₁ with dcache := fs.dcache } (dcIndex p)
        ⟨p, [], 0, false, true⟩ := by
      have := hk.only.dcache
      cases fs₁
      simp only [withListing, Fs.mk.injEq, true_and, and_true] at this ⊢
      exact this
    obtain ⟨fs', hload, hs, hR, ho, hsb'⟩ := hs₁.loadClaimed he hp hn ht
      ((dcacheFind_congr rfl p).trans hfind) hold
    have hR₁ := h.rewrites_kept ∅ hk'
    refine ⟨fs', ?_, hs, hR₁.trans hR h.coherent, ⟨ho.valid, ho.path, ?_, ho.others⟩,
      hsb'.trans hsb⟩
    · rw [hn] at hget
      simp only [Soundness.openClaimed, bind_apply, get_apply, Option.bind_some]
      rw [show (withListing fs (dcIndex p) ⟨p, [], 0, false, true⟩).icache = fs.icache from rfl,
        hcache]
      simp only [Option.filter_none, bind_apply, hget, Option.bind_some, answered]
      rw [heq, hload]
      rfl
    · rw [← hR₁.listing p n (Set.notMem_empty _) (Set.notMem_empty _) hn ht]
      exact ho.children

omit he hK h in
theorem openClaimed_inside (env : Env) (p : Path) : Within Inside (openClaimed env p) := by
  refine .bind .get fun fs ↦ ?_
  split
  · exact .bind (loadChildren_inside env p _) fun _ ↦ .pure _
  · refine .bind (inside_of (inodePagedGet_indexOnly env p)) fun r ↦ ?_
    cases r with
    | error => exact .pure _
    | ok n => exact .bind (loadChildren_inside env p n) fun _ ↦ .pure _

/-- The directory that loses its slot when a path is brought into the directory cache. -/
def rivals (fs : Fs) (p : Path) : Set Path := dirtyAt fs (dcIndex p) \ {p}

theorem Sound.dirOpen (hp : K p) (hn : m p = some n) (ht : n.iFileType = ftDir) {rc : Rc}
    (hx : dirOpen env p fs = some (rc, fs')) (hl : Live fs') : rc = .ok ∧ ∃ m',
      Sound K m' ∅ fs' ∧ Rewrites (rivals fs p) m m' fs fs' ∧ Opened p m fs fs' := by
  cases hfind : dcacheFind fs p with
  | some e =>
    simp only [DirCache.dirOpen, bind_apply, get_apply, Option.bind_some, hfind, pure_apply,
      Option.some.injEq, Prod.mk.injEq] at hx
    obtain ⟨rfl, rfl⟩ := hx
    have hlist : listing m fs p = some e.children := by rw [listing, hfind]
    rw [dcacheFind] at hfind
    split at hfind
    · rename_i hv
      obtain rfl := Option.some.inj hfind
      exact ⟨rfl, m, h, .refl _ _ _, hv.1, hv.2, hlist, fun _ _ ↦ rfl⟩
    · cases hfind
  | none =>
    rw [dirOpen_miss hfind] at hx
    obtain ⟨_, fs₂, halloc, hrest⟩ := of_bind hx
    have hl₂ : Live fs₂ := hl.of_spent (openClaimed_inside env p _ _ _ hrest).spent
    obtain ⟨m₁, fs₁, rfl, hs₁, hR₁, hothers, hpath, hvalid, hold⟩ := h.dcacheAlloc he hK halloc hl₂
    obtain ⟨n₁, hn₁, ht₁⟩ := hR₁.dir (Set.notMem_empty _) hn ht
    have hfind₁ : dcacheFind fs₁ p = none := by
      rw [dcacheFind, hvalid, hpath]
      rw [dcacheFind] at hfind
      split at hfind
      · cases hfind
      · rename_i hno
        exact if_neg hno
    obtain ⟨fs₃, hopen, hs₃, hR₃, ho, -⟩ := hs₁.openClaimed he hK hp hn₁ ht₁ hfind₁ hold
    rw [hopen] at hrest
    obtain ⟨rfl, rfl⟩ := Prod.mk.inj (Option.some.inj hrest)
    have hrivals : dirtyAt fs (dcIndex p) ⊆ rivals fs p := by
      refine fun q hq ↦ ⟨hq, fun hqp ↦ ?_⟩
      rw [dcacheFind, if_pos ⟨hq.1, hq.2.2.trans hqp⟩] at hfind
      cases hfind
    refine ⟨rfl, m₁, hs₃, (hR₁.mono hrivals).trans (hR₃.mono (Set.empty_subset _)) h.coherent,
      ho.valid, ho.path, ?_, fun i hi ↦ ?_⟩
    · rw [← hR₁.listing p n (Set.notMem_empty _) (Set.notMem_empty _) hn ht]
      exact ho.children
    · rw [ho.others i hi, hothers i hi]

end opened

/-- What a change to the children of `d` does: its listing is `cs` now. -/
structure Relisted (d : Path) (cs : List DirChild) (m m' : Inodes) (fs fs' : Fs) : Prop
    extends Effect ∅ {d} (rivals fs d) m m' fs fs' where
  now : Soundness.listing m' fs' d = some cs
  moves : Moves ∅ fs fs'
  slot : (fs'.dcache (dcIndex d)).path = d
  slots : ∀ i, i ≠ dcIndex d → fs'.dcache i = fs.dcache i

section relist

variable {K : Path → Prop} {m m' : Inodes} {fs fs₁ : Fs} {d : Path}

theorem Opened.find (ho : Opened d m fs fs₁) :
    dcacheFind fs₁ d = some (fs₁.dcache (dcIndex d)) :=
  if_pos ⟨ho.valid, ho.path⟩

theorem Rewrites.relisted (hR : Rewrites (rivals fs d) m m' fs fs₁) (ho : Opened d m fs fs₁) :
    Relisted d (fs₁.dcache (dcIndex d)).children m m' fs fs₁ :=
  ⟨hR.toEffect.mono subset_rfl (Set.empty_subset _) subset_rfl,
    by rw [Soundness.listing, ho.find], hR.moves, ho.path, ho.others⟩

theorem Relisted.cached {cs : List DirChild} (hR : Relisted d cs m m' fs fs₁) {q : Path}
    (hq : dcacheFind fs₁ q ≠ none) : q = d ∨ dcacheFind fs q ≠ none := by
  by_cases hi : dcIndex q = dcIndex d
  · left
    rw [dcacheFind, hi] at hq
    split at hq
    · rename_i hv
      exact hv.2.symm.trans hR.slot
    · exact (hq rfl).elim
  · right
    rwa [dcacheFind, hR.slots _ hi] at hq

theorem Sound.relist (hs : Sound K m' ∅ fs₁) (hR : Rewrites (rivals fs d) m m' fs fs₁)
    (ho : Opened d m fs fs₁)
    {cs : List DirChild} (hcs : cs.length ≤ 15) (cap t : ℕ) :
    Sound K m' ∅ { withListing fs₁ (dcIndex d) { fs₁.dcache (dcIndex d) with
        children := cs, childCap := cap, dirty := true } with clock := t } ∧
      Relisted d cs m m' fs { withListing fs₁ (dcIndex d) { fs₁.dcache (dcIndex d) with
        children := cs, childCap := cap, dirty := true } with clock := t } := by
  have hset : Sound K m' ∅ (withListing fs₁ (dcIndex d) { fs₁.dcache (dcIndex d) with
      children := cs, childCap := cap, dirty := true }) :=
    hs.setListing (fun hv ↦ hs.listings.named _ hv) hcs (fun n hv hn ↦ hs.listings.typed _ n hv hn)
      fun _ _ hd _ ↦ by cases hd
  have hfind (p : Path) : dcacheFind (withListing fs₁ (dcIndex d) { fs₁.dcache (dcIndex d) with
      children := cs, childCap := cap, dirty := true }) p = if p = d then
        some { fs₁.dcache (dcIndex d) with children := cs, childCap := cap, dirty := true }
      else dcacheFind fs₁ p := by
    rw [withListing, dcacheFind_set]
    by_cases hp : p = d
    · rw [hp, if_pos rfl, if_pos rfl]
      exact if_pos ⟨ho.valid, ho.path⟩
    · rw [if_neg hp]
      split
      · rename_i hidx
        have hne : ¬(fs₁.dcache (dcIndex d)).path = p := fun hc ↦ hp (hc.symm.trans ho.path)
        rw [dcacheFind, hidx, if_neg fun hc ↦ hne hc.2, if_neg fun hc ↦ hne hc.2]
      · rfl
  refine ⟨hset.clockTo t, ⟨hR.inodes, fun p n _ hp hn ht ↦ ?_, hR.data⟩, ?_,
    hR.moves.trans (withListing_moves fs₁ _ _ t), ?_, fun i hi ↦ ?_⟩
  · rw [listing_clock, ← hR.listing p n (Set.notMem_empty _) (Set.notMem_empty _) hn ht, listing,
      hfind, if_neg (show ¬p = d from hp), listing]
    rfl
  · rw [listing_clock, listing, hfind, if_pos rfl]
  · simp only [withListing, ↓reduceIte]
    exact ho.path
  · simp only [withListing, hi, ↓reduceIte]
    exact ho.others i hi

end relist

section children

variable {env : Env} (he : Healthy env) {K : Path → Prop} (hK : Names K) {m : Inodes} {fs fs' : Fs}
  (h : Sound K m ∅ fs) {d name : Path} {n : Inode}
include he hK h

/-- The children once the one `dir_remove_child` finds for the name is gone. -/
def without (cs : List DirChild) (name : Path) : List DirChild :=
  match cs.findIdx? (fun c ↦ childMatches c name) with
  | none => cs
  | some i => removeChild cs i

/-- The state with other children in the cached listing of a directory. -/
def withChildren (fs : Fs) (d : Path) (cs : List DirChild) (cap t : ℕ) : Fs :=
  { withListing fs (dcIndex d) { fs.dcache (dcIndex d) with
      children := cs, childCap := cap, dirty := true } with clock := t }

omit hK h in
theorem dirAddChild_cases {type : UInt8} {rc : Rc}
    (hx : dirAddChild env d name type fs = some (rc, fs')) : ∃ rc₁ fs₁,
    dirOpen env d fs = some (rc₁, fs₁) ∧ (rc₁ ≠ .ok ∧ rc = rc₁ ∧ fs' = fs₁ ∨
      rc₁ = .ok ∧ rc = .ok ∧ ∃ cap t, fs' = withChildren fs₁ d
        ((fs₁.dcache (dcIndex d)).children ++ [newChild name type]) cap t) := by
  obtain ⟨rc₁, fs₁, hopen, hrest⟩ := of_bind hx
  refine ⟨rc₁, fs₁, hopen, ?_⟩
  split at hrest
  · refine .inr ⟨rfl, ?_⟩
    simp only [bind_apply, get_apply, Option.bind_some] at hrest
    split at hrest
    · simp only [bind_apply, he.osAlloc_apply, Option.bind_some, ↓reduceIte, setDcache,
        modify_apply, pure_apply, Option.some.injEq, Prod.mk.injEq] at hrest
      exact ⟨hrest.1.symm, _, fs₁.clock + 1, hrest.2.symm⟩
    · simp only [bind_apply, setDcache, modify_apply, Option.bind_some, pure_apply,
        Option.some.injEq, Prod.mk.injEq] at hrest
      exact ⟨hrest.1.symm, (fs₁.dcache (dcIndex d)).childCap, fs₁.clock, hrest.2.symm⟩
  · rename_i hne
    obtain ⟨rfl, rfl⟩ := Prod.mk.inj (Option.some.inj hrest)
    exact .inl ⟨hne, rfl, rfl⟩

omit he hK h in
theorem dirRemoveChild_cases {rc : Rc} (hx : dirRemoveChild env d name fs = some (rc, fs')) :
    ∃ rc₁ fs₁, dirOpen env d fs = some (rc₁, fs₁) ∧ (fs' = fs₁ ∧ (rc₁ = .ok →
        without (fs₁.dcache (dcIndex d)).children name = (fs₁.dcache (dcIndex d)).children) ∨
      rc₁ = .ok ∧ ∃ cap t, fs' = withChildren fs₁ d
        (without (fs₁.dcache (dcIndex d)).children name) cap t) := by
  obtain ⟨rc₁, fs₁, hopen, hrest⟩ := of_bind hx
  refine ⟨rc₁, fs₁, hopen, ?_⟩
  split at hrest
  · simp only [bind_apply, get_apply, Option.bind_some] at hrest
    cases hfound : (fs₁.dcache (dcIndex d)).children.findIdx? fun c ↦ childMatches c name with
    | none =>
      rw [hfound] at hrest
      obtain ⟨-, rfl⟩ := Prod.mk.inj (Option.some.inj hrest)
      exact .inl ⟨rfl, fun _ ↦ by rw [without, hfound]⟩
    | some i =>
      rw [hfound] at hrest
      simp only [bind_apply, setDcache, modify_apply, Option.bind_some, pure_apply,
        Option.some.injEq, Prod.mk.injEq] at hrest
      refine .inr ⟨rfl, (fs₁.dcache (dcIndex d)).childCap, fs₁.clock, ?_⟩
      rw [without, hfound]
      exact hrest.2.symm
  · rename_i hne
    obtain ⟨-, rfl⟩ := Prod.mk.inj (Option.some.inj hrest)
    exact .inl ⟨rfl, fun hc ↦ (hne hc).elim⟩

omit he hK h in
theorem length_without (cs : List DirChild) (name : Path) : (without cs name).length ≤ cs.length := by
  rw [without]
  split
  · exact le_rfl
  · rw [removeChild, SwapRemove.length_swapRemove]
    omega

omit he hK h in
theorem live_withChildren {cs : List DirChild} {cap t : ℕ} (hl : Live (withChildren fs d cs cap t)) :
    Live fs :=
  ⟨hl.pool, hl.addr⟩

theorem Sound.childAdded (hd : K d) (hn : m d = some n) (ht : n.iFileType = ftDir)
    {cs : List DirChild} (hcs : listing m fs d = some cs) (hlen : cs.length < 15) {type : UInt8}
    {rc : Rc} (hx : dirAddChild env d name type fs = some (rc, fs')) (hl : Live fs') :
    rc = .ok ∧ ∃ m', Sound K m' ∅ fs' ∧
      Relisted d (cs ++ [newChild name type]) m m' fs fs' := by
  obtain ⟨rc₁, fs₁, hopen, hcase⟩ := dirAddChild_cases he hx
  have hl₁ : Live fs₁ := by
    rcases hcase with ⟨-, -, rfl⟩ | ⟨-, -, cap, t, rfl⟩
    · exact hl
    · exact live_withChildren hl
  obtain ⟨rfl, m', hs, hR, ho⟩ := h.dirOpen he hK hd hn ht hopen hl₁
  obtain ⟨hne, -⟩ | ⟨-, rfl, cap, t, rfl⟩ := hcase
  · exact (hne rfl).elim
  rw [Option.some.inj (ho.children.symm.trans hcs)]
  refine ⟨rfl, m', hs.relist hR ho ?_ cap t⟩
  rw [List.length_append, List.length_singleton]
  omega

theorem Sound.childRemoved (hd : K d) (hn : m d = some n) (ht : n.iFileType = ftDir)
    {cs : List DirChild} (hcs : listing m fs d = some cs)
    {rc : Rc} (hx : dirRemoveChild env d name fs = some (rc, fs')) (hl : Live fs') :
    ∃ m', Sound K m' ∅ fs' ∧ Relisted d (without cs name) m m' fs fs' := by
  obtain ⟨rc₁, fs₁, hopen, hcase⟩ := dirRemoveChild_cases hx
  have hl₁ : Live fs₁ := by
    rcases hcase with ⟨rfl, -⟩ | ⟨-, cap, t, rfl⟩
    · exact hl
    · exact live_withChildren hl
  obtain ⟨rfl, m', hs, hR, ho⟩ := h.dirOpen he hK hd hn ht hopen hl₁
  have hchildren : (fs₁.dcache (dcIndex d)).children = cs :=
    Option.some.inj (ho.children.symm.trans hcs)
  have hfew : cs.length ≤ 15 := hchildren ▸ hs.listings.few _ ho.valid
  rw [hchildren] at hcase
  refine ⟨m', ?_⟩
  obtain ⟨rfl, hsame⟩ | ⟨-, cap, t, rfl⟩ := hcase
  · rw [hsame rfl, ← hchildren]
    exact ⟨hs, hR.relisted ho⟩
  · exact hs.relist hR ho ((length_without cs name).trans hfew) cap t

end children

end Xxfs.Soundness

import Xxfs.NamespaceRuns
import Xxfs.OnePage
import Xxfs.SyncSteps

namespace Xxfs.Soundness

open Function
open Xxfs.DiskFormat Xxfs.Machine Xxfs.Allocator Xxfs.PageCache Xxfs.PagedIndex Xxfs.PageStore
open Xxfs.InodeCache Xxfs.DirCache Xxfs.Volume Xxfs.Operations Xxfs.Hash Xxfs.PathName Xxfs.CacheMap
open Xxfs.IndexState Xxfs.IndexRep Xxfs.OperationFrames Xxfs.Frames
open Xxfs.Lib Xxfs.Lib.Computation Xxfs.Lib.Computation.Comp

section missing

variable {env : Env} (he : Healthy env) {K : Path → Prop} (hK : Names K) {m : Inodes} {fs fs' : Fs}
  (h : Sound K m ∅ fs) {p : Path}
include h

/-- The slot of the directory cache is claimed for a path that does not exist. -/
theorem Sound.claimEmpty (hp : K p) (hm : m p = none)
    (hold : (fs.dcache (dcIndex p)).valid = true → (fs.dcache (dcIndex p)).dirty = true →
      m (fs.dcache (dcIndex p)).path = none) :
    Sound K m ∅ (withListing fs (dcIndex p) ⟨p, [], 0, false, true⟩) ∧
      Rewrites ∅ m m fs (withListing fs (dcIndex p) ⟨p, [], 0, false, true⟩) := by
  have habsent (x : Inode) (hx : m p = some x) : False := by
    rw [hm] at hx
    cases hx
  refine ⟨h.setListing (fun _ ↦ ⟨hp, rfl⟩) (Nat.zero_le _) (fun x _ hx ↦ (habsent x hx).elim)
    fun x _ _ hx ↦ (habsent x hx).elim, ?_⟩
  exact rewrites_withListing (fun q x hx _ ↦ h.evict_listing hold hx fun hc ↦
    habsent x ((congrArg m hc.2).trans hx)) fs.clock

include he hK

/-- `dirOpen` of a path that does not exist leaves an empty listing for it. -/
theorem Sound.dirOpen_missing (hp : K p) (hm : m p = none) {rc : Rc}
    (hx : DirCache.dirOpen env p fs = some (rc, fs')) (hl : Live fs') :
    ∃ m', Sound K m' ∅ fs' ∧ Rewrites (dirtyAt fs (dcIndex p)) m m' fs fs' := by
  cases hfind : dcacheFind fs p with
  | some e =>
    simp only [DirCache.dirOpen, bind_apply, get_apply, Option.bind_some, hfind, pure_apply,
      Option.some.injEq, Prod.mk.injEq] at hx
    obtain ⟨rfl, rfl⟩ := hx
    exact ⟨m, h, .refl _ _ _⟩
  | none =>
    rw [dirOpen_miss hfind] at hx
    obtain ⟨_, fs₂, halloc, hrest⟩ := of_bind hx
    have hl₂ : Live fs₂ := hl.of_spent (openClaimed_inside env p _ _ _ hrest).spent
    obtain ⟨m₁, fs₁, rfl, hs₁, hR₁, hothers, hpath, hvalid, hold⟩ := h.dcacheAlloc he hK halloc hl₂
    have hm₁ : m₁ p = none := by
      rcases hR₁.inodes p (Set.notMem_empty p) with ⟨heq, -⟩ | ⟨-, x, -, hx, -⟩
      · exact heq.trans hm
      · rw [hm] at hx
        cases hx
    obtain ⟨hs₂, hR₂⟩ := hs₁.claimEmpty hp hm₁ hold
    obtain ⟨fs₃, hget, hs₃, hk₃, -⟩ := hs₂.indexGet he (hK.length_lt hp)
    have hcold : icacheInode fs₁.icache (xxh64 p) = none := by
      rw [hs₁.cacheGet (hK.untwinned hp)]
      cases hc : cell fs₁.icache p with
      | none => rfl
      | some x =>
        obtain ⟨z, hz, -⟩ := hs₁.coherent p x.1 x.2 hc
        rw [hm₁] at hz
        cases hz
    rw [hm₁] at hget
    simp only [Soundness.openClaimed, bind_apply, get_apply, Option.bind_some] at hrest
    rw [show (withListing fs₁ (dcIndex p) ⟨p, [], 0, false, true⟩).icache = fs₁.icache from rfl,
      hcold] at hrest
    simp only [Option.filter_none, bind_apply, hget, Option.bind_some, answered, pure_apply] at hrest
    obtain ⟨-, rfl⟩ := Prod.mk.inj (Option.some.inj hrest)
    refine ⟨m₁, hs₃, hR₁.trans ((hR₂.trans (hs₂.rewrites_kept ∅ hk₃) hs₁.coherent).mono
      (Set.empty_subset _)) h.coherent⟩

end missing

section blocks

variable {K : Path → Prop} {m : Inodes} {S : Set ℕ} {fs : Fs} (h : Sound K m S fs)
include h

theorem Sound.forget : Sound K m ∅ fs := by
  have hsub (x : Owner) : share (seen m fs) fs.sb.sPdirOff ∅ x ⊆
      share (seen m fs) fs.sb.sPdirOff S x := by
    cases x with
    | hand => exact Set.empty_subset _
    | super => exact subset_rfl
    | table => exact subset_rfl
    | path p => exact subset_rfl
  obtain ⟨L, hb⟩ := h.backed
  refine ⟨h.settled, ⟨L, hb.mono ?_⟩, h.coherent, ⟨fun x y hxy ↦ ?_, h.owned.shape⟩, h.tree,
    h.listings, h.magic, h.zero⟩
  · exact fun i hi ↦ (Shares.mem_owned.mp hi).elim fun x hx ↦
      Shares.subset_owned (share (seen m fs) fs.sb.sPdirOff S) x (hsub x hx)
  · exact (h.owned.apart hxy).mono (hsub x) (hsub y)

theorem Sound.writeHand (src : ℕ → UInt8) {len off : ℕ} (t : ℕ)
    (hin : ∀ i, off ≤ i → i < off + len → i ∈ S) :
    Sound K m S { fs with img := fs.img.write src len off, clock := t } ∧
      ∀ d n, m d = some n → n.iFileType = ftDir →
        listing m { fs with img := fs.img.write src len off, clock := t } d = listing m fs d := by
  have hout (d : Path) (n : Inode) (hn : m d = some n) (ht : n.iFileType = ftDir) (i : ℕ)
      (hi : i ∈ extent n) : i < off ∨ off + len ≤ i := by
    by_contra hc
    have hhand : i ∈ share (seen m fs) fs.sb.sPdirOff S .hand := hin i (by omega) (by omega)
    refine h.owned.apart.not_mem (a := .path d) (b := .hand) (by simp) ?_ hhand
    exact ⟨n, cur_dir (h.coherent d) hn ht, hi⟩
  refine ⟨h.write src t (fun i hi hi' ↦ ?_) fun j n hv hd hn i hi ↦ ?_, fun d n hn ht ↦ ?_⟩
  · exact Shares.subset_owned (share (seen m fs) fs.sb.sPdirOff S) .hand (hin i hi hi')
  · exact hout _ n hn (h.listings.typed j n hv hn) i hi
  · have hdisk : diskChildren (fs.img.write src len off) n = diskChildren fs.img n :=
      diskChildren_congr ((h.owned.shape d n (cur_dir (h.coherent d) hn ht)).dir ht)
        fun i hi ↦ Image.write_out _ _ (hout d n hn ht i hi)
    rw [listing, listing, hn, Option.map_some, Option.map_some, hdisk]
    rfl

end blocks

end Xxfs.Soundness

namespace Xxfs.DirWriteback

open Function
open Xxfs.DiskFormat Xxfs.Machine Xxfs.Allocator Xxfs.PageCache Xxfs.PagedIndex Xxfs.PageStore
open Xxfs.InodeCache Xxfs.DirCache Xxfs.Volume Xxfs.Operations Xxfs.Hash Xxfs.PathName Xxfs.CacheMap
open Xxfs.IndexState Xxfs.IndexRep Xxfs.FreshVolume Xxfs.FreshIndex Xxfs.Runs Xxfs.Soundness
open Xxfs.NamespaceRuns Xxfs.OnePage Xxfs.OperationFrames Xxfs.Lib Xxfs.Lib.Computation
open Xxfs.Lib.Computation.Comp

/-- Changed listings of directories that exist, each in its slot and with at most `k` children. -/
structure DirtyListings (k : ℕ) (m : Inodes) (dc : ℕ → DirCacheEntry) : Prop where
  slot : ∀ i, (dc i).valid = true → dcIndex (dc i).path = i
  directory : ∀ i, (dc i).valid = true → kind m (dc i).path = some ftDir
  dirty : ∀ i, (dc i).valid = true → (dc i).dirty = true
  few : ∀ i, (dc i).valid = true → (dc i).children.length ≤ k

/-- Write-backs and evictions from the directory cache, allocations, and writes to the blocks that
were allocated since the last of them, whose bytes are `S`; the pool is never exhausted. -/
inductive Flushes (K : Path → Prop) (env : Env) (fs₀ : Fs) : Set ℕ → Fs → Prop
  | start : Flushes K env fs₀ ∅ fs₀
  | flush {S : Set ℕ} {fs fs' : Fs} (idx : ℕ) : Flushes K env fs₀ S fs →
    dcacheFlushEntry env idx fs = some ((), fs') → Live fs' → Flushes K env fs₀ ∅ fs'
  | flushAll {S : Set ℕ} {fs fs' : Fs} : Flushes K env fs₀ S fs →
    dcacheFlushAll env fs = some ((), fs') → Live fs' → Flushes K env fs₀ ∅ fs'
  | evict {S : Set ℕ} {fs fs' : Fs} {rc : Rc} {p : Path} : Flushes K env fs₀ S fs → K p →
    kind (indexed fs) p = some ftDir ∨ indexed fs p = none →
    dirOpen env p fs = some (rc, fs') → Live fs' → Flushes K env fs₀ ∅ fs'
  | alloc {S : Set ℕ} {fs fs' : Fs} {k off : UInt64} : Flushes K env fs₀ S fs → k ≠ 0 →
    pageAllocN env k fs = some (off, fs') → Live fs' →
    Flushes K env fs₀ (S ∪ Set.Ico off.toNat (off.toNat + k.toNat * 4096)) fs'
  | write {S : Set ℕ} {fs fs' : Fs} {src : ℕ → UInt8} {len : ℕ} {off : UInt64} {b : Bool} :
    Flushes K env fs₀ S fs → 0 < len →
    (∀ i, off.toNat ≤ i → i < off.toNat + len → i ∈ S) →
    osPwrite env src len off fs = some (b, fs') → Flushes K env fs₀ S fs'

/-- Reading a directory anew from its stored inode gives the children `cs`. -/
def Reloads (env : Env) (fs : Fs) (d : Path) (cs : List DirChild) : Prop := ∃ n fs₁ fs₂,
  inodePagedGet env d fs = some (.ok n, fs₁) ∧
  loadChildren env d n (withListing fs₁ (dcIndex d) ⟨d, [], 0, false, true⟩) = some ((), fs₂) ∧
  (fs₂.dcache (dcIndex d)).children = cs

section runs

variable {env : Env} (he : Healthy env) {K : Path → Prop} (hK : Names K) {m : Inodes} {fs₀ fs : Fs}
  {S : Set ℕ}

/-- The directories of `m` are still there, with the listings they had. -/
def Keeps (m m' : Inodes) (fs fs' : Fs) : Prop := ∀ d, kind m d = some ftDir →
  kind m' d = some ftDir ∧ listing m' fs' d = listing m fs d

theorem Keeps.rewrites {m₁ m₂ : Inodes} {fs₁ fs₂ : Fs} {W : Set Path} (h : Keeps m m₁ fs₀ fs₁)
    (hR : Rewrites W m₁ m₂ fs₁ fs₂) : Keeps m m₂ fs₀ fs₂ := by
  intro d hd
  obtain ⟨hd₁, hl₁⟩ := h d hd
  obtain ⟨n, hn, ht⟩ := kind_some hd₁
  refine ⟨(hR.toEffect.kind (Set.notMem_empty d)).trans hd₁, ?_⟩
  exact (hR.toEffect.listing d n (Set.notMem_empty d) (Set.notMem_empty d) hn ht).trans hl₁

include he hK

theorem Flushes.keeps (h₀ : Sound K m ∅ fs₀) (h : Flushes K env fs₀ S fs) :
    ∃ m', Sound K m' S fs ∧ Keeps m m' fs₀ fs := by
  induction h with
  | start => exact ⟨m, h₀, fun _ hd ↦ ⟨hd, rfl⟩⟩
  | flush idx _ hx hl ih =>
    obtain ⟨m₁, hs, hk⟩ := ih
    obtain ⟨m', hs', hR, -⟩ := hs.forget.flushEntry he hK hx hl
    exact ⟨m', hs', hk.rewrites hR⟩
  | flushAll _ hx hl ih =>
    obtain ⟨m₁, hs, hk⟩ := ih
    obtain ⟨m', hs', hR, -⟩ := hs.forget.flushesListings he hK hx hl
    exact ⟨m', hs', hk.rewrites hR⟩
  | evict _ hp hkind hx hl ih =>
    obtain ⟨m₁, hs, hk⟩ := ih
    rw [hs.forget.indexed_eq hK] at hkind
    rcases hkind with hd | hm
    · obtain ⟨n, hn, ht⟩ := kind_some hd
      obtain ⟨-, m', hs', hR, -⟩ := hs.forget.dirOpen he hK hp hn ht hx hl
      exact ⟨m', hs', hk.rewrites hR⟩
    · obtain ⟨m', hs', hR⟩ := hs.forget.dirOpen_missing he hK hp hm hx hl
      exact ⟨m', hs', hk.rewrites hR⟩
  | alloc _ h0 hx hl ih =>
    obtain ⟨m₁, hs, hk⟩ := ih
    obtain ⟨hle, rfl, rfl⟩ := pageAllocN_live he h0 hx hl
    have hfree : 0 < _ := (pos_of_ne_zero h0).trans_le (UInt64.le_iff_toNat_le.mp hle)
    have haddr : front (taken _ _) + 4096 < 2 ^ 63 := hl.addr
    have htake := hs.take hle (by omega)
    rw [nextBytes, ← nextOff_toNat hs.pool hfree] at htake
    exact ⟨m₁, htake, fun d hd ↦ ⟨(hk d hd).1, (listing_congr rfl rfl d).trans (hk d hd).2⟩⟩
  | @write S fs _ src len off _ _ hpos hin hx ih =>
    obtain ⟨m₁, hs, hk⟩ := ih
    have hbelow := hs.below (Shares.subset_owned (share (seen m₁ fs) fs.sb.sPdirOff S) .hand
      (hin off.toNat le_rfl (by omega)))
    have hbound := hs.bound
    rw [he.osPwrite_apply _ _ _ (by omega)] at hx
    obtain ⟨-, rfl⟩ := Prod.mk.inj (Option.some.inj hx)
    obtain ⟨hs', hl⟩ := hs.writeHand src (fs.clock + 1) hin
    refine ⟨m₁, hs', fun d hd ↦ ⟨(hk d hd).1, ?_⟩⟩
    obtain ⟨n, hn, ht⟩ := kind_some (hk d hd).1
    exact (hl d n hn ht).trans (hk d hd).2

omit hK in
/-- A directory that is not cached with changes is on the disk as it is listed. -/
theorem reloads_of_listing {m' : Inodes} (h : Sound K m' S fs) {d : Path}
    (hlen : d.length < 2 ^ 32) (hkind : kind m' d = some ftDir) {cs : List DirChild}
    (hlist : listing m' fs d = some cs)
    (hclean : ∀ e, dcacheFind fs d = some e → e.dirty = false) : Reloads env fs d cs := by
  obtain ⟨n, hn, ht⟩ := kind_some hkind
  have hdisk : diskChildren fs.img n = cs := by
    rw [listing] at hlist
    cases hfind : dcacheFind fs d with
    | none =>
      rw [hfind, hn] at hlist
      exact Option.some.inj hlist
    | some e =>
      rw [hfind] at hlist
      have hdirty := hclean e hfind
      rw [dcacheFind] at hfind
      split at hfind
      · rename_i hv
        obtain rfl := Option.some.inj hfind
        rw [← h.listings.clean _ n hv.1 hdirty (hv.2.symm ▸ hn)]
        exact Option.some.inj hlist
      · cases hfind
  obtain ⟨fs₁, hget, hs₁, hk₁, -⟩ := h.indexGet he hlen
  rw [hn] at hget
  have hseen : seen m' fs₁ d = some n := cur_dir (hs₁.coherent d) hn ht
  have hshape := hs₁.owned.shape d n hseen
  have hoff : n.iExtentOff.toNat < 2 ^ 63 := by
    have hbound := hs₁.bound
    rcases hshape.dir ht with ⟨-, h0, -⟩ | ⟨hone, -⟩
    · rw [h0]
      decide
    · have := (hs₁.extent_off hseen (by rw [hone]; decide)).2
      omega
  have hsame : diskChildren fs₁.img n = diskChildren fs.img n :=
    diskChildren_congr (hshape.dir ht) fun i hi ↦
      hk₁.data i (extent_subset (cur_dir (h.coherent d) hn ht) hi)
  have hslot : (withListing fs₁ (dcIndex d) ⟨d, [], 0, false, true⟩).dcache (dcIndex d) =
      ⟨d, [], 0, false, true⟩ := if_pos rfl
  obtain ⟨cap, t, hload⟩ := loadChildren_apply he hslot hshape ht hoff
  refine ⟨n, fs₁, _, hget, hload, ?_⟩
  simp only [withListing, ↓reduceIte]
  exact hsame.trans hdisk

end runs

section writeback

variable {env : Env} (he : Healthy env) {K : Path → Prop} (hK : Names K) {fs₀ : Fs}
include he hK

theorem sound_dirty (h : CarefulRun K env fs₀) {dc : ℕ → DirCacheEntry}
    (hdc : DirtyListings 15 (indexed fs₀) dc) :
    Sound K (indexed fs₀) ∅ { fs₀ with dcache := dc } := by
  have hs := h.sound he hK
  obtain ⟨L, hb⟩ := hs.backed
  refine ⟨hs.settled, ⟨L, hb.same rfl rfl rfl rfl⟩, hs.coherent, hs.owned, hs.tree, ?_, hs.magic,
    hs.zero⟩
  refine ⟨fun i hv ↦ ⟨?_, hdc.slot i hv⟩, hdc.few, fun i n hv hn ↦ ?_, fun i n hv hd _ ↦ ?_⟩
  · obtain ⟨n, hn, -⟩ := kind_some (hdc.directory i hv)
    exact hs.names (hn ▸ Option.some_ne_none n)
  · have hkind := hdc.directory i hv
    rw [kind, hn] at hkind
    exact Option.some.inj hkind
  · rw [hdc.dirty i hv] at hd
    cases hd

/-- Cached listings with at most 15 children survive the write-backs. -/
theorem written_listings_reload (h : CarefulRun K env fs₀) {dc : ℕ → DirCacheEntry}
    (hdc : DirtyListings 15 (indexed fs₀) dc) {S : Set ℕ} {fs : Fs}
    (hrun : Flushes K env { fs₀ with dcache := dc } S fs) {i : ℕ} (hv : (dc i).valid = true)
    (hclean : ∀ e, dcacheFind fs (dc i).path = some e → e.dirty = false) :
    Reloads env fs (dc i).path (dc i).children := by
  have hs₀ := sound_dirty he hK h hdc
  obtain ⟨m', hs, hkeep⟩ := hrun.keeps he hK hs₀
  obtain ⟨hkind, hlist⟩ := hkeep _ (hdc.directory i hv)
  have hp := (hs₀.listings.named i hv).1
  have hfind : dcacheFind { fs₀ with dcache := dc } (dc i).path = some (dc i) := by
    rw [dcacheFind]
    simp only [hdc.slot i hv, hv, and_self, ↓reduceIte]
  have hchildren : listing (indexed fs₀) { fs₀ with dcache := dc } (dc i).path =
      some (dc i).children := by
    rw [listing, hfind]
  rw [hchildren] at hlist
  exact reloads_of_listing he hs (hK.length_lt hp) hkind hlist hclean

end writeback

section fresh

/-- The root is cached with these children, and with changes. -/
def rootListings (cs : List DirChild) (i : ℕ) : DirCacheEntry :=
  if i = dcIndex rootPath then ⟨rootPath, cs, 16, true, true⟩ else (freshFs steady 1 0).dcache i

theorem rootListings_root (cs : List DirChild) :
    rootListings cs (dcIndex rootPath) = ⟨rootPath, cs, 16, true, true⟩ := if_pos rfl

theorem rootListings_dirty {cs : List DirChild} {k : ℕ} (hk : cs.length ≤ k) :
    DirtyListings k (indexed (freshFs steady 1 0)) (rootListings cs) := by
  have hs : Sound (· ∈ fewPaths) (freshInodes (steady.time 1)) ∅ (freshFs steady 1 0) :=
    sound_fresh fewPaths_names goodSize_one 0
  have hroot (i : ℕ) (hv : (rootListings cs i).valid = true) : i = dcIndex rootPath ∧
      rootListings cs i = ⟨rootPath, cs, 16, true, true⟩ := by
    by_cases hi : i = dcIndex rootPath
    · exact ⟨hi, by rw [rootListings, if_pos hi]⟩
    · rw [rootListings, if_neg hi] at hv
      cases hv
  rw [hs.indexed_eq fewPaths_names]
  refine ⟨fun i hv ↦ ?_, fun i hv ↦ ?_, fun i hv ↦ ?_, fun i hv ↦ ?_⟩
  · rw [(hroot i hv).2, (hroot i hv).1]
  · rw [(hroot i hv).2, kind, freshInodes_root, Option.map_some, rootInode_type]
  · rw [(hroot i hv).2]
  · rw [(hroot i hv).2]
    exact hk

/-- The inode of a directory for which one block has been taken: it may record more. -/
def placedInode (n : Inode) (off : UInt64) (cs : List DirChild) : Inode :=
  { n.setExtent off (UInt32.ofNat ((cs.length * dirChildSize + 4095) / 4096)) with
    iSize := UInt64.ofNat (cs.length * dirChildSize)
    iBlocks := UInt64.ofNat ((cs.length * dirChildSize + 4095) / 4096) }

theorem placeChildren_new {fs : Fs} (hl : Live fs) (hp : PoolOk fs.sb) {n : Inode}
    (h0 : n.iExtentOff = 0) {cs : List DirChild} (hcs : cs ≠ []) :
    placeChildren steady n cs fs = some (some (placedInode n (nextOff fs.sb) cs), { fs with
      img := fs.img.write (encodeChildren cs) (cs.length * dirChildSize) (nextOff fs.sb).toNat
      sb := taken fs.sb 1
      clock := fs.clock + 1 }) := by
  have hoff := hl.nextOff_toNat hp
  have haddr := hl.addr
  have hsmall : (nextOff fs.sb).toNat < 2 ^ 63 := by omega
  have hzero : ¬(n.iExtentOff ≠ 0 ∧
      n.iBlocks.toNat ≥ (cs.length * dirChildSize + 4095) / 4096) := fun hc ↦ hc.1 h0
  simp only [placeChildren, hcs, hzero, ↓reduceIte, bind_apply, pageAlloc_free steady hl.ne_zero,
    Option.bind_some, hl.nextOff_ne_zero hp, steady_healthy.osPwrite_apply _ _ _ hsmall,
    pure_apply, placedInode]

theorem dcacheFlushEntry_of_calls {env : Env} {idx : ℕ} {fs fs₁ fs₂ fs₃ fs₄ : Fs}
    {e : DirCacheEntry} {n n₁ : Inode} (he : fs.dcache idx = e) (hd : e.dirty = true)
    (hv : e.valid = true) (hcur : currentInode env e.path fs = some (.ok n, fs₁))
    (hplace : placeChildren env n e.children fs₁ = some (some n₁, fs₂))
    (hput : pagedPut env e.path (inodeToVal (writebackInode n₁ (env.time fs₂.clock)))
      { fs₂ with clock := fs₂.clock + 1 } = some (.ok, fs₃))
    (hcache : icachePut env (xxh64 e.path) e.path (writebackInode n₁ (env.time fs₂.clock)) fs₃ =
      some ((), fs₄)) : dcacheFlushEntry env idx fs = some ((), { fs₄ with
        dcache := fun i ↦ if i = idx then { e with dirty := false } else fs₄.dcache i }) := by
  simp only [dcacheFlushEntry, bind_apply, get_apply, Option.bind_some, he, hd, hv, hcur, hplace,
    osTime_apply, hput, ↓reduceIte, hcache, setDcache, modify_apply, not_true_eq_false, or_self]

theorem flush_root {cs : List DirChild} (hcs : cs ≠ []) : ∃ n fs,
    dcacheFlushEntry steady (dcIndex rootPath)
      { freshFs steady 1 0 with dcache := rootListings cs } = some ((), fs) ∧
      fs.sb = taken (freshFs steady 1 0).sb 1 ∧ (fs.dcache (dcIndex rootPath)).dirty = false ∧
      n.iExtentOff = nextOff (freshFs steady 1 0).sb ∧
      n.iSize = UInt64.ofNat (cs.length * dirChildSize) ∧
      ∃ L, Backed (· ∈ fewPaths) (update (freshInodes (steady.time 1)) rootPath (some n)) ∅ fs L := by
  have hs : Sound (· ∈ fewPaths) (freshInodes (steady.time 1)) ∅ (freshFs steady 1 0) :=
    sound_fresh fewPaths_names goodSize_one 0
  obtain ⟨L, hb⟩ := hs.backed
  have hb₀ : Backed (· ∈ fewPaths) (freshInodes (steady.time 1)) ∅
      { freshFs steady 1 0 with dcache := rootListings cs } L :=
    (hb.mono (Set.empty_subset _)).same rfl rfl rfl rfl
  have hample := freshOne_ample
  have hpool := hb.rep.pool
  have hlive := hample.live
  obtain ⟨n₀, fs₁, head, pg, hget, hH₁, hR, -, hi₁, hsb₁⟩ := cold_root steady
    (freshFs steady 1 0).lock (rootListings cs) rfl rfl rfl rfl
  obtain ⟨fs₁', hget', hb₁, hk₁, -⟩ := hb₀.inodePagedGet steady_healthy
    (show rootPath.length < 2 ^ 32 by decide)
  rw [hget, freshInodes_root] at hget'
  obtain ⟨hn₀, rfl⟩ := Prod.mk.inj (Option.some.inj hget')
  obtain rfl : n₀ = rootInode (steady.time 1) := Except.ok.inj hn₀
  have hd₁ : fs₁.dcache = rootListings cs := hk₁.only.dcache
  rw [← hsb₁] at hpool ⊢
  have hlive₁ : Live fs₁ := hlive.of_sb hsb₁
  have hample₁ : Ample 240 fs₁ := ⟨by rw [hsb₁]; exact hample.pool, by rw [hsb₁]; exact hample.addr⟩
  have hone : (1 : UInt64) ≤ fs₁.sb.sFreeBlocks := UInt64.le_iff_toNat_le.mpr hlive₁.pool
  have hoff := hlive₁.nextOff_toNat hpool
  have haddr := hlive₁.addr
  -- one block is taken, and more than a block is written
  obtain ⟨n₁, hn₁⟩ : ∃ n₁, n₁ = placedInode (rootInode (steady.time 1)) (nextOff fs₁.sb) cs :=
     ⟨_, rfl⟩
  obtain ⟨fs₂, hfs₂⟩ : ∃ fs₂ : Fs, fs₂ = { fs₁ with
    img := fs₁.img.write (encodeChildren cs) (cs.length * dirChildSize) (nextOff fs₁.sb).toNat
    sb := taken fs₁.sb 1
    clock := fs₁.clock + 1 } := ⟨_, rfl⟩
  have hplace : placeChildren steady (rootInode (steady.time 1)) cs fs₁ =
      some (some n₁, fs₂) := by
    rw [hn₁, hfs₂]
    exact placeChildren_new hlive₁ hpool (hollow_root _).off hcs
  have hsb₂ : fs₂.sb = taken fs₁.sb 1 := by rw [hfs₂]
  have hb₂ : Backed (· ∈ fewPaths) (freshInodes (steady.time 1)) ∅ fs₂ L := by
    have hfront := hlive₁.front_taken hpool
    refine hb₁.outside (by rw [hfs₂]) (by rw [hfs₂]) ?_ (by rw [hsb₂]; rfl) ?_ ?_
      (fun i _ hi ↦ ?_) ?_ fun i hi ↦ hi.elim
    · rw [hsb₂]
      exact taken_ok hone hpool
    · rw [hsb₂]
      exact front_le_taken hone
    · rw [hsb₂, hfront]
      exact haddr
    · rw [hfs₂]
      exact Image.write_out _ _ (.inl (by rw [hoff]; exact hi))
    · rw [hfs₂]
      dsimp only [Image.write]
      split
      · exact le_rfl
      · exact le_max_left _ _
  have hcost : Cost 1 fs₁ fs₂ := ⟨1, le_rfl, hone, hsb₂⟩
  have hample₂ : Ample 239 fs₂ := hcost.ample hpool hample₁
  have hH₂ : Handy { fs₂ with clock := fs₂.clock + 1 } head pg :=
    hH₁.same (by rw [hfs₂]) (by rw [hfs₂])
  have hi₂ : fs₂.icache = icacheInit := by
    rw [hfs₂]
    exact hi₁
  have hd₂ : fs₂.dcache = rootListings cs := by
    rw [hfs₂]
    exact hd₁
  -- the inode goes over the old one
  have hbody := sameBody_writeback n₁ (steady.time fs₂.clock)
  have hsealed := sealed_writeback n₁ (steady.time fs₂.clock)
  obtain ⟨n₂, hn₂⟩ : ∃ n₂, n₂ = writebackInode n₁ (steady.time fs₂.clock) := ⟨_, rfl⟩
  rw [← hn₂] at hbody hsealed
  have hval : UInt32.ofNat (inodeToVal n₂).length ≤ (pg.slot 0).vlen := by
    rw [inodeToVal_length, hR.vlen]
    exact UInt32.le_refl _
  have hrecord : ((pg.slot 0).fileOff + 8 + UInt64.ofNat rootPath.length).toNat < 2 ^ 63 := by
    have := hR.off
    rw [UInt64.toNat_add, UInt64.toNat_add]
    exact (Nat.mod_le _ _).trans_lt (by
      have : (UInt64.ofNat rootPath.length).toNat = 1 := by decide
      have : (8 : UInt64).toNat = 8 := by decide
      omega)
  obtain ⟨fs₃, hput, hi₃, hsb₃⟩ :=
    hH₂.put_over steady steady_healthy hR.found hR.outside hval hrecord
  have hb₂' : Backed (· ∈ fewPaths) (freshInodes (steady.time 1)) ∅
      { fs₂ with clock := fs₂.clock + 1 } L := hb₂.same rfl rfl rfl rfl
  obtain ⟨rc, fs₃', hput', hgood⟩ := hb₂'.pagedPut steady_healthy fewPaths_names
    (show rootPath ∈ fewPaths by decide) hsealed (hample₂.live.of_sb rfl)
  rw [hput] at hput'
  obtain ⟨rfl, rfl⟩ := Prod.mk.inj (Option.some.inj hput')
  obtain ⟨-, hk₃, L', hb₃⟩ := hgood (hample₂.live.of_sb hsb₃)
  obtain ⟨key, hcached⟩ :=
    ExclusiveCreate.icachePut_init steady (xxh64 rootPath) rootPath n₂ (hi₃.trans hi₂)
  have hd₃ : fs₃.dcache = rootListings cs := hk₃.only.dcache.trans hd₂
  have hcold : icacheInode icacheInit (xxh64 rootPath) = none := rfl
  have hempty : (freshFs steady 1 0).icache = icacheInit := rfl
  have hstart : currentInode steady rootPath { freshFs steady 1 0 with dcache := rootListings cs } =
      some (.ok (rootInode (steady.time 1)), fs₁) := by
    simp only [currentInode, bind_apply, get_apply, Option.bind_some, hempty, hcold]
    exact hget
  have hentry :
      ({ freshFs steady 1 0 with dcache := rootListings cs } : Fs).dcache (dcIndex rootPath) =
        ⟨rootPath, cs, 16, true, true⟩ := rootListings_root cs
  generalize ({ freshFs steady 1 0 with dcache := rootListings cs } : Fs) = fs₀ at hstart hentry ⊢
  subst hn₂
  obtain ⟨fs₄, hfs₄⟩ : ∃ fs₄ : Fs, fs₄ = { fs₃ with
    icache := ExclusiveCreate.oneEntry ⟨xxh64 rootPath, true, key, writebackInode n₁
      (steady.time fs₂.clock)⟩
    clock := fs₃.clock + 1 } := ⟨_, rfl⟩
  rw [← hfs₄] at hcached
  have hb₄ : Backed (· ∈ fewPaths) _ ∅ fs₄ L' :=
    hb₃.same (by rw [hfs₄]) (by rw [hfs₄]) (by rw [hfs₄]) (by rw [hfs₄])
  have hflush := dcacheFlushEntry_of_calls hentry rfl rfl hstart hplace hput hcached
  refine ⟨_, _, hflush, ?_, ?_, ?_, ?_, L', hb₄.same rfl rfl rfl rfl⟩
  · rw [hfs₄]
    exact hsb₃.trans hsb₂
  · simp only [↓reduceIte]
  · rw [hbody.extentOff, hn₁]
    exact setExtent_extentOff _ _ _
  · rw [hbody.size, hn₁, placedInode]

theorem next_block {K : Path → Prop} {m : Inodes} {fs : Fs} {L : Chain} (hb : Backed K m ∅ fs L)
    (ha : Ample 1 fs) : ∃ fs₁ fs₂, pageAllocN steady 1 fs = some (nextOff fs.sb, fs₁) ∧ Live fs₁ ∧
      osPwrite steady (fun _ ↦ 0xFF) 4096 (nextOff fs.sb) fs₁ = some (true, fs₂) ∧
      fs₂.dcache = fs.dcache ∧ front fs.sb + 4096 ≤ fs₂.img.size ∧
      (∀ i, front fs.sb ≤ i → i < front fs.sb + 4096 → fs₂.img.data i = 0xFF) ∧
      Backed K m (Set.Ico (front fs.sb) (front fs.sb + 4096)) fs₂ L := by
  have hpool := hb.rep.pool
  have hone : (1 : UInt64) ≤ fs.sb.sFreeBlocks := UInt64.le_iff_toNat_le.mpr ha.live.pool
  have halloc := pageAllocN_free steady (by decide : (1 : UInt64) ≠ 0) hone
  have hoff := ha.live.nextOff_toNat hpool
  have haddr := ha.live.addr
  have hfront := ha.live.front_taken hpool
  have hcost : Cost 1 fs { fs with sb := taken fs.sb 1 } := ⟨1, le_rfl, hone, rfl⟩
  have hlive : Live { fs with sb := taken fs.sb 1 } := (hcost.ample hpool ha : Ample 0 _).live
  have hwrite := steady_healthy.osPwrite_apply { fs with sb := taken fs.sb 1 } (fun _ ↦ 0xFF) 4096
    (show (nextOff fs.sb).toNat < 2 ^ 63 by omega)
  rw [hoff] at hwrite
  refine ⟨_, _, halloc, hlive, hwrite, rfl, le_max_right _ _, fun i hi hi' ↦ ?_, ?_⟩
  · exact if_pos ⟨hi, hi'⟩
  · refine hb.outside rfl rfl (taken_ok hone hpool) rfl (front_le_taken hone) ?_ (fun i _ hi ↦ ?_)
      (le_max_left _ _) fun i hi ↦ ?_
    · change front (taken fs.sb 1) < 2 ^ 63
      omega
    · exact fs.img.write_out (fun _ ↦ 0xFF) (.inl hi)
    · have := Set.mem_Ico.mp hi
      change i < front (taken fs.sb 1) ∧ _
      omega

/-- The root is written back, and then the block behind its listing is taken and filled. -/
theorem flush_root_write {cs : List DirChild} (hcs : cs ≠ []) : ∃ n S fs,
    Flushes (· ∈ fewPaths) steady { freshFs steady 1 0 with dcache := rootListings cs } S fs ∧
      (fs.dcache (dcIndex rootPath)).dirty = false ∧ n.iExtentOff ≠ 0 ∧
      n.iSize = UInt64.ofNat (cs.length * dirChildSize) ∧ n.iExtentOff.toNat + 8192 < 2 ^ 63 ∧
      n.iExtentOff.toNat + 8192 ≤ fs.img.size ∧
      (∀ i, n.iExtentOff.toNat + 4096 ≤ i → i < n.iExtentOff.toNat + 8192 →
        fs.img.data i = 0xFF) ∧
      ∃ L, Backed (· ∈ fewPaths) (update (freshInodes (steady.time 1)) rootPath (some n))
        (Set.Ico (n.iExtentOff.toNat + 4096) (n.iExtentOff.toNat + 8192)) fs L := by
  obtain ⟨n, fs₁, hflush, hsb₁, hclean, hoff, hsize, L, hb₁⟩ := flush_root hcs
  have hs : Sound (· ∈ fewPaths) (freshInodes (steady.time 1)) ∅ (freshFs steady 1 0) :=
    sound_fresh fewPaths_names goodSize_one 0
  obtain ⟨L₀, hb₀⟩ := hs.backed
  have hample := freshOne_ample
  have hone : (1 : UInt64) ≤ (freshFs steady 1 0).sb.sFreeBlocks :=
    UInt64.le_iff_toNat_le.mpr hample.live.pool
  have hcost₁ : Cost 1 (freshFs steady 1 0) fs₁ := ⟨1, le_rfl, hone, hsb₁⟩
  have hample₁ : Ample 239 fs₁ := hcost₁.ample hb₀.rep.pool hample
  have hfirst : n.iExtentOff.toNat = front (freshFs steady 1 0).sb := by
    rw [hoff]
    exact hample.live.nextOff_toNat hb₀.rep.pool
  have hused : n.iExtentOff ≠ 0 := by
    rw [hoff]
    exact hample.live.nextOff_ne_zero hb₀.rep.pool
  have hfront : front fs₁.sb = n.iExtentOff.toNat + 4096 := by
    rw [hsb₁, hfirst]
    exact hample.live.front_taken hb₀.rep.pool
  -- the block behind it is taken and written
  obtain ⟨fs₂, fs₃, halloc, hlive₂, hwrite, hd₃, hsize₃, hdata₃, hb₃⟩ :=
    next_block hb₁ (hample₁.mono (by decide))
  have haddr := hample₁.live.addr
  have hnext := hample₁.live.nextOff_toNat hb₁.rep.pool
  have hin (i : ℕ) (hi : (nextOff fs₁.sb).toNat ≤ i) (hi' : i < (nextOff fs₁.sb).toNat + 4096) :
      i ∈ (∅ : Set ℕ) ∪ Set.Ico (nextOff fs₁.sb).toNat
        ((nextOff fs₁.sb).toNat + (1 : UInt64).toNat * 4096) :=
    Set.mem_union_right _ (Set.mem_Ico.mpr ⟨hi, by
      rw [show (1 : UInt64).toNat = 1 from rfl]
      omega⟩)
  rw [hfront] at haddr hsize₃ hdata₃ hb₃
  refine ⟨n, _, fs₃, .write (.alloc (.flush _ .start hflush hample₁.live) (by decide) halloc hlive₂)
    (by decide) hin hwrite, ?_, hused, hsize, haddr, hsize₃, hdata₃, L, hb₃⟩
  rw [hd₃]
  exact hclean

/-- Two files and a directory, as a listing has them. -/
def fewChildren : List DirChild := [⟨97, fun _ ↦ 97, 1⟩, ⟨98, fun _ ↦ 98, 2⟩, ⟨99, fun _ ↦ 99, 1⟩]

/-- Three children of the root are written back, the next block is taken and written, and then they
are read anew. -/
theorem written_listings_reload_root : ∃ S fs, Flushes (· ∈ fewPaths) steady
    { freshFs steady 1 0 with dcache := rootListings fewChildren } S fs ∧
      Reloads steady fs rootPath fewChildren := by
  obtain ⟨n, S, fs, hrun, hclean, -⟩ := flush_root_write (List.cons_ne_nil _ _ : fewChildren ≠ [])
  have hentry := rootListings_root fewChildren
  have hcareful : CarefulRun (· ∈ fewPaths) steady (freshFs steady 1 0) :=
    .fresh (fresh_apply steady_healthy goodSize_one 0)
  have hreload := written_listings_reload steady_healthy fewPaths_names hcareful
    (rootListings_dirty (show fewChildren.length ≤ 15 by decide)) hrun
    (i := dcIndex rootPath) (by rw [hentry]) fun e hfind ↦ by
      rw [hentry, dcacheFind] at hfind
      split at hfind
      · obtain rfl := Option.some.inj hfind
        exact hclean
      · cases hfind
  rw [hentry] at hreload
  exact ⟨S, fs, hrun, hreload⟩

def wideChildren : List DirChild := List.replicate 16 ⟨0, fun _ ↦ 0, 0⟩

/-- The sixteenth child lies behind the block that was taken for the listing. -/
theorem wide_listing_torn : ¬∀ (env : Env) (K : Path → Prop) (k : ℕ) (fs₀ fs : Fs)
    (dc : ℕ → DirCacheEntry) (S : Set ℕ) (i : ℕ), Healthy env → Reachable env fs₀ →
    DirtyListings k (indexed fs₀) dc → Flushes K env { fs₀ with dcache := dc } S fs →
    (dc i).valid = true → (∀ e, dcacheFind fs (dc i).path = some e → e.dirty = false) →
    Reloads env fs (dc i).path (dc i).children := by
  intro hall
  have hdirty := rootListings_dirty (show wideChildren.length ≤ 16 by decide)
  obtain ⟨n, S, fs₃, hrun, hclean, hused, hsize, haddr, hsize₃, hdata₃, L, hb₃⟩ :=
    flush_root_write (show wideChildren ≠ [] by decide)
  have hreach : Reachable steady (freshFs steady 1 0) :=
    .fresh (fresh_apply steady_healthy goodSize_one 0)
  generalize freshFs steady 1 0 = fs₀ at hrun hdirty hreach
  have hentry := rootListings_root wideChildren
  -- the root is read anew
  obtain ⟨n', fs₄, fs₅, hget, hload, hchildren⟩ := hall steady _ _ _ _ _ _ (dcIndex rootPath)
    steady_healthy hreach hdirty hrun (by rw [hentry]) (fun e hfind ↦ by
      rw [hentry, dcacheFind] at hfind
      split at hfind
      · obtain rfl := Option.some.inj hfind
        exact hclean
      · cases hfind)
  rw [hentry] at hget hload hchildren
  obtain ⟨fs₄', hget', -, hk₄, -⟩ := hb₃.inodePagedGet steady_healthy
    (show rootPath.length < 2 ^ 32 by decide)
  rw [hget, update_self] at hget'
  obtain ⟨hn', rfl⟩ := Prod.mk.inj (Option.some.inj hget')
  obtain rfl : n' = n := Except.ok.inj hn'
  have hlong : n'.iSize.toNat = 4352 := by
    rw [hsize]
    rfl
  have hextent : 0 < n'.iSize ∧ n'.iExtentOff ≠ 0 := ⟨by rw [hsize]; decide, hused⟩
  rw [loadChildren_read steady_healthy hextent (by omega)] at hload
  obtain ⟨-, rfl⟩ := Prod.mk.inj (Option.some.inj hload)
  simp only [withListing, ↓reduceIte, hlong] at hchildren
  have hlast := congrArg (fun cs ↦ cs[15]?.map DirChild.dcType) hchildren
  have hbyte : fs₄.img.data (n'.iExtentOff.toNat + 4344) = 0xFF := by
    rw [hk₄.data _ (Set.mem_Ico.mpr ⟨by omega, by omega⟩)]
    exact hdata₃ _ (by omega) (by omega)
  have hgrow := hk₄.size
  have hcount : 4352 / dirChildSize % 2 ^ 32 = 16 := by decide
  have hread : 15 * dirChildSize + 264 < min 4352 (fs₄.img.size - n'.iExtentOff.toNat) := by
    rw [show 15 * dirChildSize + 264 = 4344 from rfl]
    omega
  rw [hcount, decodeChildren, List.getElem?_map, List.getElem?_range (by decide), Option.map_some,
    Option.map_some, DirChild.decode, if_pos hread] at hlast
  rw [show n'.iExtentOff.toNat + (15 * dirChildSize + 264) = n'.iExtentOff.toNat + 4344 from rfl,
    hbyte] at hlast
  have hwide : wideChildren[15]?.map DirChild.dcType = some 0 := by decide
  rw [hwide] at hlast
  cases hlast

end fresh

end Xxfs.DirWriteback

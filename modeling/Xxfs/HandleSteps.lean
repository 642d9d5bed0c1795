import Xxfs.AttrSteps

namespace Xxfs.Soundness

open Function
open Xxfs.DiskFormat Xxfs.Machine Xxfs.Allocator Xxfs.PagedIndex Xxfs.PageStore Xxfs.InodeCache
open Xxfs.DirCache Xxfs.Volume Xxfs.Operations Xxfs.Hash Xxfs.PathName Xxfs.IndexRep Xxfs.CacheMap
open Xxfs.IndexState Xxfs.OperationFrames Xxfs.Checksum Xxfs.CacheKeys Xxfs.Frames
open Xxfs.Lib Xxfs.Lib.Computation Xxfs.Lib.Computation.Comp

/-- A handle whose size fits the file that is at its path: the blocks are the file's, and the size
is within them. -/
structure Closes (size : ℕ) (fp : File) (n : Inode) : Prop where
  file : n.iFileType ≠ ftDir
  blocks : fp.blocks = n.iBlocks
  small : n.iBlocks = 0 → fp.size.toNat ≤ inlineMax
  within : n.iBlocks ≠ 0 → fp.size.toNat ≤ n.iBlocks.toNat * 4096
  filled : n.iBlocks ≠ 0 → n.iExtentOff.toNat + fp.size.toNat ≤ size

/-- A write through a handle that lands in the blocks of the file at its path. -/
structure Lands (fp : File) (n : Inode) (count off : UInt64) : Prop where
  file : n.iFileType ≠ ftDir
  start : fp.extentOff = n.iExtentOff
  blocks : fp.blocks = n.iBlocks
  some : n.iBlocks ≠ 0
  room : off.toNat + count.toNat ≤ n.iBlocks.toNat * 4096

section close

variable {env : Env} (he : Healthy env) {K : Path → Prop} (hK : Names K) {m : Inodes} {fs fs' : Fs}
  (h : Sound K m ∅ fs) {fp : File} {n : Inode} {rc : Rc}

theorem sameBody_closed (fp : File) (n : Inode) (now : UInt64) :
    SameBody { n with iSize := fp.size, iBlocks := fp.blocks } (closedInode fp n now) :=
  sameBody_writeback _ now

theorem Fits.relock {p : Path} (hn : Fits m ∅ ∅ fs p n) (l : Lock) :
    Fits m ∅ ∅ { fs with lock := l } p n :=
  ⟨hn.sub, hn.dis, hn.shape, hn.tree, hn.listed⟩

include h

theorem Sound.fits_closed (hn : seen m fs fp.path = some n) (hc : Closes fs.img.size fp n)
    (now : UInt64) : Fits m ∅ ∅ fs fp.path (closedInode fp n now) := by
  obtain ⟨x, hx, htx⟩ := h.stored_some hn
  have hb := sameBody_closed fp n now
  have hext : extent (closedInode fp n now) = extent n := by
    rw [hb.extent, extent, extent, Inode.iExtentOff, Inode.iExtentOff]
    dsimp only
    rw [hc.blocks]
  have hshape : Shape fs.img.size { n with iSize := fp.size, iBlocks := fp.blocks } := by
    refine ⟨fun hd ↦ (hc.file hd).elim, fun _ ↦ ?_, fun hpos ↦ ?_, fun hpos ↦ ?_⟩
    · by_cases h0 : n.iBlocks = 0
      · exact .inl ⟨hc.blocks.trans h0, hc.small h0⟩
      · refine .inr ⟨?_, ?_⟩
        · dsimp only
          rw [hc.blocks]
          exact pos_of_ne_zero h0
        · dsimp only
          rw [hc.blocks]
          exact hc.within h0
    · refine hc.filled fun h0 ↦ ?_
      dsimp only at hpos
      rw [hc.blocks, h0] at hpos
      cases hpos
    · dsimp only at hpos
      rw [hc.blocks] at hpos
      exact (h.owned.shape _ n hn).aligned hpos
  refine ⟨?_, Set.disjoint_empty _, hb.shape hshape, ?_, fun i hv hpath ↦ ?_⟩
  · rw [hn, extentOf_some, hext]
  · rw [kind_update (by rw [kind, hx, Option.map_some, htx, hb.type])]
    exact h.tree
  · have ht := h.listings.typed i x hv (by rw [hpath, hx])
    exact (hc.file (htx ▸ ht)).elim

include he hK

/-- `xxfs_close` of a handle that fits the cached inode of its path. -/
theorem Sound.close (hp : K fp.path) (hhash : fp.hash = xxh64 fp.path)
    (hc : ∀ n d, cell fs.icache fp.path = some (n, d) → Closes fs.img.size fp n)
    (hx : xxfsClose env fp fs = some (rc, fs')) (hl : Live fs') :
    rc = .ok ∧ match cell fs.icache fp.path with
    | none => Looked K m fs fs'
    | some (n, _) => ∃ now m', Sound K m' ∅ fs' ∧
        Restored fp.path (closedInode fp n now) m m' fs fs' := by
  rw [xxfsClose] at hx
  obtain ⟨l, hx⟩ := locked_cases hx
  have hL₀ := h.relock l
  simp only [bind_apply, get_apply, Option.bind_some, hhash] at hx
  rcases h.settled.lookup (hK.untwinned hp) with ⟨i, e, hlook, hslot, hkey, hcell⟩ | ⟨hlook, hcell⟩
  swap
  · rw [hlook] at hx
    obtain ⟨rfl, l', rfl⟩ := unlocked_cases hx
    rw [hcell]
    exact ⟨rfl, hL₀.trans (hL₀.sound.relock l') h.coherent⟩
  · rw [hlook] at hx
    simp only [hslot] at hx
    obtain ⟨now, _, htime, hx⟩ := of_bind hx
    obtain ⟨rfl, rfl⟩ := Prod.mk.inj (Option.some.inj htime)
    obtain ⟨_, fs₁, hmod, hx⟩ := of_bind hx
    obtain ⟨-, rfl⟩ := Prod.mk.inj (Option.some.inj hmod)
    obtain ⟨_, fs₃, hdis, hx⟩ := of_bind hx
    obtain ⟨⟨rc₁, fs₂⟩, hput, hfs⟩ := Option.bind_eq_some_iff.mp hdis
    obtain ⟨-, rfl⟩ := Prod.mk.inj (Option.some.inj hfs)
    obtain ⟨rfl, l', rfl⟩ := unlocked_cases hx
    refine ⟨rfl, ?_⟩
    rw [hcell]
    have hn : seen m fs fp.path = some e.inode := by
      rw [seen, cur, hcell]
      rfl
    have hfits := h.fits_closed hn (hc _ _ hcell) (env.time fs.clock)
    have hseal : Sealed (closedInode fp e.inode (env.time fs.clock)) := sealed_writeback _ _
    change pagedPut env fp.path (inodeToVal (closedInode fp e.inode (env.time fs.clock))) { fs with
      lock := l
      icache := closeEntry fs.icache i e
        (closedInode fp e.inode (env.time fs.clock))
      clock := fs.clock + 1 } = _ at hput
    refine ⟨env.time fs.clock, ?_⟩
    generalize closedInode fp e.inode (env.time fs.clock) = n' at *
    obtain ⟨hset, hcell₁⟩ : Settled K (closeEntry fs.icache i e n') ∧
        cell (closeEntry fs.icache i e n') = update (cell fs.icache) fp.path (some (n', e.dirty)) :=
      h.settled.touch hslot hkey e.dirty n'
    generalize closeEntry fs.icache i e n' = c at *
    obtain ⟨L, hb⟩ := h.backed
    have hl₂ : Live fs₂ := live_of_relock hl
    have hl₁ : Live { fs with lock := l, icache := c, clock := fs.clock + 1 } := hl₂.of_spent
      (pagedPut_indexOnly (P := fun _ ↦ True) env fp.path trivial _ _ _ hput).spent
    have hb₁ : Backed K m (ground m ∅ fs) { fs with lock := l, icache := c, clock := fs.clock + 1 } L :=
      hb.same rfl rfl rfl rfl
    obtain ⟨rc₂, fs₃, hput', hgood⟩ := hb₁.pagedPut he hK hp hseal hl₁
    obtain ⟨rfl, rfl⟩ := Prod.mk.inj (Option.some.inj (hput.symm.trans hput'))
    obtain ⟨-, hk, L₂, hb₂⟩ := hgood hl₂
    have hcell₂ : cell fs₂.icache = update (cell fs.icache) fp.path (some (n', e.dirty)) := by
      rw [hk.only.icache]
      exact hcell₁
    have hM : Moves (ground m ∅ fs) { fs with lock := l } fs₂ :=
      (Moves.caches _ { fs with lock := l } c _ (fs.clock + 1)).trans (.of_kept hk)
    have hs₂ : Sound K (update m fp.path (some n')) ∅ fs₂ :=
      hL₀.sound.both (hfits.relock l) (by rw [hk.only.icache]; exact hset) hcell₂ hk.only.dcache hM hb₂
    exact ⟨_, (hs₂.relock l').sound,
      ((hL₀.sound.restoredAs hcell₂ hk.only.dcache hM).after hL₀ h.coherent).relock h.coherent l'⟩

end close

section handle

variable {env : Env} (he : Healthy env) {K : Path → Prop} {m : Inodes} {fs fs' : Fs}
  (h : Sound K m ∅ fs) {fp : File} {n : Inode} {buf : ℕ → UInt8} {count off : UInt64}

theorem readFd_cases {r : Except Rc UInt64 × (ℕ → UInt8)}
    (hx : xxfsReadFd env fp buf count off fs = some (r, fs')) : ∃ t, fs' = { fs with clock := t } := by
  rw [xxfsReadFd] at hx
  split at hx
  · obtain ⟨-, rfl⟩ := Prod.mk.inj (Option.some.inj hx)
    exact ⟨_, rfl⟩
  · split at hx
    · obtain ⟨-, rfl⟩ := Prod.mk.inj (Option.some.inj hx)
      exact ⟨_, rfl⟩
    · obtain ⟨r₁, fs₁, hread, hx⟩ := of_bind hx
      have hfs₁ : fs₁ = { fs with clock := fs.clock + 1 } := by
        simp only [osPread, bind_apply, tick_apply, get_apply, Option.bind_some] at hread
        split at hread
        · exact (Prod.mk.inj (Option.some.inj hread)).2.symm
        · exact (Prod.mk.inj (Option.some.inj hread)).2.symm
      subst hfs₁
      cases r₁ with
      | none =>
        obtain ⟨-, rfl⟩ := Prod.mk.inj (Option.some.inj hx)
        exact ⟨_, rfl⟩
      | some x =>
        obtain ⟨-, rfl⟩ := Prod.mk.inj (Option.some.inj hx)
        exact ⟨_, rfl⟩

/-- The state after a write through a handle that lands in its blocks. -/
def poured (fs : Fs) (n : Inode) (buf : ℕ → UInt8) (count off : UInt64) : Fs :=
  { fs with
    img := fs.img.write buf count.toNat (n.iExtentOff.toNat + off.toNat)
    clock := fs.clock + 1 }

include h

theorem Sound.poured (hn : seen m fs fp.path = some n) (hin : Lands fp n count off) :
    Sound K m ∅ (poured fs n buf count off) ∧
      Effect {fp.path} ∅ ∅ m m fs (poured fs n buf count off) := by
  have hroom := hin.room
  have hrange (i : ℕ) (hi : n.iExtentOff.toNat + off.toNat ≤ i)
      (hi' : i < n.iExtentOff.toNat + off.toNat + count.toNat) : i ∈ extent n :=
    ⟨by omega, by omega⟩
  have hspare {q : Path} {x : Inode} (hq : q ≠ fp.path) (hx : seen m fs q = some x) {i : ℕ}
      (hi : i ∈ extent x) : i < n.iExtentOff.toNat + off.toNat ∨
        n.iExtentOff.toNat + off.toNat + count.toNat ≤ i := by
    by_contra hc
    exact h.extents_apart hq hx hn hi (hrange i (by omega) (by omega))
  have hdir {q : Path} {x : Inode} (hx : m q = some x) (ht : x.iFileType = ftDir) :
      q ≠ fp.path := by
    rintro rfl
    obtain ⟨y, hy, hty⟩ := h.stored_some hn
    obtain rfl := Option.some.inj (hx.symm.trans hy)
    exact hin.file (hty.symm.trans ht)
  refine ⟨h.write buf _ (fun i hi hi' ↦ extent_subset hn (hrange i hi hi')) fun j x hv _ hx i hi ↦ ?_,
    fun p _ ↦ .inl ⟨rfl, rfl⟩, fun p x _ _ hx ht ↦ ?_,
    fun p x hp hx _ i hi ↦ Image.write_out _ _ (hspare hp hx hi)⟩
  · exact hspare (hdir hx (h.listings.typed j x hv hx)) (h.listed_dir hv hx).1 hi
  · have hdisk : diskChildren (Soundness.poured fs n buf count off).img x = diskChildren fs.img x :=
      h.diskChildren_eq hx ht fun i hi ↦
        Image.write_out _ _ (hspare (hdir hx ht) (cur_dir (h.coherent p) hx ht) hi)
    refine listing_disk ?_ hx hdisk
    rfl

include he

theorem Sound.writeFd (hn : seen m fs fp.path = some n) (hin : Lands fp n count off)
    (h0 : count ≠ 0) : xxfsWriteFd env fp buf count off fs =
      some ((.ok count, { fp with size := maxSize fp.size (off + count) }),
        Soundness.poured fs n buf count off) := by
  have hpos := pos_of_ne_zero hin.some
  obtain ⟨-, hhigh⟩ := h.extent_off hn hpos
  have hbound := h.bound
  have hroom := hin.room
  have hend : (off + count).toNat = off.toNat + count.toNat := by
    rw [UInt64.toNat_add]
    omega
  have hcap : (fp.blocks * 4096).toNat = n.iBlocks.toNat * 4096 := by
    rw [hin.blocks, UInt64.toNat_mul]
    change n.iBlocks.toNat * 4096 % 2 ^ 64 = _
    omega
  have hgrow : growHandle env fp (off + count) fs = some (.ok fp, fs) := by
    have hfirst : ¬((off + count).toNat > inlineMax ∧ fp.blocks = 0) :=
      fun hc ↦ hin.some (hin.blocks ▸ hc.2)
    have hmore : ¬(off + count > fp.blocks * 4096) := by
      rw [gt_iff_lt, UInt64.lt_iff_toNat_lt]
      omega
    rw [growHandle, if_neg hfirst, if_neg hmore]
    rfl
  have hoff : (fp.extentOff + off).toNat = n.iExtentOff.toNat + off.toNat := by
    rw [hin.start, UInt64.toNat_add]
    omega
  rw [xxfsWriteFd, if_neg h0, bind_apply, hgrow, Option.bind_some]
  dsimp only
  rw [bind_apply, he.osPwrite_apply _ _ _ (by omega), Option.bind_some, if_pos rfl, hoff]
  rfl

end handle

end Xxfs.Soundness

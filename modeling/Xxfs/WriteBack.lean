import Xxfs.ChildSteps
import Xxfs.FreshVolume
import Xxfs.PageRuns

namespace Xxfs.Soundness

open Function
open Xxfs.DiskFormat Xxfs.Machine Xxfs.Allocator Xxfs.PageCache Xxfs.PagedIndex Xxfs.PageStore
open Xxfs.InodeCache Xxfs.DirCache Xxfs.Volume Xxfs.Hash Xxfs.PathName Xxfs.IndexRep Xxfs.CacheMap
open Xxfs.IndexState Xxfs.OperationFrames Xxfs.Checksum Xxfs.CacheKeys Xxfs.Frames
open Xxfs.Lib Xxfs.Lib.Computation Xxfs.Lib.Computation.Comp

section sound

variable {env : Env} (he : Healthy env) {K : Path → Prop} {m : Inodes} {fs : Fs}
  (h : Sound K m ∅ fs)
include h

/-- What a mount reads is on the disk. -/
structure Mountable (fs : Fs) : Prop where
  super : ∀ i < 4096, fs.img.data i = fs.sb.encode i
  size : 4096 ≤ fs.img.size
  sealed : crc32c fs.sb.encode superCrcOff = fs.sb.sChecksum
  dirSize : fs.sb.sPdirSize = 1
  dirDepth : fs.sb.sPdirDepth = 0
  dir : ∀ i < 8, fs.img.data (fs.sb.sPdirOff.toNat + i) = encodeDir fs.pdir.pageOff i
  dirEnd : fs.sb.sPdirOff.toNat + 8 ≤ fs.img.size

theorem Sound.table_off : 4096 ≤ fs.sb.sPdirOff.toNat ∧ fs.sb.sPdirOff.toNat + 4096 ≤ front fs.sb := by
  have hfirst : fs.sb.sPdirOff.toNat ∈ share (seen m fs) fs.sb.sPdirOff ∅ .table :=
    ⟨le_rfl, by omega⟩
  have hlast : fs.sb.sPdirOff.toNat + 4095 ∈ share (seen m fs) fs.sb.sPdirOff ∅ .table :=
    ⟨by omega, by omega⟩
  have hlow := h.owned.apart.not_mem (b := .super) (by simp) hfirst
  have hhigh := h.below (Shares.subset_owned (share (seen m fs) fs.sb.sPdirOff ∅) .table hlast)
  rw [share, Set.mem_Iio] at hlow
  omega

theorem Sound.super_low : 4096 ≤ front fs.sb := by
  have := h.table_off
  omega

theorem Sound.writeOwn {x : Owner} (hx : ∀ p, x ≠ .path p) (src : ℕ → UInt8) (len off t : ℕ)
    (hin : ∀ i, off ≤ i → i < off + len → i ∈ share (seen m fs) fs.sb.sPdirOff ∅ x) :
    Sound K m ∅ { fs with img := fs.img.write src len off, clock := t } ∧
      Effect ∅ ∅ ∅ m m fs { fs with img := fs.img.write src len off, clock := t } := by
  have hspare {p : Path} {n : Inode} (hn : seen m fs p = some n) {i : ℕ} (hi : i ∈ extent n) :
      i < off ∨ off + len ≤ i := by
    by_contra hc
    have hpath : i ∈ share (seen m fs) fs.sb.sPdirOff ∅ (.path p) := ⟨n, hn, hi⟩
    exact h.owned.apart.not_mem (hx p).symm hpath (hin i (by omega) (by omega))
  refine ⟨h.write src t (fun i h₁ h₂ ↦ Shares.subset_owned _ x (hin i h₁ h₂))
    fun j n hv _ hn i hi ↦ hspare (h.listed_dir hv hn).1 hi, fun _ _ ↦ .inl ⟨rfl, rfl⟩,
    fun p n _ _ hn ht ↦ ?_, fun p n _ hn _ i hi ↦ Image.write_out _ _ (hspare hn hi)⟩
  have hdisk : diskChildren (fs.img.write src len off) n = diskChildren fs.img n :=
    h.diskChildren_eq hn ht fun i hi ↦
      Image.write_out _ _ (hspare (cur_dir (h.coherent p) hn ht) hi)
  rw [listing_clock, listing, listing]
  dsimp only
  rw [hn, Option.map_some, Option.map_some, hdisk]
  rfl

include he

theorem Sound.flushPages : ∃ fs', pcacheFlushAll env fs = some ((), fs') ∧ Sound K m ∅ fs' ∧
    Kept (ground m ∅ fs) fs fs' ∧ fs'.sb = fs.sb ∧ ∀ i < pcacheSize, PageClean (fs'.pcache i) := by
  obtain ⟨L, hb⟩ := h.backed
  obtain ⟨fs', hflush, hk, hq, hclean, -⟩ := pcacheFlush_apply he hb.rep.pages (List.range pcacheSize)
  have hM : Moved L L fs fs' := .ofQuiet hq
  have hkept := hb.kept hM (pcacheFlushAll_indexOnly env _ _ _ hflush)
  have hb' := hb.moved (hb.rep.quiet hk hq) hM hb.keys hb.nodup hb.get hb.whole
  exact ⟨fs', hflush, h.kept hkept hb', hkept, hq.sb, fun i hi ↦ hclean i (List.mem_range.mpr hi)⟩

/-- What `superWrite` leaves as it was. -/
structure SuperOnly (fs fs' : Fs) : Prop where
  only : IndexOnly (fun _ ↦ True) fs fs'
  pcache : fs'.pcache = fs.pcache
  pdir : fs'.pdir = fs.pdir
  free : fs'.sb.sFreeBlocks = fs.sb.sFreeBlocks
  count : fs'.sb.sBlockCount = fs.sb.sBlockCount
  off : fs'.sb.sDataOff = fs.sb.sDataOff

theorem Sound.superWrite : ∃ fs', superWrite env fs = some ((), fs') ∧ Sound K m ∅ fs' ∧
    Effect ∅ ∅ ∅ m m fs fs' ∧ Mountable fs' ∧ SuperOnly fs fs' := by
  obtain ⟨L, hb⟩ := h.backed
  have hdir := hb.rep.dir
  obtain ⟨hlow, hhigh⟩ := h.table_off
  have hbound := h.bound
  have hoff : fs.sb.sPdirOff ≠ 0 := fun h0 ↦ by rw [h0] at hlow; exact absurd hlow (by decide)
  generalize headOff L = x at hdir
  obtain ⟨hs₁, hE₁⟩ := h.writeOwn (x := .table) (fun _ hc ↦ by cases hc) (encodeDir [x]) 8
    fs.sb.sPdirOff.toNat (fs.clock + 1) fun i h₁ h₂ ↦ ⟨h₁, by omega⟩
  -- the superblock that is written
  generalize hsb : ({ fs.sb with sPdirSize := 1, sPdirDepth := 0 } : Super) = sb
  obtain ⟨c, e, hc, hseal⟩ := superSetChecksumEcc_eq sb
  have hs₂ : Sound K m ∅ { fs with
      img := fs.img.write (encodeDir [x]) 8 fs.sb.sPdirOff.toNat
      sb := superSetChecksumEcc sb
      clock := fs.clock + 1 } := by
    refine hs₁.same rfl rfl rfl rfl rfl ?_
    rw [hseal, ← hsb]
    exact ⟨rfl, rfl, rfl, rfl, rfl⟩
  obtain ⟨hs₃, hE₃⟩ := hs₂.writeOwn (x := .super) (fun _ hc ↦ by cases hc)
    (superSetChecksumEcc sb).encode 4096 0 (fs.clock + 2) fun i _ h₂ ↦ by
      rw [share, Set.mem_Iio]
      omega
  have happly := FreshVolume.superWrite_apply he hdir hoff (by omega) hsb
  refine ⟨_, happly, hs₃, ?_, ?_, superWrite_indexOnly env _ _ _ happly, rfl, rfl, ?_, ?_, ?_⟩
  · exact hE₁.trans (hE₃.start rfl rfl rfl) h.coherent
  · have hfields : (superSetChecksumEcc sb).sPdirOff = fs.sb.sPdirOff ∧
        (superSetChecksumEcc sb).sPdirSize = 1 ∧ (superSetChecksumEcc sb).sPdirDepth = 0 ∧
        crc32c (superSetChecksumEcc sb).encode superCrcOff =
          (superSetChecksumEcc sb).sChecksum := by
      rw [hseal, ← hsb]
      refine ⟨rfl, rfl, rfl, ?_⟩
      rw [hsb, crc_reseal, ← hc]
      rfl
    obtain ⟨hf₁, hf₂, hf₃, hf₄⟩ := hfields
    have hend : fs.sb.sPdirOff.toNat + 8 ≤
        (fs.img.write (encodeDir [x]) 8 fs.sb.sPdirOff.toNat).size :=
      write_end _ _ (by decide)
    refine ⟨fun i hi ↦ ?_, ?_, hf₄, hf₂, hf₃, fun i hi ↦ ?_, ?_⟩
    · exact Image.write_in _ _ (Nat.zero_le _) (by omega)
    · have hsize : 0 + 4096 ≤ ((fs.img.write (encodeDir [x]) 8 fs.sb.sPdirOff.toNat).write
          (superSetChecksumEcc sb).encode 4096 0).size := write_end _ _ (by decide)
      rwa [Nat.zero_add] at hsize
    · dsimp only
      rw [hf₁, hdir, Image.write_out _ _ (by omega), Image.write_in _ _ (by omega) (by omega),
        Nat.add_sub_cancel_left]
    · dsimp only
      rw [hf₁]
      exact hend.trans (Image.write_size _ _ _ _)
  all_goals
    dsimp only
    rw [hseal, ← hsb]
    rfl

end sound

end Xxfs.Soundness

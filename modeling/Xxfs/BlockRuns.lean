import Xxfs.Answers
import Xxfs.NamespaceRuns

namespace Xxfs.Soundness

open Function
open Xxfs.DiskFormat Xxfs.Machine Xxfs.PagedIndex Xxfs.PageStore Xxfs.InodeCache Xxfs.DirCache
open Xxfs.Volume Xxfs.Operations Xxfs.Hash Xxfs.PathName Xxfs.IndexRep Xxfs.CacheMap
open Xxfs.IndexState Xxfs.OperationFrames Xxfs.Checksum Xxfs.CacheKeys Xxfs.Frames
open Xxfs.FreshVolume Xxfs.FreshIndex Xxfs.NamespaceRuns Xxfs.Runs
open Xxfs.Lib Xxfs.Lib.Computation Xxfs.Lib.Computation.Comp

theorem inlined_off (n : Inode) (buf : ℕ → UInt8) : (inlined n buf 0 8).iExtentOff = LittleEndian.getU64 buf 0 := by
  have hbytes (j : ℕ) (hj : j < 8) : (arr (inlined n buf 0 8).iUnion).2 (0 + j) = buf (0 + j) := by
    change (arr (arrCopy n.iUnion 0 8 buf)).2 (0 + j) = _
    rw [arr_arrCopy, if_pos (by omega), Nat.sub_zero]
  rw [Inode.iExtentOff, LittleEndian.getU64, LittleEndian.getLE_congr hbytes]
  rfl

/-- A file on a fresh image of one megabyte, with its first block, and the eight bytes that are
written to its start. -/
structure Overwritten (m : Inodes) (n₁ n : Inode) (fs₁ fs : Fs) (buf : ℕ → UInt8) (fs' : Fs) :
    Prop where
  created : xxfsCreate steady [slash, 97] 0 0 0 (freshFs steady 1 0) = some (.ok, fs₁)
  run₁ : CarefulRun (· ∈ fewPaths) steady fs₁
  live₁ : Live fs₁
  sound₁ : Sound (· ∈ fewPaths) m ∅ fs₁
  seen₁ : seen m fs₁ [slash, 97] = some n₁
  file : n₁.iFileType = ftReg
  empty : Hollow n₁
  filled : xxfsWrite steady [slash, 97] (fun _ ↦ 1) 0 200 fs₁ = some (.ok, fs)
  careful : Careful (· ∈ fewPaths) fs₁ (.write [slash, 97] (fun _ ↦ 1) 0 200)
  live : Live fs
  sound : Sound (· ∈ fewPaths) m ∅ fs
  wrote : Wrote [slash, 97] n₁ n (fun _ ↦ 1) 0 200 m fs₁ fs
  written : xxfsWrite steady [slash, 97] buf 0 8 fs = some (.ok, fs')
  basis : Basis (· ∈ fewPaths) m fs'
  cells : cell fs'.icache = update (cell fs.icache) [slash, 97] (some (inlined n buf 0 8, true))
  dcache : fs'.dcache = fs.dcache
  sb : fs'.sb = fs.sb

section overwritten

variable {m : Inodes} {n₁ n : Inode} {fs₁ fs fs' : Fs} {buf : ℕ → UInt8}
  (h : Overwritten m n₁ n fs₁ fs buf fs')
include h

theorem Overwritten.run : CarefulRun (· ∈ fewPaths) steady fs :=
  h.run₁.step h.careful (exec_discard h.filled) h.live

theorem Overwritten.live' : Live fs' := h.live.of_sb h.sb

theorem Overwritten.run' {C : Fs → Op → Prop}
    (h₁ : C (freshFs steady 1 0) (.create [slash, 97] 0 0 0))
    (h₂ : C fs₁ (.write [slash, 97] (fun _ ↦ 1) 0 200)) (h₃ : C fs (.write [slash, 97] buf 0 8)) :
    RunBy C steady fs' :=
  have hr₀ : RunBy C steady (freshFs steady 1 0) := .fresh (fresh_apply steady_healthy goodSize_one 0)
  have hr₁ := hr₀.step h₁ (exec_discard h.created) h.live₁
  have hr := hr₁.step h₂ (exec_discard h.filled) h.live
  hr.step h₃ (exec_discard h.written) h.live'

theorem Overwritten.seen : seen m fs [slash, 97] = some n := h.wrote.now

theorem Overwritten.type : n.iFileType = ftReg := by
  rw [h.wrote.body]
  exact h.file

theorem Overwritten.size : n.iSize.toNat = 200 := by
  have hmax : (maxSize n₁.iSize (0 + (200 : UInt32).toUInt64)).toNat = max n₁.iSize.toNat _ :=
    maxSize_toNat (by decide) n₁.iSize
  rw [h.wrote.body]
  change (maxSize n₁.iSize (0 + (200 : UInt32).toUInt64)).toNat = 200
  rw [hmax, h.empty.size]
  rfl

theorem Overwritten.blocks : 0 < n.iBlocks.toNat := by
  have hsize := h.size
  have h128 : inlineMax = 128 := rfl
  have hfile : n.iFileType ≠ ftDir := by
    rw [h.type]
    decide
  rcases (h.sound.owned.shape _ n h.seen).file hfile with ⟨-, hs⟩ | ⟨hb, -⟩
  · omega
  · exact hb

/-- Afterwards the inode still has its block and its size, but points where the bytes say. -/
theorem Overwritten.seen' : Soundness.seen m fs' [slash, 97] = some (inlined n buf 0 8) := by
  rw [Soundness.seen, cur, h.cells, update_self]
  rfl

end overwritten

theorem first_overwritten : ∃ m n₁ n fs₁ fs, ∀ buf, ∃ fs', Overwritten m n₁ n fs₁ fs buf fs' := by
  have hmem : pathNormalize [slash, 97] ∈ fewPaths := by decide
  have hnorm : pathNormalize [slash, 97] = [slash, 97] := by decide
  obtain ⟨m, fs₁, hx, hr, hs, ha, hA⟩ := first_create fewPaths_names
    (careful_first fewPaths_names 0 0 0 hmem (by decide) (by decide)) hmem (by decide) (by decide)
  have ht : (createdInode (pathNormalize [slash, 97]) 0 0 0 (freshFs steady 1 0).cowGen).iFileType =
      ftReg := (sameBody_sealed _).type
  have hh : Hollow (createdInode (pathNormalize [slash, 97]) 0 0 0 (freshFs steady 1 0).cowGen) :=
    hollow_sealed rfl rfl rfl
  generalize createdInode (pathNormalize [slash, 97]) 0 0 0 (freshFs steady 1 0).cowGen = n₁ at *
  have hfile : n₁.iFileType ≠ ftDir := by
    rw [ht]
    decide
  have htakes : Takes n₁ 0 200 := ⟨by decide, .inr (.inl ⟨by decide, hh.blocks, .inl hh.size⟩)⟩
  obtain ⟨fs, hw, hsp⟩ : ∃ fs, xxfsWrite steady [slash, 97] (fun _ ↦ 1) 0 200 fs₁ = some (.ok, fs) ∧
      Spares 1 fs₁ fs :=
    hs.write_returns steady_healthy fewPaths_names hmem hA.fresh hfile (by decide) hh.blocks hh.size
      (by decide) (by decide) (ha.mono (by decide))
  have hl : Live fs := hsp.live (ha.mono (by decide))
  have hfresh : seen m fs₁ [slash, 97] = some n₁ := by
    rw [← hnorm]
    exact hA.fresh
  have hall (x : Inode) (hx : seen m fs₁ (pathNormalize [slash, 97]) = some x)
      (_ : x.iFileType ≠ ftDir) : Takes x 0 200 := by
    rw [hnorm, hfresh] at hx
    exact Option.some.inj hx ▸ htakes
  have hW := hs.writes steady_healthy fewPaths_names hmem (by decide) hall hw hl
  rw [hnorm, hfresh] at hW
  dsimp only at hW
  rw [if_neg hfile] at hW
  obtain ⟨-, n, hs', hwrote⟩ := hW
  refine ⟨m, n₁, n, fs₁, fs, fun buf ↦ ?_⟩
  obtain ⟨fs', hw', hb, hcells, hdc, hsb⟩ : ∃ fs',
      xxfsWrite steady [slash, 97] buf 0 8 fs = some (.ok, fs') ∧ _ :=
    hs'.basis.writeInline steady_healthy fewPaths_names hmem (by rw [hnorm]; exact hwrote.now)
      (by rw [hwrote.body]; exact hfile) (by decide) (by decide)
  rw [hnorm] at hcells
  exact ⟨fs', hx, hr, ha.live, hs, hfresh, ht, hh, hw,
    (careful_iff fewPaths_names hs).mpr ⟨hmem, fun _ ↦ hall⟩, hl, hs', hwrote, hw', hb, hcells, hdc, hsb⟩

end Xxfs.Soundness

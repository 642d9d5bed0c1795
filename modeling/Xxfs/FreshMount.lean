import Xxfs.ExclusiveCreate
import Xxfs.PathShape

namespace Xxfs.FreshMount

open Xxfs.DiskFormat Xxfs.Machine Xxfs.Allocator Xxfs.Volume Xxfs.Operations Xxfs.Hash
open Xxfs.InodeCache Xxfs.DirCache Xxfs.PathName Xxfs.PagedIndex Xxfs.IndexRep Xxfs.Checksum
open Xxfs.FreshVolume Xxfs.FreshIndex Xxfs.StoredInode Xxfs.OperationFrames Xxfs.Reach Xxfs.Runs
open Xxfs.CacheKeys Xxfs.ExclusiveCreate Xxfs.Lib.Computation Xxfs.Lib.Computation.Comp

section lookups

variable {env : Env} (he : Healthy env) {fs : Fs} (hf : LockFree fs) {L : Chain}
  (h : Represents fs L) (path : Path)
include he h

theorem lockedGet : ∃ fs₁, inodePagedGet env (pathNormalize path) (held .read fs) =
    some ((found (ents L) (pathNormalize path) inodeSize).map readBack, fs₁) ∧
      Holds .read fs₁ := by
  have hk : (pathNormalize path).length < 2 ^ 32 := (pathNormalize_length path).trans (by decide)
  obtain ⟨fs₁, hget, -, -⟩ := inodePagedGet_apply he hk
    (h.same (held_img .read fs) (held_sb .read fs) (held_pdir .read fs) (held_pcache .read fs))
  have hio := inodePagedGet_indexOnly (P := fun _ ↦ True) env _ _ _ _ hget
  exact ⟨fs₁, hget, (holds_held .read fs).of_same ⟨hio.lock, hio.flags⟩⟩

include hf

/-- `xxfs_stat` of a path that is neither cached nor in the index. -/
theorem xxfsStat_missing (hempty : fs.icache = icacheInit)
    (hv : found (ents L) (pathNormalize path) inodeSize = .error .enoent) :
    ∃ fs', xxfsStat env path fs = some (.error .enoent, fs') := by
  obtain ⟨fs₁, hget, hheld⟩ := lockedGet he h path
  have hmiss : icacheInode icacheInit (xxh64 (pathNormalize path)) = none := rfl
  refine ⟨held .free fs₁, ?_⟩
  rw [xxfsStat, fsRlock, bracket_eq hf, bind_apply]
  simp only [get_apply, Option.bind_some, held_icache, hempty, hmiss]
  rw [bind_apply, hget, Option.bind_some, hv]
  exact unlock_apply hheld _

/-- What `xxfs_readdir` answers without a cached listing, for a directory that is empty. -/
def dirAnswer : Except Rc (List UInt8) → Except Rc (List DirChild)
  | .error _ => .error .enoent
  | .ok _ => .ok []

theorem xxfsReaddir_uncached (hd : dcacheFind fs (pathNormalize path) = none)
    (hv : ∀ val, found (ents L) (pathNormalize path) inodeSize = .ok val →
      (readBack val).iFileType = ftDir ∧ (readBack val).iSize = 0) :
    ∃ fs', xxfsReaddir env path fs =
      some (dirAnswer (found (ents L) (pathNormalize path) inodeSize), fs') := by
  obtain ⟨fs₁, hget, hheld⟩ := lockedGet he h path
  have hmiss : dcacheFind (held .read fs) (pathNormalize path) = none := by
    rw [dcacheFind, held_dcache]
    exact hd
  refine ⟨held .free fs₁, ?_⟩
  rw [xxfsReaddir, fsRlock, bracket_eq hf, bind_apply]
  simp only [get_apply, Option.bind_some, hmiss]
  rw [bind_apply, hget, Option.bind_some]
  cases hval : found (ents L) (pathNormalize path) inodeSize with
  | error rc => exact unlock_apply hheld _
  | ok val =>
    obtain ⟨ht, hs⟩ := hv val hval
    dsimp only [Except.map]
    rw [if_neg (not_not.mpr ht), if_pos (.inl hs)]
    exact unlock_apply hheld _

end lookups

/-- A range of bytes of the image. -/
structure Region where
  off : ℕ
  len : ℕ

def Region.stop (r : Region) : ℕ := r.off + r.len

def Region.Apart (a b : Region) : Prop := a.stop ≤ b.off ∨ b.stop ≤ a.off

/-- The regions the superblock reserves: the WAL, ping, pong and the group descriptors. -/
def reserved (sb : Super) : List Region :=
  [⟨sb.sWalOff.toNat, sb.sWalBlocks.toNat * 4096⟩, ⟨sb.sPpPingOff.toNat, sb.sPpBlocks.toNat * 4096⟩,
    ⟨sb.sPpPongOff.toNat, sb.sPpBlocks.toNat * 4096⟩,
    ⟨sb.sBgDescOff.toNat, sb.sBgCount.toNat * 64⟩]

/-- What `xxfs_mkfs` itself has put behind `s_data_off`: the root's record, the pages of the
index and the stored directory. -/
def formatted (fs : Fs) : List Region :=
  ⟨fs.sb.sDataOff.toNat, recLen rootPath.length inodeSize⟩ ::
    ⟨fs.sb.sPdirOff.toNat, fs.sb.sPdirSize.toNat * 8⟩ ::
    fs.pdir.pageOff.map fun off ↦ ⟨off.toNat, 4096⟩

theorem freshSuper_reserved (blocks now : UInt64) :
    reserved (freshSuper blocks now) = [⟨4096, 2048 * 4096⟩, ⟨2049 * 4096, 512 * 4096⟩,
      ⟨2561 * 4096, 512 * 4096⟩,
      ⟨3073 * 4096, ((blocks + 8191) / 8192).toUInt32.toNat * 64⟩] := by
  obtain ⟨c, -, hc⟩ := superSetChecksum_eq (mkfsSuper blocks now)
  rw [freshSuper, hc]
  generalize hs : ({ Super.reseal (mkfsSuper blocks now) c (mkfsSuper blocks now).sEcc with
    sPdirOff := dataStart blocks + 8192
    sPdirSize := 1
    sPdirDepth := 0
    sFreeBlocks := blocks - 3 - 4 } : Super) = s
  obtain ⟨c', -, hc'⟩ := superSetChecksum_eq s
  rw [hc', ← hs, ← mkfsSuper_bgCount blocks now]
  rfl

/-- What a file system has to be like before anything is done with it. -/
structure Begins (env : Env) (fs : Fs) : Prop where
  root : ∃ n fs', xxfsStat env rootPath fs = some (.ok n, fs') ∧ n.iFileType = ftDir ∧ Sealed n
  empty : ∃ fs', xxfsReaddir env rootPath fs = some (.ok [], fs')
  others : ∀ path, pathNormalize path ≠ rootPath →
    (∃ fs', xxfsStat env path fs = some (.error .enoent, fs')) ∧
      ∃ fs', xxfsReaddir env path fs = some (.error .enoent, fs')
  aligned : fs.sb.sDataOff.toNat % 4096 = 0
  above : ∀ r ∈ reserved fs.sb, r.stop ≤ fs.sb.sDataOff.toNat
  apart : (reserved fs.sb).Pairwise Region.Apart
  free : fs.sb.sFreeBlocks.toNat + 7 = fs.sb.sBlockCount.toNat
  first : ∃ off fs', pageAlloc env fs = some (off, fs') ∧ ∀ r ∈ formatted fs, r.stop ≤ off.toNat

section fresh

variable {env : Env} (he : Healthy env) {sizeMb : UInt64} (hg : GoodSize sizeMb) (flags : UInt64)

theorem fresh_regions : (∀ r ∈ reserved (freshFs env sizeMb flags).sb,
      r.stop ≤ (freshFs env sizeMb flags).sb.sDataOff.toNat) ∧
    (reserved (freshFs env sizeMb flags).sb).Pairwise Region.Apart := by
  have hs : FreshSuper (freshFs env sizeMb flags).sb _ := fresh_super sizeMb flags
  have hstart := dataStart_toNat (totalBlocks sizeMb)
  have hres : reserved (freshFs env sizeMb flags).sb = _ :=
    freshSuper_reserved (totalBlocks sizeMb) (env.time 1)
  rw [hres, hs.dataOff, hstart]
  simp only [List.mem_cons, List.not_mem_nil, or_false, forall_eq_or_imp, forall_eq,
    List.pairwise_cons, Region.stop, Region.Apart, List.Pairwise.nil, IsEmpty.forall_iff,
    implies_true, and_true]
  omega

include hg

theorem fresh_first : ∃ off fs', pageAlloc env (freshFs env sizeMb flags) = some (off, fs') ∧
    ∀ r ∈ formatted (freshFs env sizeMb flags), r.stop ≤ off.toNat := by
  have hs : FreshSuper (freshFs env sizeMb flags).sb _ := fresh_super sizeMb flags
  obtain ⟨hp, hfree⟩ := fresh_poolOk env hg flags
  have hb := totalBlocks_bounds hg
  have hd := dataStart_bounds (totalBlocks sizeMb)
  have hpage := dataStart_add (totalBlocks sizeMb) 4096 (by decide)
  have hdir := dataStart_add (totalBlocks sizeMb) 8192 (by decide)
  have hpdir : (freshFs env sizeMb flags).pdir = ⟨[dataStart (totalBlocks sizeMb) + 4096], 0⟩ := rfl
  have hform : formatted (freshFs env sizeMb flags) =
      [⟨(dataStart (totalBlocks sizeMb)).toNat, 569⟩,
        ⟨(dataStart (totalBlocks sizeMb) + 8192).toNat, 8⟩,
        ⟨(dataStart (totalBlocks sizeMb) + 4096).toNat, 4096⟩] := by
    rw [formatted, hs.dataOff, hs.pdirOff, hs.pdirSize, hpdir]
    rfl
  rw [hs.blockCount] at hfree
  have hpos : 0 < (freshFs env sizeMb flags).sb.sFreeBlocks.toNat := by omega
  have hne : (freshFs env sizeMb flags).sb.sFreeBlocks ≠ 0 := fun h0 ↦ by
    rw [h0] at hpos
    exact absurd hpos (by decide)
  have hnext := nextOff_toNat hp hpos
  rw [front, hs.dataOff, hs.blockCount, ← hfree, Nat.add_sub_cancel_left] at hnext
  refine ⟨_, _, pageAlloc_free env hne, ?_⟩
  rw [hform, hnext]
  have h4096 : UInt64.toNat 4096 = 4096 := rfl
  have h8192 : UInt64.toNat 8192 = 8192 := rfl
  simp only [List.mem_cons, List.not_mem_nil, or_false, forall_eq_or_imp, forall_eq, Region.stop]
  omega

omit hg in
theorem rootInode_fields (now : UInt64) : Sealed (rootInode now) ∧
    (rootInode now).iFileType = ftDir ∧ (rootInode now).iSize = 0 := by
  refine ⟨sealed_inodeSetChecksumEcc _, ?_⟩
  rw [rootInode]
  generalize hn : ({ Inode.zero with
    iMode := 0o755
    iFileType := ftDir
    iNlinks := 2
    iAtime := now
    iMtime := now
    iCtime := now
    iBtime := now
    iGeneration := 1
    iName := arrCopy (fun _ ↦ 0) 0 2 (bytesAt rootPath) } : Inode) = n
  obtain ⟨c, e, -, hseal⟩ := inodeSetChecksumEcc_eq n
  rw [hseal, ← hn]
  exact ⟨rfl, rfl⟩

omit hg in
theorem fresh_found_other (blocks now : UInt64) {key : Path} (hk : key ≠ rootPath) :
    found (ents (freshChain blocks now)) key inodeSize = .error .enoent := by
  rw [freshChain]
  generalize inodeToVal (rootInode now) = val
  have hents : ents [(dataStart blocks + 4096, [⟨rootPath, val, some (dataStart blocks)⟩])] =
      [⟨rootPath, val, some (dataStart blocks)⟩] := rfl
  rw [hents, found, lookup, List.find?_cons_of_neg (by simpa using hk.symm)]
  rfl

include he

theorem freshFs_begins : Begins env (freshFs env sizeMb flags) := by
  have hf := (reachable_orderly env (.fresh (fresh_apply he hg flags))).lock
  have hR := fresh_represents env hg flags
  have hroot := fresh_found (totalBlocks sizeMb) (env.time 1)
  have hnorm : pathNormalize rootPath = rootPath := by decide
  obtain ⟨hsealed, hdir, hsize⟩ := rootInode_fields (env.time 1)
  have hback := readBack_sealed hsealed
  have hcache : (freshFs env sizeMb flags).icache = icacheInit := rfl
  have hlist (p : Path) : dcacheFind (freshFs env sizeMb flags) p = none := rfl
  have haligned : (freshFs env sizeMb flags).sb.sDataOff.toNat % 4096 = 0 :=
    (fresh_poolOk env hg flags).1.aligned
  refine ⟨?_, ?_, fun path hne ↦ ⟨?_, ?_⟩, haligned, (fresh_regions flags).1,
    (fresh_regions flags).2, (fresh_poolOk env hg flags).2, fresh_first hg flags⟩
  · obtain ⟨k, fs', hstat, -⟩ := xxfsStat_found he hf hcache hR
      (show (pathNormalize rootPath).length < 2 ^ 32 by decide) (by rw [hnorm]; exact hroot)
    rw [hback] at hstat
    exact ⟨_, fs', hstat, hdir, hsealed⟩
  · obtain ⟨fs', hread⟩ := xxfsReaddir_uncached he hf hR rootPath (hlist _) fun val hval ↦ by
      rw [hnorm, hroot] at hval
      rw [← Except.ok.inj hval, hback]
      exact ⟨hdir, hsize⟩
    rw [hnorm, hroot] at hread
    exact ⟨fs', hread⟩
  · exact xxfsStat_missing he hf hR path hcache (fresh_found_other _ _ hne)
  · have hmissing := fresh_found_other (totalBlocks sizeMb) (env.time 1) hne
    obtain ⟨fs', hread⟩ := xxfsReaddir_uncached he hf hR path (hlist _) fun val hval ↦ by
      rw [hmissing] at hval
      cases hval
    rw [hmissing] at hread
    exact ⟨fs', hread⟩

end fresh

/-- A freshly formatted image of any size up to a petabyte can be mounted and is in order. -/
theorem mkfs_begins {env : Env} (he : Healthy env) {sizeMb : UInt64} (h1 : 1 ≤ sizeMb.toNat)
    (h2 : sizeMb.toNat ≤ 2 ^ 30) (flags : UInt64) :
    ∃ fs, fresh env sizeMb flags = some fs ∧ Begins env fs := by
  have hg : GoodSize sizeMb := by
    refine ⟨UInt64.le_iff_toNat_le.mpr h1, ?_⟩
    have hk : UInt64.toNat 1024 = 1024 := rfl
    rw [UInt64.toNat_mul, UInt64.toNat_mul, hk]
    omega
  exact ⟨_, fresh_apply he hg flags, freshFs_begins he hg flags⟩

theorem mkfs_begins_one : ∃ fs, fresh steady 1 0 = some fs ∧ Begins steady fs :=
  mkfs_begins steady_healthy (by decide) (by decide) 0

end Xxfs.FreshMount

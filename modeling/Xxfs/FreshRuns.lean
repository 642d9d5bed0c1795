import Xxfs.CacheHomes
import Xxfs.PathShape
import Xxfs.Returns

namespace Xxfs.Soundness

open Function
open Xxfs.DiskFormat Xxfs.Machine Xxfs.Allocator Xxfs.PagedIndex Xxfs.PageStore Xxfs.InodeCache
open Xxfs.DirCache Xxfs.Volume Xxfs.Operations Xxfs.Hash Xxfs.PathName Xxfs.IndexRep Xxfs.CacheMap
open Xxfs.IndexState Xxfs.OperationFrames Xxfs.Checksum Xxfs.CacheKeys Xxfs.Frames
open Xxfs.FreshVolume Xxfs.FreshIndex Xxfs.Runs
open Xxfs.Lib Xxfs.Lib.Computation Xxfs.Lib.Computation.Comp

section runs

variable {env : Env} (he : Healthy env) {K : Path → Prop} (hK : Names K) {m : Inodes} {fs fs' : Fs}

theorem exec_discard {α : Type} {c : FsM α} {a : α} (h : c fs = some (a, fs')) :
    discard c fs = some ((), fs') := by
  rw [discard_apply, h]
  rfl

theorem careful_iff (hK : Names K) (h : Sound K m ∅ fs) {op : Op} :
    Careful K fs op ↔ CarefulAt K m fs op := by
  rw [Careful, h.indexed_eq hK]

include he hK

theorem RunBy.create {C : Fs → Op → Prop} (hr : RunBy C env fs) (h : Sound K m ∅ fs) {path : Path}
    {mode uid gid : UInt16} (hC : C fs (.create path mode uid gid)) (hp : K (pathNormalize path))
    (hc : cell fs.icache (pathNormalize path) = none) (hv : Vacant m fs (pathNormalize path))
    (hslot : rivals fs (getParentPath (pathNormalize path)) = ∅) (ha : Ample 2 fs) : ∃ m' fs',
      xxfsCreate env path mode uid gid fs = some (.ok, fs') ∧ RunBy C env fs' ∧
        Spares 2 fs fs' ∧ Sound K m' ∅ fs' ∧ Added (pathNormalize path)
          (createdInode (pathNormalize path) mode uid gid fs.cowGen) ftReg.toUInt8 m m' fs fs' := by
  obtain ⟨fs', hx, hsp⟩ : ∃ fs', xxfsCreate env path mode uid gid fs = some (.ok, fs') ∧
      Spares 2 fs fs' := h.create_returns he hK hp hc hv hslot ha
  rcases h.create he hK hp (fun _ ↦ hv) hx (hsp.live ha) with ⟨-, hrc, -⟩ | ⟨-, -, -, m', hs, hA⟩
  · cases hrc
  · exact ⟨m', fs', hx, .step hr hC (exec_discard hx) (hsp.live ha), hsp, hs, hA⟩

end runs

section fresh

variable {K : Path → Prop} (hK : Names K)

theorem fresh_dcacheFind (env : Env) (sizeMb flags : UInt64) (p : Path) :
    dcacheFind (freshFs env sizeMb flags) p = none := rfl

theorem fresh_rivals (env : Env) (sizeMb flags : UInt64) (p : Path) :
    rivals (freshFs env sizeMb flags) p = ∅ := by
  refine Set.eq_empty_of_forall_notMem fun q hq ↦ ?_
  have := hq.1.1
  cases this

theorem listing_fresh (env : Env) (sizeMb flags : UInt64) :
    listing (freshInodes (env.time 1)) (freshFs env sizeMb flags) rootPath = some [] := by
  rw [listing, fresh_dcacheFind, freshInodes_root]
  exact congrArg some (if_pos (.inl (hollow_root _).size))

theorem vacant_fresh (env : Env) (sizeMb flags : UInt64) {p : Path} (hp : p ≠ rootPath)
    (hpar : getParentPath p = rootPath) :
    Vacant (freshInodes (env.time 1)) (freshFs env sizeMb flags) p := by
  refine ⟨if_neg hp, fresh_dcacheFind _ _ _ p, ?_, fun cs hcs ↦ ?_⟩
  · rw [hpar]
    exact (tree_fresh _).root
  · rw [hpar, listing_fresh] at hcs
    obtain rfl := Option.some.inj hcs
    exact Nat.succ_pos _

include hK

theorem careful_first {path : Path} (mode uid gid : UInt16) (hp : K (pathNormalize path))
    (hne : pathNormalize path ≠ rootPath) (hpar : getParentPath (pathNormalize path) = rootPath) :
    Careful K (freshFs steady 1 0) (.create path mode uid gid) :=
  (careful_iff hK (sound_fresh hK goodSize_one 0)).mpr
    ⟨hp, fun _ ↦ vacant_fresh steady 1 0 hne hpar⟩

theorem first_create {C : Fs → Op → Prop} {path : Path} {mode uid gid : UInt16}
    (hC : C (freshFs steady 1 0) (.create path mode uid gid)) (hp : K (pathNormalize path))
    (hne : pathNormalize path ≠ rootPath)
    (hpar : getParentPath (pathNormalize path) = rootPath) : ∃ m fs,
      xxfsCreate steady path mode uid gid (freshFs steady 1 0) = some (.ok, fs) ∧ RunBy C steady fs ∧
      Sound K m ∅ fs ∧ Ample 238 fs ∧ Added (pathNormalize path)
        (createdInode (pathNormalize path) mode uid gid (freshFs steady 1 0).cowGen) ftReg.toUInt8
        (freshInodes (steady.time 1)) m (freshFs steady 1 0) fs := by
  have hrun : RunBy C steady (freshFs steady 1 0) :=
    .fresh (fresh_apply steady_healthy goodSize_one 0)
  have hs : Sound K _ ∅ (freshFs steady 1 0) := sound_fresh hK goodSize_one 0
  obtain ⟨m, fs, hx, hr, hsp, hs', hA⟩ := hrun.create steady_healthy hK hs hC hp (cell_init _)
    (vacant_fresh steady 1 0 hne hpar) (fresh_rivals steady 1 0 _) (freshOne_ample.mono (by decide))
  exact ⟨m, fs, hx, hr, hs', hsp 238 freshOne_ample, hA⟩

theorem first_file {C : Fs → Op → Prop} {path : Path} {mode uid gid : UInt16}
    (hC : C (freshFs steady 1 0) (.create path mode uid gid)) (hp : K (pathNormalize path))
    (hne : pathNormalize path ≠ rootPath)
    (hpar : getParentPath (pathNormalize path) = rootPath) : ∃ m fs, RunBy C steady fs ∧
      Sound K m ∅ fs ∧ Ample 238 fs ∧ Added (pathNormalize path)
        (createdInode (pathNormalize path) mode uid gid (freshFs steady 1 0).cowGen) ftReg.toUInt8
        (freshInodes (steady.time 1)) m (freshFs steady 1 0) fs := by
  obtain ⟨m, fs, -, h⟩ := first_create hK hC hp hne hpar
  exact ⟨m, fs, h⟩

/-- A symbolic link on a fresh image, also where there is no directory for it. -/
theorem first_link (target : Path) {linkpath : Path} (hp : K (pathNormalize linkpath))
    (hne : pathNormalize linkpath ≠ rootPath) (ht : target.length ≤ inlineMax) : ∃ now fs,
      xxfsSymlink steady target linkpath (freshFs steady 1 0) = some (.ok, fs) ∧
        Reachable steady fs ∧ Filed K (freshInodes (steady.time 1)) (pathNormalize linkpath)
          (linkInode target now) (freshFs steady 1 0) fs := by
  have hs : Sound K _ ∅ (freshFs steady 1 0) := sound_fresh hK goodSize_one 0
  obtain ⟨now, fs, hx, hF⟩ := hs.basis.symlink steady_healthy hK hp (cell_init _) (if_neg hne) ht
    (freshOne_ample.mono (by decide))
  have hexec : exec steady (.symlink target linkpath) (freshFs steady 1 0) = some ((), fs) :=
    exec_discard hx
  exact ⟨now, fs, hx, .step (.fresh (fresh_apply steady_healthy goodSize_one 0)) hexec, hF⟩

end fresh

end Xxfs.Soundness

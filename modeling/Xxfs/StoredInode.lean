import Xxfs.IndexWalk
import Xxfs.InodeCache
import Xxfs.Seal

namespace Xxfs.StoredInode

open Xxfs.DiskFormat Xxfs.Machine Xxfs.PagedIndex Xxfs.PageStore Xxfs.InodeCache Xxfs.Checksum
open Xxfs.IndexRep Xxfs.Lib.Computation Xxfs.Lib.Computation.Comp

variable {env : Env} {key : Path}

/-- The inode that a value of the index stands for. -/
def readBack (val : List UInt8) : Inode := (inodeVerifyEcc (valToInode val)).2

theorem readBack_sealed {n : Inode} (h : Sealed n) : readBack (inodeToVal n) = n := by
  rw [readBack, valToInode_inodeToVal, h.verify]

theorem returned_map {f : List UInt8 → Inode} (r : Except Rc (List UInt8)) (fs : Fs) :
    (match r with
      | .error rc => (pure (.error rc) : FsM (Except Rc Inode))
      | .ok val => pure (.ok (f val))) fs = some (r.map f, fs) := by
  cases r <;> rfl

theorem readBack_eq : readBack = fun val ↦ (inodeVerifyEcc (valToInode val)).2 := by
  funext val
  rw [readBack]

theorem inodePagedGet_apply (he : Healthy env) (hk : key.length < 2 ^ 32) {fs : Fs} {L : Chain}
    (h : Represents fs L) : ∃ fs', inodePagedGet env key fs =
        some ((found (ents L) key inodeSize).map readBack, fs') ∧ Represents fs' L ∧
      Quiet (offs L) fs fs' := by
  obtain ⟨fs', hget, hR, hq⟩ := pagedGet_apply he inodeSize hk h
  refine ⟨fs', ?_, hR, hq⟩
  rw [inodePagedGet, bind_apply, hget, Option.bind_some]
  rw [readBack_eq]
  exact returned_map _ _

end Xxfs.StoredInode

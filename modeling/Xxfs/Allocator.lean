import Xxfs.Machine

namespace Xxfs.Allocator

open Xxfs.DiskFormat Xxfs.Machine

variable (env : Env)

/-- The offset all three of `page_alloc`'s callers compute first: the block after the used
ones, or `s_data_off` itself once no block is free. -/
def nextOff (sb : Super) : UInt64 :=
  sb.sDataOff + (if sb.sFreeBlocks > 0 then (sb.sBlockCount - sb.sFreeBlocks) * 4096 else 0)

def pageAlloc : FsM UInt64 := do
  let fs ← FsM.get
  let off := nextOff fs.sb
  if fs.sb.sFreeBlocks = 0 then
    if ← osFileExtend env (off + 4096) then
      FsM.modify fun fs ↦ { fs with sb.sBlockCount := fs.sb.sBlockCount + 1 }
      return off
    else return 0
  else
    FsM.modify fun fs ↦ { fs with sb.sFreeBlocks := fs.sb.sFreeBlocks - 1 }
    return off

def pageAllocN (n : UInt64) : FsM UInt64 := do
  if n = 0 then return 0
  else if n = 1 then pageAlloc env
  else
    let fs ← FsM.get
    let off := nextOff fs.sb
    if fs.sb.sFreeBlocks ≥ n then
      FsM.modify fun fs ↦ { fs with sb.sFreeBlocks := fs.sb.sFreeBlocks - n }
      return off
    else
      let need := n - fs.sb.sFreeBlocks
      if ← osFileExtend env (off + need * 4096) then
        FsM.modify fun fs ↦
          { fs with sb.sBlockCount := fs.sb.sBlockCount + need, sb.sFreeBlocks := 0 }
        return off
      else return 0

def roundUp (off : UInt64) : UInt64 := (off + 4095) &&& ~~~4095

def pageAllocRaw : FsM UInt64 := do
  match ← osFileSize env with
  | none => return 0
  | some fsize =>
    let off := roundUp (UInt64.ofNat fsize)
    if ← osFileExtend env (off + 4096) then return off else return 0

end Xxfs.Allocator

import Xxfs.Volume

namespace Xxfs.Operations

open Xxfs.DiskFormat Xxfs.Machine Xxfs.Allocator Xxfs.PageCache Xxfs.PagedIndex Xxfs.Checksum
open Xxfs.InodeCache Xxfs.DirCache Xxfs.Volume Xxfs.PathName Xxfs.Hash

variable (env : Env)

/-- Unlocks and returns, as at each `return` between the lock macros. -/
def wreturn {α : Type} (a : α) : FsM α := do
  fsWunlock
  return a

def rreturn {α : Type} (a : α) : FsM α := do
  fsRunlock
  return a

/-- The name an inode stores: at most 255 bytes of the last component. -/
def storeName (old : Fin 256 → UInt8) (norm : Path) : Fin 256 → UInt8 :=
  arrCopy old 0 (min (getBasename norm).length maxName) (bytesAt (getBasename norm))

def nameTerminated (old : Fin 256 → UInt8) (norm : Path) : Fin 256 → UInt8 :=
  arrCopy (storeName old norm) (min (getBasename norm).length maxName) 1 fun _ ↦ 0

def createdInode (norm : Path) (mode uid gid : UInt16) (gen : UInt64) : Inode :=
  inodeSetChecksumEcc
    { Inode.zero with
      iMode := mode
      iUid := uid
      iGid := gid
      iFileType := ftReg
      iNlinks := 1
      iGeneration := gen
      iName := storeName (fun _ ↦ 0) norm }

def xxfsCreate (path : Path) (mode uid gid : UInt16) : FsM Rc := do
  let norm := pathNormalize path
  fsWlock
  let fs ← FsM.get
  let h := xxh64 norm
  if (icacheLookup fs.icache h).isSome then wreturn .eexist
  else
    let n := createdInode norm mode uid gid fs.cowGen
    let rc ← pagedInsert env norm (inodeToVal n)
    if rc = .ok then
      icachePut env h norm n
      discard (dirAddChild env (getParentPath norm) (getBasename norm) ftReg.toUInt8)
      FsM.modify fun fs ↦ { fs with
        sb.sInodesCount := fs.sb.sInodesCount + 1, sb.sFreeInodes := fs.sb.sFreeInodes - 1 }
    wreturn rc

def madeDirInode (norm : Path) (mode uid gid : UInt16) (gen : UInt64) : Inode :=
  inodeSetChecksumEcc
    { Inode.zero with
      iMode := mode
      iUid := uid
      iGid := gid
      iFileType := ftDir
      iNlinks := 2
      iGeneration := gen
      iName := nameTerminated (fun _ ↦ 0) norm }

def xxfsMkdir (path : Path) (mode uid gid : UInt16) : FsM Rc := do
  let norm := pathNormalize path
  fsWlock
  let fs ← FsM.get
  let h := xxh64 norm
  if (icacheLookup fs.icache h).isSome then wreturn .eexist
  else
    let n := madeDirInode norm mode uid gid fs.cowGen
    let rc ← pagedInsert env norm (inodeToVal n)
    if rc = .ok then
      icachePut env h norm n
      discard (dirAddChild env (getParentPath norm) (getBasename norm) ftDir.toUInt8)
      FsM.modify fun fs ↦ { fs with sb.sInodesCount := fs.sb.sInodesCount + 1 }
    wreturn rc

/-- The inode of an existing path, put into the cache on a miss. -/
def fetchInode (norm : Path) : FsM (Option Inode) := do
  let fs ← FsM.get
  match icacheInode fs.icache (xxh64 norm) with
  | some n => return some n
  | none =>
    match ← inodePagedGet env norm with
    | .error _ => return none
    | .ok n =>
      icachePut env (xxh64 norm) norm n
      return some n

/-- What `xxfs_unlink` and `xxfs_rmdir` do once the type is right. -/
def removeEntry (norm : Path) : FsM Rc := do
  let rc ← pagedDel env norm
  if rc = .ok then
    icacheDel (xxh64 norm)
    discard (dirRemoveChild env (getParentPath norm) (getBasename norm))
    FsM.modify fun fs ↦ { fs with sb.sInodesCount := fs.sb.sInodesCount - 1 }
  return rc

def xxfsUnlink (path : Path) : FsM Rc := do
  let norm := pathNormalize path
  fsWlock
  match ← fetchInode env norm with
  | none => wreturn .enoent
  | some n =>
    if n.iFileType = ftDir then wreturn .eisdir
    else
      let rc ← removeEntry env norm
      wreturn rc

def xxfsRmdir (path : Path) : FsM Rc := do
  let norm := pathNormalize path
  if norm = rootPath then return .einval
  else
    fsWlock
    match ← fetchInode env norm with
    | none => wreturn .enoent
    | some n =>
      if n.iFileType ≠ ftDir then wreturn .enotdir
      else
        let rc ← removeEntry env norm
        let fs ← FsM.get
        if rc = .ok ∧ fs.flags &&& flagSync ≠ 0 then superWrite env
        wreturn rc

def xxfsStat (path : Path) : FsM (Except Rc Inode) := do
  let norm := pathNormalize path
  fsRlock
  let fs ← FsM.get
  match icacheInode fs.icache (xxh64 norm) with
  | some n => rreturn (.ok n)
  | none =>
    match ← inodePagedGet env norm with
    | .error rc => rreturn (.error rc)
    | .ok n =>
      icachePut env (xxh64 norm) norm n
      rreturn (.ok n)

/-- The first step of a write past the inline area: inline bytes move to a block. -/
def leaveInline (n : Inode) : FsM (Except Rc Inode) := do
  if 0 < n.iSize ∧ n.iBlocks = 0 then
    let newOff ← pageAlloc env
    if newOff = 0 then return .error .enospc
    else if ← osPwrite env (arr n.iUnion).2 (min n.iSize.toNat inlineMax) newOff then
      return .ok { n.setExtent newOff 1 with iBlocks := 1 }
    else return .error .eio
  else return .ok n

/-- Copies the blocks of an extent to `dst`; nothing is copied if memory is short. -/
def copyExtent (src dst : UInt64) (blocks : UInt64) : FsM Unit := do
  let fs ← FsM.get
  let len := (blocks * 4096).toNat
  if ← osAlloc env then
    let buf := match ← osPread env (env.junk fs.clock) len src with
      | none => env.junk fs.clock
      | some (buf, _) => buf
    discard (osPwrite env buf len dst)

/-- The growth of an extent to `needBlocks` blocks in `xxfs_write`: only the missing blocks
are allocated, also when the old ones are then copied. -/
def growExtent (n : Inode) (needBlocks : UInt64) : FsM (Except Rc Inode) := do
  if needBlocks > n.iBlocks then
    let newOff ← pageAllocN env (needBlocks - n.iBlocks)
    if newOff = 0 then return .error .enospc
    else
      if 0 < n.iBlocks ∧ n.iExtentOff ≠ 0 ∧ newOff ≠ n.iExtentOff + n.iBlocks * 4096 then
        copyExtent env n.iExtentOff newOff n.iBlocks
      return .ok { n.setExtent newOff needBlocks.toUInt32 with iBlocks := needBlocks }
  else return .ok n

def blocksFor (endOff : UInt64) : UInt64 := (endOff + 4095) / 4096

def maxSize (size endOff : UInt64) : UInt64 := if endOff > size then endOff else size

/-- `xxfs_write` of the first `len` bytes of `buf`. -/
def xxfsWrite (path : Path) (buf : ℕ → UInt8) (off : UInt64) (len : UInt32) : FsM Rc := do
  if len = 0 then return .einval
  else
    let norm := pathNormalize path
    fsWlock
    match ← currentInode env norm with
    | .error _ => wreturn .enoent
    | .ok n =>
      if n.iFileType = ftDir then wreturn .eisdir
      else
        let endOff := off + len.toUInt64
        if endOff.toNat ≤ inlineMax then
          icachePut env (xxh64 norm) norm { n with
            iUnion := arrCopy n.iUnion off.toNat len.toNat buf
            iSize := maxSize n.iSize endOff }
          wreturn .ok
        else
          match ← leaveInline env n with
          | .error rc => wreturn rc
          | .ok n =>
            match ← growExtent env n (blocksFor endOff) with
            | .error rc => wreturn rc
            | .ok n =>
              if ← osPwrite env buf len.toNat (n.iExtentOff + off) then
                icachePut env (xxh64 norm) norm { n with iSize := maxSize n.iSize endOff }
                wreturn .ok
              else wreturn .eio

/-- The outcome of a read: the code, `*read_bytes` on success, and the caller's buffer. -/
structure ReadOut where
  rc : Rc
  readBytes : ℕ
  buf : ℕ → UInt8

def xxfsRead (path : Path) (buf : ℕ → UInt8) (off : UInt64) (len : UInt32) : FsM ReadOut := do
  if len = 0 then return ⟨.einval, 0, buf⟩
  else
    let norm := pathNormalize path
    fsRlock
    match ← fetchInode env norm with
    | none => rreturn ⟨.enoent, 0, buf⟩
    | some n =>
      if off ≥ n.iSize then rreturn ⟨.ok, 0, buf⟩
      else
        let len := min len.toNat (n.iSize - off).toNat
        if n.iSize.toNat ≤ inlineMax ∧ n.iBlocks = 0 then
          rreturn ⟨.ok, len, fun i ↦ if i < len then (arr n.iUnion).2 (off.toNat + i) else buf i⟩
        else if n.iExtentOff ≠ 0 ∧ 0 < n.iBlocks then
          match ← osPread env buf len (n.iExtentOff + off) with
          | none => rreturn ⟨.eio, 0, buf⟩
          | some (buf, _) => rreturn ⟨.ok, len, buf⟩
        else rreturn ⟨.eio, 0, buf⟩

/-- `xxfs_chmod`, `xxfs_chown` and `xxfs_utime` differ in the fields they set. They start
from the indexed inode, whatever the cache holds. -/
def setAttr (set : Inode → Inode) (path : Path) : FsM Rc := do
  let norm := pathNormalize path
  fsWlock
  match ← inodePagedGet env norm with
  | .error _ => wreturn .enoent
  | .ok n =>
    let now ← osTime env
    let n := inodeSetChecksumEcc { set n with iCtime := now }
    let rc ← pagedPut env norm (inodeToVal n)
    if rc = .ok then icachePut env (xxh64 norm) norm n
    wreturn rc

def xxfsChmod (path : Path) (mode : UInt16) : FsM Rc :=
  setAttr env (fun n ↦ { n with iMode := mode }) path

def xxfsChown (path : Path) (uid gid : UInt16) : FsM Rc :=
  setAttr env (fun n ↦ { n with iUid := uid, iGid := gid }) path

def xxfsUtime (path : Path) (atime mtime : UInt64) : FsM Rc :=
  setAttr env (fun n ↦ { n with iAtime := atime, iMtime := mtime }) path

def xxfsRename (oldPath newPath : Path) : FsM Rc := do
  let old := pathNormalize oldPath
  let new := pathNormalize newPath
  fsWlock
  match ← inodePagedGet env old with
  | .error _ => wreturn .enoent
  | .ok n =>
    let now ← osTime env
    let n := inodeSetChecksumEcc
      { n with iCtime := now, iName := nameTerminated n.iName new }
    discard (pagedDel env old)
    icacheDel (xxh64 old)
    let rc ← pagedPut env new (inodeToVal n)
    if rc = .ok then icachePut env (xxh64 new) new n
    else
      discard (pagedPut env old (inodeToVal n))
      icachePut env (xxh64 old) old n
    wreturn rc

def linkInode (target : Path) (now : UInt64) : Inode := inodeSetChecksumEcc
  { Inode.zero with
    iFileType := ftLnk
    iNlinks := 1
    iSize := UInt64.ofNat target.length
    iAtime := now
    iMtime := now
    iCtime := now
    iBtime := now
    iUnion := arrCopy (fun _ ↦ 0) 0 target.length (bytesAt target) }

def xxfsSymlink (target linkpath : Path) : FsM Rc := do
  let norm := pathNormalize linkpath
  if target.length > inlineMax then return .enametoolong
  else
    fsWlock
    match ← fetchInode env norm with
    | some _ => wreturn .eexist
    | none =>
      let now ← osTime env
      let n := linkInode target now
      let rc ← pagedPut env norm (inodeToVal n)
      if rc = .ok then icachePut env (xxh64 norm) norm n
      wreturn rc

/-- The outcome of `xxfs_readlink`: the buffer and `*len` on success. -/
def xxfsReadlink (path : Path) (buf : ℕ → UInt8) (len : UInt32) :
    FsM (Except Rc ((ℕ → UInt8) × UInt32)) := do
  match ← xxfsStat env path with
  | .error rc => return .error rc
  | .ok n =>
    if n.iFileType ≠ ftLnk then return .error .einval
    else
      let size := n.iSize.toUInt32
      let copy := if size > len - 1 then len - 1 else size
      return .ok (fun i ↦ if i < copy.toNat then (arr n.iUnion).2 i
        else if i = copy.toNat then 0 else buf i, copy)

def xxfsCount (fs : Fs) : UInt64 := fs.sb.sInodesCount

def xxfsSync : FsM Rc := do
  fsWlock
  icacheFlushAll env
  dcacheFlushAll env
  pcacheFlushAll env
  superWrite env
  discard tick
  fsWunlock
  return .ok

/-- `struct xxfs_file` -/
structure File where
  hash : UInt64
  extentOff : UInt64
  size : UInt64
  blocks : UInt64
  path : Path
  flags : UInt32

def xxfsOpen (path : Path) (flags : UInt32) : FsM (Except Rc File) := do
  let norm := pathNormalize path
  fsRlock
  match ← currentInode env norm with
  | .error _ => rreturn (.error .enoent)
  | .ok n =>
    if n.iFileType = ftDir then rreturn (.error .eisdir)
    else if ← osAlloc env then
      rreturn (.ok ⟨xxh64 norm, n.iExtentOff, n.iSize, n.iBlocks, norm, flags⟩)
    else rreturn (.error .enomem)

/-- `xxfs_close`: size and blocks go back to the cached inode, the extent offset does not. -/
def xxfsClose (fp : File) : FsM Rc := do
  fsWlock
  let fs ← FsM.get
  match icacheLookup fs.icache fp.hash with
  | none => wreturn .ok
  | some idx =>
    match fs.icache.slots idx with
    | none => wreturn .ok
    | some e =>
      let now ← osTime env
      let n := writebackInode { e.inode with iSize := fp.size, iBlocks := fp.blocks } now
      FsM.modify fun fs ↦ { fs with icache := { fs.icache with
        slots := Lib.ProbeTable.store fs.icache.slots idx (some { e with inode := n }) } }
      discard (pagedPut env fp.path (inodeToVal n))
      wreturn .ok

def xxfsReadFd (fp : File) (buf : ℕ → UInt8) (count off : UInt64) :
    FsM (Except Rc UInt64 × (ℕ → UInt8)) := do
  if count = 0 then return (.error .einval, buf)
  else if off ≥ fp.size then
    return (.ok 0, fun i ↦ if i < count.toNat then 0 else buf i)
  else
    let count := if count > fp.size - off then fp.size - off else count
    match ← osPread env buf count.toNat (fp.extentOff + off) with
    | none => return (.error .eio, buf)
    | some (buf, _) => return (.ok count, buf)

/-- The growth of a handle's extent in `xxfs_write_fd`. -/
def growHandle (fp : File) (endOff : UInt64) : FsM (Except Rc File) := do
  if endOff.toNat > inlineMax ∧ fp.blocks = 0 then
    fsWlock
    let newOff ← pageAllocN env (blocksFor endOff)
    if newOff = 0 then wreturn (.error .enospc)
    else wreturn (.ok { fp with extentOff := newOff, blocks := blocksFor endOff })
  else if endOff > fp.blocks * 4096 then
    fsWlock
    let newOff ← pageAllocN env (blocksFor endOff - fp.blocks)
    if newOff = 0 then wreturn (.error .enospc)
    else
      if 0 < fp.blocks ∧ fp.extentOff ≠ 0 ∧ newOff ≠ fp.extentOff + fp.blocks * 4096 then
        copyExtent env fp.extentOff newOff fp.blocks
      wreturn (.ok { fp with extentOff := newOff, blocks := blocksFor endOff })
  else return .ok fp

def xxfsWriteFd (fp : File) (buf : ℕ → UInt8) (count off : UInt64) :
    FsM (Except Rc UInt64 × File) := do
  if count = 0 then return (.error .einval, fp)
  else
    let endOff := off + count
    match ← growHandle env fp endOff with
    | .error rc => return (.error rc, fp)
    | .ok fp =>
      if ← osPwrite env buf count.toNat (fp.extentOff + off) then
        return (.ok count, { fp with size := maxSize fp.size endOff })
      else return (.error .eio, fp)

/-- `xxfs_readdir`: a cached listing is returned without a look at the inode. -/
def xxfsReaddir (path : Path) : FsM (Except Rc (List DirChild)) := do
  let norm := pathNormalize path
  fsRlock
  let fs ← FsM.get
  match dcacheFind fs norm with
  | some e =>
    if e.children = [] then rreturn (.ok [])
    else if ← osAlloc env then rreturn (.ok e.children)
    else rreturn (.error .enomem)
  | none =>
    match ← inodePagedGet env norm with
    | .error _ => rreturn (.error .enoent)
    | .ok n =>
      if n.iFileType ≠ ftDir then rreturn (.error .enotdir)
      else if n.iSize = 0 ∨ n.iExtentOff = 0 then rreturn (.ok [])
      else
        let fs ← FsM.get
        if ← osAlloc env then
          match ← osPread env (env.junk fs.clock) n.iSize.toNat n.iExtentOff with
          | none => rreturn (.error .eio)
          | some (buf, _) =>
            rreturn (.ok (decodeChildren buf ((n.iSize.toNat / dirChildSize) % 2 ^ 32)))
        else rreturn (.error .enomem)

end Xxfs.Operations

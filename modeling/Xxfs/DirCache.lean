import Xxfs.InodeCache
import Xxfs.Lib.SwapRemove
import Xxfs.PathName

namespace Xxfs.DirCache

open Xxfs.DiskFormat Xxfs.Machine Xxfs.Allocator Xxfs.PagedIndex Xxfs.Checksum
open Xxfs.InodeCache Xxfs.Hash Xxfs.Lib.LittleEndian

variable (env : Env)

def dirCacheSize : ℕ := 256

def dcIndex (path : Path) : ℕ := (xxh64 path &&& 255).toNat

def setDcache (idx : ℕ) (e : DirCacheEntry) : FsM Unit :=
  FsM.modify fun fs ↦ { fs with dcache := fun i ↦ if i = idx then e else fs.dcache i }

/-- The inode an operation on `path` starts from: the cached one, else the indexed one. -/
def currentInode (path : Path) : FsM (Except Rc Inode) := do
  let fs ← FsM.get
  match icacheInode fs.icache (xxh64 path) with
  | some n => return .ok n
  | none => inodePagedGet env path

/-- The extent of a directory for its cached children: the old one if it is large enough,
else one fresh block. `none` if nothing could be written. -/
def placeChildren (n : Inode) (children : List DirChild) : FsM (Option Inode) := do
  let newBytes := children.length * dirChildSize
  let newBlocks := (newBytes + 4095) / 4096
  if children = [] then return some { n.setExtent 0 0 with iSize := 0, iBlocks := 0 }
  else if n.iExtentOff ≠ 0 ∧ n.iBlocks.toNat ≥ newBlocks then
    discard (osPwrite env (encodeChildren children) newBytes n.iExtentOff)
    return some { n with iSize := UInt64.ofNat newBytes }
  else
    let newOff ← pageAlloc env
    if newOff = 0 then return none
    else if ← osPwrite env (encodeChildren children) newBytes newOff then
      return some { n.setExtent newOff (UInt32.ofNat newBlocks) with
        iSize := UInt64.ofNat newBytes, iBlocks := UInt64.ofNat newBlocks }
    else return none

def dcacheFlushEntry (idx : ℕ) : FsM Unit := do
  let fs ← FsM.get
  let e := fs.dcache idx
  if ¬e.dirty ∨ ¬e.valid then return ()
  else
    match ← currentInode env e.path with
    | .error _ => return ()
    | .ok n =>
      match ← placeChildren env n e.children with
      | none => return ()
      | some n =>
        let now ← osTime env
        let n := writebackInode n now
        if (← pagedPut env e.path (inodeToVal n)) = .ok then
          icachePut env (xxh64 e.path) e.path n
        setDcache idx { e with dirty := false }

def dcacheFind (fs : Fs) (path : Path) : Option DirCacheEntry :=
  let e := fs.dcache (dcIndex path)
  if e.valid ∧ e.path = path then some e else none

/-- `dcache_alloc` for a path that is not cached. -/
def dcacheAlloc (path : Path) : FsM Unit := do
  let fs ← FsM.get
  let idx := dcIndex path
  if (fs.dcache idx).valid ∧ (fs.dcache idx).dirty then dcacheFlushEntry env idx
  setDcache idx ⟨path, [], 0, false, true⟩

def dcacheFlushAll : FsM Unit :=
  (List.range dirCacheSize).forM fun i ↦ do
    let fs ← FsM.get
    if (fs.dcache i).dirty then dcacheFlushEntry env i

/-- Reads the stored children of a directory into its cache entry. -/
def loadChildren (path : Path) (n : Inode) : FsM Unit := do
  if 0 < n.iSize ∧ n.iExtentOff ≠ 0 then
    let fs ← FsM.get
    let cnt := (n.iSize.toNat / dirChildSize) % 2 ^ 32
    if ← osAlloc env then
      let buf := match ← osPread env (env.junk fs.clock) n.iSize.toNat n.iExtentOff with
        | none => env.junk fs.clock
        | some (buf, _) => buf
      setDcache (dcIndex path) ⟨path, decodeChildren buf cnt, cnt, false, true⟩

/-- What `dir_add_child` and `dir_remove_child` do first: bring the directory into the
cache. The slot is claimed before the directory is known to exist. -/
def dirOpen (path : Path) : FsM Rc := do
  let fs ← FsM.get
  match dcacheFind fs path with
  | some _ => return .ok
  | none =>
    dcacheAlloc env path
    let fs ← FsM.get
    match (icacheInode fs.icache (xxh64 path)).filter (fun n ↦ n.iFileType = ftDir) with
    | some n =>
      loadChildren env path n
      return .ok
    | none =>
      match ← inodePagedGet env path with
      | .error _ => return .enoent
      | .ok n =>
        loadChildren env path n
        return .ok

def newChild (name : Path) (type : UInt8) : DirChild where
  dcHash := xxh64 (name.take maxName)
  dcName := arrCopy (fun _ ↦ 0) 0 (min name.length maxName) (bytesAt name)
  dcType := type

def dirAddChild (dirPath name : Path) (type : UInt8) : FsM Rc := do
  match ← dirOpen env dirPath with
  | .ok =>
    let fs ← FsM.get
    let e := fs.dcache (dcIndex dirPath)
    if e.children.length ≥ e.childCap then
      if ← osAlloc env then
        setDcache (dcIndex dirPath) { e with
          children := e.children ++ [newChild name type]
          childCap := if e.childCap = 0 then 16 else e.childCap * 2
          dirty := true }
        return .ok
      else return .enomem
    else
      setDcache (dcIndex dirPath) { e with
        children := e.children ++ [newChild name type], dirty := true }
      return .ok
  | rc => return rc

/-- The test of `dir_remove_child`: the name with its NUL, which may read past `dc_name`. -/
def childMatches (c : DirChild) (name : Path) : Bool :=
  c.dcHash == xxh64 name && sameBytes (fun j ↦ c.encode (8 + j)) (bytesAt name) (name.length + 1)

/-- Takes child `i` out; the last one moves into its place. -/
def removeChild (children : List DirChild) (i : ℕ) : List DirChild :=
  Lib.SwapRemove.swapRemove children i

def dirRemoveChild (dirPath name : Path) : FsM Rc := do
  match ← dirOpen env dirPath with
  | .ok =>
    let fs ← FsM.get
    let e := fs.dcache (dcIndex dirPath)
    match e.children.findIdx? (fun c ↦ childMatches c name) with
    | none => return .enoent
    | some i =>
      setDcache (dcIndex dirPath) { e with children := removeChild e.children i, dirty := true }
      return .ok
  | rc => return rc

end Xxfs.DirCache

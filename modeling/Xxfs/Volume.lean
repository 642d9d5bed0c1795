import Xxfs.DirCache

namespace Xxfs.Volume

open Xxfs.DiskFormat Xxfs.Machine Xxfs.Allocator Xxfs.PageCache Xxfs.PagedIndex Xxfs.Checksum
open Xxfs.InodeCache Xxfs.DirCache Xxfs.Hash Xxfs.Lib.LittleEndian

variable (env : Env)

def encodeDir (offs : List UInt64) (i : ℕ) : UInt8 := leByte (offs.getD (i / 8) 0).toNat (i % 8)

def decodeDir (f : ℕ → UInt8) (n : ℕ) : List UInt64 :=
  (List.range n).map fun k ↦ getU64 f (8 * k)

/-- `pdir_write`: a directory of more than one block moves to the end of the image. -/
def pdirWrite : FsM Unit := do
  let fs ← FsM.get
  let d := fs.pdir
  let bytes := d.pageOff.length * 8
  if d.pageOff.length = 0 then return ()
  else
    let off ← if fs.sb.sPdirOff = 0 then pageAllocRaw env else pure fs.sb.sPdirOff
    if off = 0 then return ()
    else
      FsM.modify fun fs ↦ { fs with sb.sPdirOff := off }
      let off ← if bytes > blockSize then pageAllocRaw env else pure off
      if off = 0 then return ()
      else
        FsM.modify fun fs ↦ { fs with sb.sPdirOff := off }
        discard (osPwrite env (encodeDir d.pageOff) bytes off)
        FsM.modify fun fs ↦ { fs with
          sb.sPdirSize := UInt32.ofNat d.pageOff.length, sb.sPdirDepth := d.globalDepth }

def superWrite : FsM Unit := do
  pdirWrite env
  FsM.modify fun fs ↦ { fs with sb := superSetChecksumEcc fs.sb }
  let fs ← FsM.get
  discard (osPwrite env fs.sb.encode blockSize 0)

def magicRc (s : Super) : Rc := if s.sMagic ≠ xxfsMagic then .eio else .ok

def superRead : FsM Rc := do
  match ← osPread env (fun _ ↦ 0) blockSize 0 with
  | none => return .eio
  | some (buf, r) =>
    let s := Super.decode buf
    FsM.modify fun fs ↦ { fs with sb := s }
    if r < blockSize then return .eio
    else if crc32c s.encode superCrcOff = s.sChecksum then return magicRc s
    else
      let fixed := eccCorrect s.encode superCrcOff superEccOff
      let s' := Super.decode fixed.2
      FsM.modify fun fs ↦ { fs with sb := s' }
      if fixed.1 = .corrected ∧ crc32c s'.encode superCrcOff = s'.sChecksum then
        discard (osPwrite env s'.encode blockSize 0)
        return magicRc s'
      else return .eio

/-- Doubles the directory until it is `needed` deep; a failed doubling is tried for ever. -/
def deepen (needed : UInt8) : ℕ → FsM Unit
  | 0 => do
    let fs ← FsM.get
    if fs.pdir.globalDepth < needed then FsM.diverge else return ()
  | n + 1 => do
    let fs ← FsM.get
    if fs.pdir.globalDepth < needed then
      discard (pagedDirDouble env)
      deepen needed n
    else return ()

/-- One block of the scan by which `xxfs_mount` rebuilds a lost page directory. -/
def scanBlock (scan : UInt64) : FsM Bool := do
  match ← osPread env (env.junk scan.toNat) pageSize scan with
  | none => return false
  | some (buf, _) =>
    let pg := PagedPage.decode buf
    if 0 < pg.count.toNat ∧ pg.count.toNat ≤ slotsPerPage then
      deepen env pg.localDepth.toUInt8 walkFuel
      FsM.modify fun fs ↦
        let di := dirIndex (pg.slot 0).hash fs.pdir.globalDepth
        if di < fs.pdir.pageOff.length ∧ fs.pdir.pageOff.getD di 0 = 0xFFFFFFFFFFFFFFFF then
          { fs with pdir.pageOff := fs.pdir.pageOff.set di scan }
        else fs
    return true

def scanImage (fsize : ℕ) : ℕ → UInt64 → FsM Unit
  | 0, _ => return ()
  | n + 1, scan => do
    if (scan + 4096).toNat ≤ fsize then
      if ← scanBlock env scan then scanImage fsize n (scan + 4096)

def loadDir : FsM Unit := do
  let fs ← FsM.get
  let dsz := fs.sb.sPdirSize.toNat
  if fs.sb.sPdirOff ≠ 0 ∧ 0 < dsz then
    if ← osAlloc env then
      match ← osPread env (fun _ ↦ 0) (dsz * 8) fs.sb.sPdirOff with
      | none => return ()
      | some (buf, r) =>
        if 0 < r then
          FsM.modify fun fs ↦ { fs with pdir := ⟨decodeDir buf dsz, fs.sb.sPdirDepth⟩ }
  else
    match ← osFileSize env with
    | none => return ()
    | some fsize => scanImage env fsize (fsize / 4096 + 1) fs.sb.sDataOff

/-- The zeroed `struct xxfs` of a mount, on its image. -/
def blank (img : Image) (flags : UInt64) (clock : ℕ) : Fs where
  img := img
  lock := .free
  sb := Super.decode fun _ ↦ 0
  pdir := ⟨[0xFFFFFFFFFFFFFFFF], 0⟩
  pcache _ := ⟨0, none, false⟩
  flags := flags
  cowGen := 0
  icache := icacheInit
  dcache _ := ⟨[], [], 0, false, false⟩
  clock := clock
  passed := []

/-- `xxfs_mount` on a zeroed structure; false for `NULL`. -/
def xxfsMount : FsM Bool := do
  if (← superRead env) = .ok then
    FsM.modify fun fs ↦ { fs with cowGen := fs.sb.sCowGeneration }
    loadDir env
    return true
  else return false

/-- `xxfs_umount`; what it frees is gone with the structure, the image stays. -/
def xxfsUmount : FsM Unit := do
  fsWlock
  dcacheFlushAll env
  pcacheFlushAll env
  superWrite env
  discard tick
  fsWunlock

/-- `xxfs_umount` and then `xxfs_mount` of the same image. -/
def remount (flags : UInt64) : FsM Bool := fun fs ↦
  (xxfsUmount env fs).bind fun p ↦
    xxfsMount env { blank p.2.img flags p.2.clock with passed := p.2.passed }

/-- The superblock `xxfs_mkfs` fills in before it writes the root. -/
def mkfsSuper (totalBlocks now : UInt64) : Super :=
  let bgCount := ((totalBlocks + bgBlocks.toUInt64 - 1) / bgBlocks.toUInt64).toUInt32
  let bgDescOff : UInt64 := ((1 + walBlocks + 2 * ppBlocks) * 4096).toUInt64
  { Super.decode (fun _ ↦ 0) with
    sMagic := xxfsMagic
    sVersion := 3
    sBlockSize := 4096
    sBlockSizeBits := 12
    sBlockCount := totalBlocks
    sFreeBlocks := totalBlocks - 4
    sInodesCount := 1
    sFreeInodes := totalBlocks / 4
    sRootIno := 1
    sCowGeneration := 1
    sWalOff := 4096
    sWalBlocks := walBlocks
    sPpPingOff := ((1 + walBlocks) * 4096).toUInt64
    sPpPongOff := ((1 + walBlocks + ppBlocks) * 4096).toUInt64
    sPpBlocks := ppBlocks
    sBgCount := bgCount
    sBgBlocks := bgBlocks
    sBgDescOff := bgDescOff
    sDataOff := bgDescOff + (bgCount.toUInt64 * 64 + 4095) / 4096 * 4096
    sMtime := now
    sWtime := now
    sState := 1 }

def superSetChecksum (s : Super) : Super := { s with sChecksum := crc32c s.encode superCrcOff }

def rootPath : Path := [PathName.slash]

def rootInode (now : UInt64) : Inode := inodeSetChecksumEcc
  { Inode.zero with
    iMode := 0o755
    iFileType := ftDir
    iNlinks := 2
    iAtime := now
    iMtime := now
    iCtime := now
    iBtime := now
    iGeneration := 1
    iName := arrCopy (fun _ ↦ 0) 0 2 (bytesAt rootPath) }

def rootPage (recOff : UInt64) : PagedPage :=
  { PagedPage.zero.setSlot 0 { PagedSlot.zero with
      hash := xxh64 rootPath
      fileOff := recOff
      klen := 1
      vlen := 560
      keyPrefix := arrCopy (fun _ ↦ 0) 0 1 (bytesAt rootPath) } with
    count := 1 }

/-- What `xxfs_mkfs` writes once it knows the number of blocks. -/
def mkfsWrite (totalBlocks : UInt64) : FsM Rc := do
  let now ← osTime env
  let sb := superSetChecksum (mkfsSuper totalBlocks now)
  if ← osPwrite env sb.encode blockSize 0 then
    let recOff := sb.sDataOff
    discard (osPwrite env (layout [u32 1, u32 560]) 8 recOff)
    discard (osPwrite env (bytesAt rootPath) 1 (recOff + 8))
    discard (osPwrite env (rootInode now).encode inodeSize (recOff + 9))
    let pageOff := sb.sDataOff + 4096
    discard (osPwrite env (rootPage recOff).encode pageSize pageOff)
    let pdirOff := roundUp (pageOff + 4096)
    discard (osPwrite env (encodeDir [pageOff]) 8 pdirOff)
    let sb := superSetChecksum { sb with
      sPdirOff := pdirOff
      sPdirSize := 1
      sPdirDepth := 0
      sFreeBlocks :=
        totalBlocks - ((pdirOff + 4096 - sb.sDataOff) / 4096).toUInt32.toUInt64 - 4 }
    discard (osPwrite env sb.encode blockSize 0)
    discard tick
    return .ok
  else return .eio

def totalBlocks (sizeMb : UInt64) : UInt64 :=
  let n := sizeMb * 1024 * 1024 / 4096
  if n < 100 then 100 else n

/-- `xxfs_mkfs` of an image file: the file is emptied and set to its size first. -/
def xxfsMkfs (sizeMb : UInt64) : FsM Rc := do
  if sizeMb < 1 then return .einval
  else
    let n ← tick
    if env.io n ∧ (sizeMb * 1024 * 1024).toNat < 2 ^ 63 then
      FsM.modify fun fs ↦ { fs with
        img := ⟨fun _ ↦ 0, (sizeMb * 1024 * 1024).toNat, fun _ _ ↦ rfl⟩ }
      mkfsWrite env (totalBlocks sizeMb)
    else return .eio

/-- `xxfs_mkfs` with flag `0x100`: the size is the device's, its content stays. -/
def xxfsMkfsDevice : FsM Rc := do
  match ← osFileSize env with
  | none => return .eio
  | some devSize =>
    if devSize = 0 then return .eio
    else
      let sizeMb := UInt64.ofNat (devSize / (1024 * 1024))
      mkfsWrite env (totalBlocks (if sizeMb < 1 then 1 else sizeMb))

def emptyImage : Image := ⟨fun _ ↦ 0, 0, fun _ _ ↦ rfl⟩

/-- The file system mounted from a freshly formatted image. -/
def fresh (sizeMb flags : UInt64) : Option Fs :=
  (xxfsMkfs env sizeMb (blank emptyImage 0 0)).bind fun p ↦
    if p.1 = .ok then
      (xxfsMount env (blank p.2.img flags p.2.clock)).bind fun q ↦
        if q.1 then some q.2 else none
    else none

end Xxfs.Volume

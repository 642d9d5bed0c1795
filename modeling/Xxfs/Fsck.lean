import Xxfs.ListingRuns
import Xxfs.PathParts
import Xxfs.PowerLoss

namespace Xxfs.Fsck

open Xxfs.DiskFormat Xxfs.Machine Xxfs.Checksum Xxfs.Volume Xxfs.Operations Xxfs.PathName
open Xxfs.ListingRuns Xxfs.PowerLoss

/-- `struct xxfs_fs_info` -/
structure FsInfo where
  version : UInt32
  blockSize : UInt32
  blockCount : UInt64
  freeBlocks : UInt64
  inodesCount : UInt64
  cowGeneration : UInt64

def xxfsInfo (fs : Fs) : FsInfo where
  version := fs.sb.sVersion
  blockSize := fs.sb.sBlockSize
  blockCount := fs.sb.sBlockCount
  freeBlocks := fs.sb.sFreeBlocks
  inodesCount := fs.sb.sInodesCount
  cowGeneration := fs.sb.sCowGeneration

/-- The lines that fsck prints about what it finds. -/
inductive Line
  | info (i : FsInfo)
  | noMount
  | noRoot (rc : Rc)
  | rootType (type : UInt16)
  | root (isDir : Bool) (mode : UInt16) (size : UInt64) (checksum : UInt32)
  | rootChildren (count : ℕ)
  | rootChild (isDir : Bool) (name : Path)
  | noStat (path : Path) (rc : Rc)
  | checksum (path : Path) (expected got : UInt32)

/-- The lines that are counted in `g_errors`. -/
def Line.isError : Line → Bool
  | .noRoot _ | .rootType _ | .noStat _ _ | .checksum _ _ _ => true
  | _ => false

/-- The paths that `check_path` has been called for, and what it has printed. -/
structure Walk where
  visited : List Path
  lines : List Line

/-- What a run of fsck shows, and where it has been. -/
structure Outcome where
  exit : ℕ
  lines : List Line
  visited : List Path

variable (env : Env)

def checkSuper : FsM (List Line) := do
  let fs ← FsM.get
  return [.info (xxfsInfo fs)]

def checkRoot : FsM (List Line) := do
  match ← xxfsStat env rootPath with
  | .error rc => return [.noRoot rc]
  | .ok ino =>
    let type := if ino.iFileType ≠ ftDir then [Line.rootType ino.iFileType] else []
    let root := Line.root (ino.iFileType == ftDir) ino.iMode ino.iSize ino.iChecksum
    match ← xxfsReaddir env rootPath with
    | .error _ => return type ++ [root]
    | .ok cs =>
      let children := cs.map fun c : DirChild ↦
        Line.rootChild (c.dcType == ftDir.toUInt8) (childName c)
      return type ++ root :: .rootChildren cs.length :: children

def checkChildren (check : Path → FsM Walk) (path : Path) : List DirChild → FsM Walk
  | [] => return ⟨[], []⟩
  | c :: cs => do
    let w ← check (checkPathChild path (childName c))
    let ws ← checkChildren check path cs
    return ⟨w.visited ++ ws.visited, w.lines ++ ws.lines⟩

/-- The recursion of `check_path`, which has no bound in the program. -/
def checkPath : ℕ → Path → FsM Walk
  | 0, _ => FsM.diverge
  | k + 1, path => do
    match ← xxfsStat env path with
    | .error rc => return ⟨[path], [.noStat path rc]⟩
    | .ok ino =>
      let crc := crc32c ino.encode inoCrcOff
      let bad := if crc ≠ ino.iChecksum then [Line.checksum path ino.iChecksum crc] else []
      if ino.iFileType = ftDir then
        match ← xxfsReaddir env path with
        | .error _ => return ⟨[path], bad⟩
        | .ok cs =>
          let w ← checkChildren (checkPath k) path cs
          return ⟨path :: w.visited, bad ++ w.lines⟩
      else return ⟨[path], bad⟩

/-- fsck mounts the image in a process of its own. -/
def fsckMain (k : ℕ) : FsM Outcome := do
  if ← powerLoss env 0 then
    let super ← checkSuper
    let root ← checkRoot env
    let w ← checkPath env k rootPath
    xxfsUmount env
    let lines := super ++ root ++ w.lines
    return ⟨if 0 < lines.countP Line.isError then 1 else 0, lines, w.visited⟩
  else return ⟨1, [.noMount], []⟩

end Xxfs.Fsck

import Xxfs.Operations

namespace Xxfs.Runs

open Xxfs.DiskFormat Xxfs.Machine Xxfs.Volume Xxfs.Operations

/-- The public operations. A handle is a value of its caller, so any may be passed. -/
inductive Op
  | create (path : Path) (mode uid gid : UInt16)
  | mkdir (path : Path) (mode uid gid : UInt16)
  | unlink (path : Path)
  | rmdir (path : Path)
  | stat (path : Path)
  | write (path : Path) (buf : ℕ → UInt8) (off : UInt64) (len : UInt32)
  | read (path : Path) (buf : ℕ → UInt8) (off : UInt64) (len : UInt32)
  | chmod (path : Path) (mode : UInt16)
  | chown (path : Path) (uid gid : UInt16)
  | utime (path : Path) (atime mtime : UInt64)
  | rename (old new : Path)
  | symlink (target linkpath : Path)
  | readlink (path : Path) (buf : ℕ → UInt8) (len : UInt32)
  | sync
  | openFile (path : Path) (flags : UInt32)
  | closeFile (fp : File)
  | readFd (fp : File) (buf : ℕ → UInt8) (count off : UInt64)
  | writeFd (fp : File) (buf : ℕ → UInt8) (count off : UInt64)
  | readdir (path : Path)
  | remount (flags : UInt64)

variable (env : Env)

/-- After a failed mount there is no file system to go on with. -/
def exec : Op → FsM Unit
  | .create path mode uid gid => discard (xxfsCreate env path mode uid gid)
  | .mkdir path mode uid gid => discard (xxfsMkdir env path mode uid gid)
  | .unlink path => discard (xxfsUnlink env path)
  | .rmdir path => discard (xxfsRmdir env path)
  | .stat path => discard (xxfsStat env path)
  | .write path buf off len => discard (xxfsWrite env path buf off len)
  | .read path buf off len => discard (xxfsRead env path buf off len)
  | .chmod path mode => discard (xxfsChmod env path mode)
  | .chown path uid gid => discard (xxfsChown env path uid gid)
  | .utime path atime mtime => discard (xxfsUtime env path atime mtime)
  | .rename old new => discard (xxfsRename env old new)
  | .symlink target linkpath => discard (xxfsSymlink env target linkpath)
  | .readlink path buf len => discard (xxfsReadlink env path buf len)
  | .sync => discard (xxfsSync env)
  | .openFile path flags => discard (xxfsOpen env path flags)
  | .closeFile fp => discard (xxfsClose env fp)
  | .readFd fp buf count off => discard (xxfsReadFd env fp buf count off)
  | .writeFd fp buf count off => discard (xxfsWriteFd env fp buf count off)
  | .readdir path => discard (xxfsReaddir env path)
  | .remount flags => do
    if ← remount env flags then return () else FsM.diverge

/-- The states a freshly formatted and mounted image can be brought to. -/
inductive Reachable : Fs → Prop
  | fresh {sizeMb flags : UInt64} {fs : Fs} : fresh env sizeMb flags = some fs → Reachable fs
  | step {op : Op} {fs fs' : Fs} : Reachable fs → exec env op fs = some ((), fs') → Reachable fs'

/-- An invariant of the fresh state that every operation keeps holds in every reachable one. -/
theorem Reachable.invariant {env : Env} {I : Fs → Prop}
    (hfresh : ∀ sizeMb flags fs, Volume.fresh env sizeMb flags = some fs → I fs)
    (hstep : ∀ op fs fs', I fs → exec env op fs = some ((), fs') → I fs') {fs : Fs}
    (h : Reachable env fs) : I fs := by
  induction h with
  | fresh h => exact hfresh _ _ _ h
  | step _ h ih => exact hstep _ _ _ ih h

end Xxfs.Runs

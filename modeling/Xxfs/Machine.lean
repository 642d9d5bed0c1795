import Xxfs.DiskFormat
import Xxfs.Lib.Computation

namespace Xxfs.Machine

open Xxfs.Lib.LittleEndian Xxfs.Lib.Computation Xxfs.DiskFormat

/-- The image file. A byte past its end is zero once the file is extended over it. -/
structure Image where
  data : ℕ → UInt8
  size : ℕ
  zero_beyond : ∀ i, size ≤ i → data i = 0

def Image.write (img : Image) (src : ℕ → UInt8) (len off : ℕ) : Image where
  data i := if off ≤ i ∧ i < off + len then src (i - off) else img.data i
  size := if len = 0 then img.size else max img.size (off + len)
  zero_beyond i hi := by
    split at hi
    · rw [if_neg (by omega)]; exact img.zero_beyond i hi
    · rw [if_neg (by omega)]; exact img.zero_beyond i (by omega)

theorem Image.write_in (img : Image) (src : ℕ → UInt8) {len off i : ℕ} (h : off ≤ i)
    (h' : i < off + len) : (img.write src len off).data i = src (i - off) :=
  if_pos ⟨h, h'⟩

theorem Image.write_out (img : Image) (src : ℕ → UInt8) {len off i : ℕ}
    (h : i < off ∨ off + len ≤ i) : (img.write src len off).data i = img.data i :=
  if_neg (by omega)

theorem Image.write_size (img : Image) (src : ℕ → UInt8) (len off : ℕ) :
    img.size ≤ (img.write src len off).size := by
  simp only [Image.write]
  split
  · exact le_rfl
  · exact le_max_left _ _

def Image.grow (img : Image) (size : ℕ) : Image where
  data := img.data
  size := max img.size size
  zero_beyond i hi := img.zero_beyond i (by omega)

/-- What the operating system answers: each call of it has a number, and call `n` on the
image succeeds if `io n`, an allocation if `mem n`. `junk` is what fresh memory holds. -/
structure Env where
  io : ℕ → Bool
  mem : ℕ → Bool
  time : ℕ → UInt64
  junk : ℕ → ℕ → UInt8

/-- The lock of a mount, as its one caller holds it. It is `broken` for good once it has been
taken while held or released as another kind than it was taken. -/
inductive Lock
  | free | read | write | broken
  deriving DecidableEq

/-- `struct paged_cache` -/
structure PagedCache where
  pageOff : UInt64
  page : Option PagedPage
  dirty : Bool

/-- `struct paged_dir`; `dir_size` is the length of `pageOff`. -/
structure PagedDir where
  pageOff : List UInt64
  globalDepth : UInt8

/-- `struct icache_entry`. An empty slot is `none`, and `ctrl` is a function of the hash. -/
structure IcacheEntry where
  hash : UInt64
  dirty : Bool
  key : Option Path
  inode : Inode

structure Icache where
  slots : ℕ → Option IcacheEntry
  cap : ℕ
  count : ℕ
  tick : ℕ

/-- `struct dir_cache_entry`; `child_count` is the length of `children`. -/
structure DirCacheEntry where
  path : Path
  children : List DirChild
  childCap : ℕ
  dirty : Bool
  valid : Bool

/-- `struct xxfs`: the mounted file system. The memory map and the Swiss table are never
read by an operation. `clock` counts the calls of the operating system, and `passed` records
the values that were handed to the index; nothing reads it. -/
structure Fs where
  img : Image
  lock : Lock
  sb : Super
  pdir : PagedDir
  pcache : ℕ → PagedCache
  flags : UInt64
  cowGen : UInt64
  icache : Icache
  dcache : ℕ → DirCacheEntry
  clock : ℕ
  passed : List (List UInt8)

abbrev FsM : Type → Type := Comp Fs

namespace FsM

abbrev get : FsM Fs := Comp.get
abbrev modify (f : Fs → Fs) : FsM Unit := Comp.modify f
abbrev diverge {α : Type} : FsM α := Comp.diverge

end FsM

section calls

variable (env : Env)

def tick : FsM ℕ := do
  let fs ← FsM.get
  FsM.modify fun fs ↦ { fs with clock := fs.clock + 1 }
  return fs.clock

def osTime : FsM UInt64 := do
  let n ← tick
  return env.time n

def osAlloc : FsM Bool := do
  let n ← tick
  return env.mem n

/-- `xxfs_os_file_pwrite`; a negative offset is refused. -/
def osPwrite (src : ℕ → UInt8) (len : ℕ) (off : UInt64) : FsM Bool := do
  let n ← tick
  if env.io n ∧ off.toNat < 2 ^ 63 then
    FsM.modify fun fs ↦ { fs with img := fs.img.write src len off.toNat }
    return true
  else return false

/-- `xxfs_os_file_pread` into a buffer that held `buf`: the bytes read and their number. -/
def osPread (buf : ℕ → UInt8) (len : ℕ) (off : UInt64) : FsM (Option ((ℕ → UInt8) × ℕ)) := do
  let n ← tick
  let fs ← FsM.get
  if env.io n ∧ off.toNat < 2 ^ 63 then
    let r := min len (fs.img.size - off.toNat)
    return some (fun i ↦ if i < r then fs.img.data (off.toNat + i) else buf i, r)
  else return none

def osFileSize : FsM (Option ℕ) := do
  let n ← tick
  let fs ← FsM.get
  return if env.io n then some fs.img.size else none

def toS64 (x : UInt64) : ℤ := if x.toNat < 2 ^ 63 then x.toNat else x.toNat - 2 ^ 64

/-- `xxfs_os_file_extend`; true for success. -/
def osFileExtend (size : UInt64) : FsM Bool := do
  match ← osFileSize env with
  | none => return false
  | some cur =>
    if toS64 size ≤ cur then return true
    else
      let n ← tick
      if env.io n then
        FsM.modify fun fs ↦ { fs with img := fs.img.grow size.toNat }
        return true
      else return false

end calls

/-- `fs_wlock` and `fs_rlock`: the lock has to be free. -/
def fsLock (kind : Lock) : FsM Unit := FsM.modify fun fs ↦
  if fs.flags &&& flagNolock ≠ 0 then fs
  else { fs with lock := if fs.lock = .free then kind else .broken }

/-- `fs_wunlock` and `fs_runlock`: the kind released has to be the one held. -/
def fsUnlock (kind : Lock) : FsM Unit := FsM.modify fun fs ↦
  if fs.flags &&& flagNolock ≠ 0 then fs
  else { fs with lock := if fs.lock = kind then .free else .broken }

def fsWlock : FsM Unit := fsLock .write
def fsWunlock : FsM Unit := fsUnlock .write
def fsRlock : FsM Unit := fsLock .read
def fsRunlock : FsM Unit := fsUnlock .read

end Xxfs.Machine

import Xxfs.Checksum
import Xxfs.Lib.ProbeTable
import Xxfs.PagedIndex

namespace Xxfs.InodeCache

open Xxfs.DiskFormat Xxfs.Machine Xxfs.PagedIndex Xxfs.Checksum Xxfs.Lib.ProbeTable

variable (env : Env)

def icacheCapInit : ℕ := 16384
def icacheMaxEntries : ℕ := 131072

def icacheInit : Icache := ⟨fun _ ↦ none, icacheCapInit, 0, 0⟩

def icacheCtrl (hash : UInt64) : UInt8 := (hash &&& 0x7F).toUInt8 ||| 0x80

def home (cap : ℕ) (hash : UInt64) : ℕ := hash.toNat &&& (cap - 1)

/-- `icache_lookup`, which compares hashes only and gives up after 16 probes. -/
def icacheLookup (c : Icache) (hash : UInt64) : Option ℕ :=
  match probe (fun e ↦ icacheCtrl e.hash == icacheCtrl hash && e.hash == hash)
      c.slots (c.cap - 1) 16 (home c.cap hash) with
  | none => none
  | some idx => if (c.slots idx).isSome then some idx else none

/-- The inode that `icache_lookup` finds for the hash. -/
def icacheInode (c : Icache) (hash : UInt64) : Option Inode :=
  (icacheLookup c hash).bind fun idx ↦ (c.slots idx).map IcacheEntry.inode

/-- The refreshed times and checksum of an inode written back from the cache. -/
def writebackInode (n : Inode) (now : UInt64) : Inode :=
  inodeSetChecksumEcc { n with iMtime := now, iCtime := now }

/-- `paged_put` under the key an entry holds; without a key the call crashes. -/
def putEntry (key : Option Path) (n : Inode) : FsM Rc :=
  match key with
  | none => FsM.diverge
  | some key => pagedPut env key (inodeToVal n)

def icacheDrop (c : Icache) (idx : ℕ) : Icache :=
  { c with slots := store c.slots idx none, count := c.count - 1 }

def icacheEvictOne : FsM Unit := do
  let fs ← FsM.get
  let c := fs.icache
  match probeUsed c.slots (c.cap - 1) c.cap (c.tick &&& (c.cap - 1)) with
  | none => return ()
  | some idx =>
    match c.slots idx with
    | none => return ()
    | some e =>
      if e.dirty then
        let now ← osTime env
        discard (putEntry env e.key (writebackInode e.inode now))
      FsM.modify fun fs ↦ { fs with icache := icacheDrop fs.icache idx }

def growTable (c : Icache) : Icache :=
  { c with
    slots := rehash (fun e ↦ home (c.cap * 2) e.hash) c.cap (c.cap * 2) c.slots
    cap := c.cap * 2 }

def icacheGrow : FsM Unit := do
  if ← osAlloc env then FsM.modify fun fs ↦ { fs with icache := growTable fs.icache }

def icacheRoom : FsM Unit := do
  let fs ← FsM.get
  if fs.icache.count ≥ icacheMaxEntries then icacheEvictOne env
  else if fs.icache.count * 2 ≥ fs.icache.cap then icacheGrow env

/-- The loop of `icache_put` over a table that has been given room. -/
def icachePlace (hash : UInt64) (key : Path) (n : Inode) : FsM Unit := do
  let fs ← FsM.get
  let c := fs.icache
  match probe (fun e ↦ e.hash == hash) c.slots (c.cap - 1) c.cap (home c.cap hash) with
  | none => return ()
  | some idx =>
    match c.slots idx with
    | none =>
      let ok ← osAlloc env
      FsM.modify fun fs ↦ { fs with icache := { fs.icache with
        slots := store fs.icache.slots idx
          (some ⟨hash, true, if ok then some key else none, n⟩)
        count := fs.icache.count + 1 } }
    | some e =>
      FsM.modify fun fs ↦ { fs with icache := { fs.icache with
        slots := store fs.icache.slots idx (some { e with dirty := true, inode := n }) } }

def icachePut (hash : UInt64) (key : Path) (n : Inode) : FsM Unit := do
  icacheRoom env
  icachePlace env hash key n

def icacheDel (hash : UInt64) : FsM Unit := do
  let fs ← FsM.get
  match icacheLookup fs.icache hash with
  | none => return ()
  | some idx => FsM.modify fun fs ↦ { fs with icache := icacheDrop fs.icache idx }

def icacheFlushSlot (i : ℕ) : FsM Unit := do
  let fs ← FsM.get
  match fs.icache.slots i with
  | none => return ()
  | some e =>
    if e.dirty then
      let now ← osTime env
      let n := writebackInode e.inode now
      discard (putEntry env e.key n)
      FsM.modify fun fs ↦ { fs with icache := { fs.icache with
        slots := store fs.icache.slots i (some { e with dirty := false, inode := n }) } }

def icacheFlushAll : FsM Unit := do
  let fs ← FsM.get
  (List.range fs.icache.cap).forM (icacheFlushSlot env)

/-- `inode_paged_get`: the verdict of the check is not looked at. -/
def inodePagedGet (key : Path) : FsM (Except Rc Inode) := do
  match ← pagedGet env key inodeSize with
  | .error rc => return .error rc
  | .ok val => return .ok (inodeVerifyEcc (valToInode val)).2

end Xxfs.InodeCache

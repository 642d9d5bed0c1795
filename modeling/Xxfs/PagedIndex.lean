import Xxfs.Allocator
import Xxfs.Hash
import Xxfs.PageCache

namespace Xxfs.PagedIndex

open Xxfs.DiskFormat Xxfs.Machine Xxfs.Allocator Xxfs.PageCache Xxfs.Hash

variable (env : Env)

def dirIndex (hash : UInt64) (depth : UInt8) : ℕ :=
  if depth = 0 then 0 else (hash &&& ((1 <<< depth.toUInt64) - 1)).toUInt32.toNat

def pagedDirDouble : FsM Bool := do
  if ← osAlloc env then
    FsM.modify fun fs ↦ { fs with
      pdir := ⟨fs.pdir.pageOff ++ fs.pdir.pageOff, fs.pdir.globalDepth + 1⟩ }
    return true
  else return false

/-- Whether `xxfs_os_memcmp` finds the first `n` bytes equal. -/
def sameBytes (f g : ℕ → UInt8) (n : ℕ) : Bool := (List.range n).all fun j ↦ f j == g j

/-- A record: the two lengths, the key and the value. -/
def recordBytes (key : Path) (val : List UInt8) : ℕ → UInt8 := Lib.LittleEndian.layout
  [u32 (UInt32.ofNat key.length), u32 (UInt32.ofNat val.length),
    (key.length, bytesAt key), (val.length, bytesAt val)]

def recLen (klen vlen : ℕ) : ℕ := 8 + klen + vlen

/-- Memory for a record: the stack for short ones, else an allocation that may fail. -/
def recBuffer (len : ℕ) : FsM (Option (ℕ → UInt8)) := do
  let fs ← FsM.get
  if len ≤ 512 then return some (env.junk fs.clock)
  else if ← osAlloc env then return some (env.junk fs.clock)
  else return none

def writeRecord (key : Path) (val : List UInt8) : FsM (Except Rc UInt64) := do
  let off ← pageAlloc env
  if off = 0 then return .error .enospc
  else
    match ← recBuffer env (recLen key.length val.length) with
    | none => return .error .enomem
    | some _ =>
      if ← osPwrite env (recordBytes key val) (recLen key.length val.length) off then
        return .ok off
      else return .error .eio

/-- The test by which `paged_put` and `paged_del` take a slot for the key's. -/
def slotMatches (s : PagedSlot) (h : UInt64) (key : Path) : Bool :=
  s.hash == h && s.klen == UInt32.ofNat key.length &&
    sameBytes (arr s.keyPrefix).2 (bytesAt key) (min key.length keyPrefixLen)

def findSlot (pg : PagedPage) (h : UInt64) (key : Path) : Option ℕ :=
  (List.range pg.count.toNat).find? fun i ↦ slotMatches (pg.slot i) h key

def emptyPage (depth : UInt16) : PagedPage := { PagedPage.zero with localDepth := depth }

/-- Gives an unused directory slot its first page. -/
def ensureBucket (dirIdx : ℕ) : FsM Rc := do
  let fs ← FsM.get
  if fs.pdir.pageOff.getD dirIdx 0 = 0xFFFFFFFFFFFFFFFF then
    let off ← pageAlloc env
    if off = 0 then return .enospc
    else
      FsM.modify fun fs ↦ { fs with pdir.pageOff := fs.pdir.pageOff.set dirIdx off }
      if ← osPwrite env (emptyPage fs.pdir.globalDepth.toUInt16).encode pageSize off then
        pageCacheInvalidate env off
        return .ok
      else return .eio
  else return .ok

/-- Chains a fresh empty page behind the full page `pg`; `none` if no block is left. -/
def addOverflow (pg : PagedPage) (curOff : UInt64) : FsM (Option (Except Rc UInt64)) := do
  let off ← pageAlloc env
  if off = 0 then return none
  else
    pageWriteback env { pg with overflowNext := off } curOff
    if ← osPwrite env (emptyPage pg.localDepth).encode pageSize off then
      pageCacheInvalidate env off
      return some (.ok off)
    else return some (.error .eio)

def newSlot (pg : PagedPage) (h : UInt64) (key : Path) (val : List UInt8) : PagedSlot :=
  { pg.slot pg.count.toNat with
    hash := h
    klen := UInt32.ofNat key.length
    vlen := UInt32.ofNat val.length
    flags := 0
    keyPrefix := arrCopy (pg.slot pg.count.toNat).keyPrefix 0 (min key.length keyPrefixLen)
      (bytesAt key) }

def storeInline (area : Fin 1392 → UInt8) (off : ℕ) (key : Path) (val : List UInt8) :
    Fin 1392 → UInt8 :=
  arrCopy (arrCopy area off key.length (bytesAt key)) (off + key.length) val.length (bytesAt val)

/-- Takes the next slot of a page with room, as both `paged_put` and `paged_insert` do. -/
def appendSlot (pg : PagedPage) (curOff h : UInt64) (key : Path) (val : List UInt8) :
    FsM Rc := do
  let s := newSlot pg h key val
  let i := pg.count.toNat
  let need := UInt32.ofNat (key.length + val.length)
  if (pg.inlineUsed + need).toNat ≤ inlineSpace then
    pageWriteback env
      { pg.setSlot i { s with fileOff := pg.inlineUsed.toUInt64, flags := slotFInline } with
        count := pg.count + 1
        inlineUsed := pg.inlineUsed + need
        inlineArea := storeInline pg.inlineArea pg.inlineUsed.toNat key val } curOff
    return .ok
  else
    match ← writeRecord env key val with
    | .error rc =>
      pagePoke (pg.setSlot i s) curOff
      return rc
    | .ok off =>
      pageWriteback env { pg.setSlot i { s with fileOff := off } with count := pg.count + 1 } curOff
      return .ok

/-- `paged_put` on the slot it found: in place if the new value is not longer, else a new
record. -/
def updateSlot (pg : PagedPage) (curOff : UInt64) (i : ℕ) (key : Path) (val : List UInt8) :
    FsM Rc := do
  let s := pg.slot i
  let vlen := UInt32.ofNat val.length
  if s.flags &&& slotFInline ≠ 0 ∧ vlen ≤ s.vlen then
    pageWriteback env
      { pg.setSlot i { s with vlen := vlen } with
        inlineArea := arrCopy pg.inlineArea (s.fileOff.toNat + key.length) val.length
          (bytesAt val) } curOff
    return .ok
  else if s.flags &&& slotFInline = 0 ∧ vlen ≤ s.vlen then
    discard (osPwrite env (bytesAt val) val.length (s.fileOff + 8 + UInt64.ofNat key.length))
    pageWriteback env (pg.setSlot i { s with vlen := vlen }) curOff
    return .ok
  else
    match ← writeRecord env key val with
    | .error rc => return rc
    | .ok off =>
      pageWriteback env (pg.setSlot i { s with vlen := vlen, fileOff := off, flags := 0 }) curOff
      return .ok

/-- More pages than there are offsets: a walk that uses this up goes round a cycle. -/
def walkFuel : ℕ := 2 ^ 64

/-- One slot moved by a split: to the page its hash now selects, inline bytes repacked. -/
def redistribute (depth : UInt8) (splitBit : ℕ) (old : PagedPage) (pgs : PagedPage × PagedPage)
    (i : ℕ) : PagedPage × PagedPage :=
  let s := old.slot i
  let move (t : PagedPage) : PagedPage :=
    if s.flags &&& slotFInline ≠ 0 then
      let need := s.klen + s.vlen
      { t.setSlot t.count.toNat { s with fileOff := t.inlineUsed.toUInt64 } with
        count := t.count + 1
        inlineUsed := t.inlineUsed + need
        inlineArea := arrCopy t.inlineArea t.inlineUsed.toNat need.toNat
          fun j ↦ old.inlineByte (s.fileOff.toNat + j) }
    else { t.setSlot t.count.toNat s with count := t.count + 1 }
  if dirIndex s.hash depth &&& splitBit ≠ 0 then (pgs.1, move pgs.2) else (move pgs.1, pgs.2)

def pageSplitAndRetry (retry : FsM Rc) (pageOff : UInt64) : FsM Rc := do
  match ← pageLoad env pageOff with
  | none => return .eio
  | some pg =>
    let fs ← FsM.get
    if pg.localDepth.toNat ≥ fs.pdir.globalDepth.toNat then
      if fs.pdir.globalDepth.toNat ≥ 20 then return .enospc
      else if ← pagedDirDouble env then
        match ← pageLoad env pageOff with
        | none => return .eio
        | some pg => split pg
      else return .enomem
    else split pg
where
  /-- The part of the split that follows the doubling of the directory. -/
  split (pg : PagedPage) : FsM Rc := do
    let depth : UInt8 := (pg.localDepth + 1).toUInt8
    let splitBit : ℕ := 2 ^ (depth.toNat - 1)
    let newOff ← pageAlloc env
    if newOff = 0 then return .enospc
    else
      let kept : PagedPage := { pg with
        slots := fun _ ↦ PagedSlot.zero, count := 0, inlineUsed := 0,
        localDepth := depth.toUInt16, overflowNext := 0 }
      let moved := emptyPage depth.toUInt16
      let pgs := (List.range pg.count.toNat).foldl (redistribute depth splitBit pg) (kept, moved)
      FsM.modify fun fs ↦ { fs with
        pdir.pageOff := fs.pdir.pageOff.mapIdx fun i off ↦
          if off = pageOff ∧ i &&& splitBit ≠ 0 then newOff else off }
      discard (osPwrite env pgs.2.encode pageSize newOff)
      pageCacheInvalidate env newOff
      pageWriteback env pgs.1 pageOff
      retry

def putWalk (retry : FsM Rc) (h : UInt64) (key : Path) (val : List UInt8) :
    ℕ → UInt64 → FsM Rc
  | 0, _ => FsM.diverge
  | n + 1, curOff =>
    if curOff = 0 then return .enospc
    else do
      match ← pageLoad env curOff with
      | none => return .eio
      | some pg =>
        match findSlot pg h key with
        | some i => updateSlot env pg curOff i key val
        | none =>
          if pg.count.toNat ≥ slotsPerPage then
            if pg.overflowNext = 0 then
              match ← addOverflow env pg curOff with
              | none => pageSplitAndRetry env retry curOff
              | some (.error rc) => return rc
              | some (.ok off) => putWalk retry h key val n off
            else putWalk retry h key val n pg.overflowNext
          else appendSlot env pg curOff h key val

/-- Records that `val` was handed to the index. -/
def notePassed (val : List UInt8) : FsM Unit :=
  FsM.modify fun fs ↦ { fs with passed := val :: fs.passed }

/-- `paged_put` and the splits it retries through; the first argument bounds the retries. -/
def pagedPutN : ℕ → Path → List UInt8 → FsM Rc
  | 0, _, _ => FsM.diverge
  | n + 1, key, val => do
    notePassed val
    let h := xxh64 key
    let fs ← FsM.get
    let dirIdx := dirIndex h fs.pdir.globalDepth
    match ← ensureBucket env dirIdx with
    | .ok =>
      let fs ← FsM.get
      putWalk env (pagedPutN n key val) h key val walkFuel (fs.pdir.pageOff.getD dirIdx 0)
    | rc => return rc

def pagedPut (key : Path) (val : List UInt8) : FsM Rc := pagedPutN env walkFuel key val

/-- The page walk of `paged_insert`, which does not look for the key. -/
def insertWalk (h : UInt64) (key : Path) (val : List UInt8) : ℕ → UInt64 → FsM Rc
  | 0, _ => FsM.diverge
  | n + 1, curOff =>
    if curOff = 0 then return .enospc
    else do
      match ← pageLoad env curOff with
      | none => return .eio
      | some pg =>
        if pg.count.toNat ≥ slotsPerPage then
          if pg.overflowNext = 0 then
            match ← addOverflow env pg curOff with
            | none => pageSplitAndRetry env (pagedPut env key val) curOff
            | some (.error rc) => return rc
            | some (.ok off) => insertWalk h key val n off
          else insertWalk h key val n pg.overflowNext
        else appendSlot env pg curOff h key val

def pagedInsert (key : Path) (val : List UInt8) : FsM Rc := do
  notePassed val
  let h := xxh64 key
  let fs ← FsM.get
  let dirIdx := dirIndex h fs.pdir.globalDepth
  match ← ensureBucket env dirIdx with
  | .ok =>
    let fs ← FsM.get
    insertWalk env h key val walkFuel (fs.pdir.pageOff.getD dirIdx 0)
  | rc => return rc

/-- One slot of `paged_get`'s scan; `none` means `continue`. -/
def getSlot (pg : PagedPage) (h : UInt64) (key : Path) (cap i : ℕ) :
    FsM (Option (Except Rc (List UInt8))) := do
  let s := pg.slot i
  if slotMatches s h key = false then return none
  else if s.flags &&& slotFInline ≠ 0 then
    if key.length > keyPrefixLen ∧
        sameBytes (bytesAt key) (fun j ↦ pg.inlineByte (s.fileOff.toNat + j)) key.length = false
    then return none
    else if s.vlen.toNat > cap then return some (.error .enospc)
    else return some (.ok (toList (fun j ↦ pg.inlineByte (s.fileOff.toNat + key.length + j))
      s.vlen.toNat))
  else
    match ← recBuffer env (recLen key.length s.vlen.toNat) with
    | none => return none
    | some buf =>
      match ← osPread env buf (recLen key.length s.vlen.toNat) s.fileOff with
      | none => return none
      | some (rec, _) =>
        if key.length > keyPrefixLen ∧
            sameBytes (bytesAt key) (fun j ↦ rec (8 + j)) key.length = false
        then return none
        else if s.vlen.toNat > cap then return some (.error .enospc)
        else return some (.ok (toList (fun j ↦ rec (8 + key.length + j)) s.vlen.toNat))

def getScan (pg : PagedPage) (h : UInt64) (key : Path) (cap : ℕ) :
    List ℕ → FsM (Option (Except Rc (List UInt8)))
  | [] => return none
  | i :: rest => do
    match ← getSlot env pg h key cap i with
    | some r => return some r
    | none => getScan pg h key cap rest

def getWalk (h : UInt64) (key : Path) (cap : ℕ) : ℕ → UInt64 → FsM (Except Rc (List UInt8))
  | 0, _ => FsM.diverge
  | n + 1, curOff =>
    if curOff = 0 then return .error .enoent
    else do
      match ← pageLoad env curOff with
      | none => return .error .eio
      | some pg =>
        match ← getScan env pg h key cap (List.range pg.count.toNat) with
        | some r => return r
        | none => getWalk h key cap n pg.overflowNext

/-- Whether the directory has a page for the slot, as `paged_get` and `paged_del` test it. -/
def hasBucket (fs : Fs) (dirIdx : ℕ) : Bool :=
  decide (dirIdx < fs.pdir.pageOff.length) &&
    fs.pdir.pageOff.getD dirIdx 0 != 0xFFFFFFFFFFFFFFFF

/-- `paged_get` into a buffer of `cap` bytes. -/
def pagedGet (key : Path) (cap : ℕ) : FsM (Except Rc (List UInt8)) := do
  let h := xxh64 key
  let fs ← FsM.get
  let dirIdx := dirIndex h fs.pdir.globalDepth
  if hasBucket fs dirIdx then getWalk env h key cap walkFuel (fs.pdir.pageOff.getD dirIdx 0)
  else return .error .enoent

/-- The last slot takes the place of the deleted one. -/
def removeSlot (pg : PagedPage) (i : ℕ) : PagedPage :=
  let last := pg.count.toNat - 1
  if i < last then { pg.setSlot i (pg.slot last) with count := pg.count - 1 }
  else { pg with count := pg.count - 1 }

def delWalk (h : UInt64) (key : Path) : ℕ → UInt64 → FsM Rc
  | 0, _ => FsM.diverge
  | n + 1, curOff =>
    if curOff = 0 then return .enoent
    else do
      match ← pageLoad env curOff with
      | none => return .eio
      | some pg =>
        match findSlot pg h key with
        | some i =>
          pageWriteback env (removeSlot pg i) curOff
          return .ok
        | none => delWalk h key n pg.overflowNext

def pagedDel (key : Path) : FsM Rc := do
  let h := xxh64 key
  let fs ← FsM.get
  let dirIdx := dirIndex h fs.pdir.globalDepth
  if hasBucket fs dirIdx then delWalk env h key walkFuel (fs.pdir.pageOff.getD dirIdx 0)
  else return .enoent

end Xxfs.PagedIndex

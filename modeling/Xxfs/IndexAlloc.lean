import Xxfs.IndexWalk

namespace Xxfs.IndexAlloc

open Xxfs.DiskFormat Xxfs.Machine Xxfs.Allocator Xxfs.PageCache Xxfs.PagedIndex Xxfs.PageStore
open Xxfs.Hash Xxfs.Frames Xxfs.IndexRep Xxfs.Lib.Computation Xxfs.Lib.Computation.Comp

/-! The index code over any block allocator in place of `page_alloc`. -/

section code

variable (env : Env) (alloc : FsM UInt64)

def writeRecordBy (key : Path) (val : List UInt8) : FsM (Except Rc UInt64) := do
  let off ← alloc
  if off = 0 then return .error .enospc
  else
    match ← recBuffer env (recLen key.length val.length) with
    | none => return .error .enomem
    | some _ =>
      if ← osPwrite env (recordBytes key val) (recLen key.length val.length) off then
        return .ok off
      else return .error .eio

def ensureBucketBy (dirIdx : ℕ) : FsM Rc := do
  let fs ← FsM.get
  if fs.pdir.pageOff.getD dirIdx 0 = 0xFFFFFFFFFFFFFFFF then
    let off ← alloc
    if off = 0 then return .enospc
    else
      FsM.modify fun fs ↦ { fs with pdir.pageOff := fs.pdir.pageOff.set dirIdx off }
      if ← osPwrite env (emptyPage fs.pdir.globalDepth.toUInt16).encode pageSize off then
        pageCacheInvalidate env off
        return .ok
      else return .eio
  else return .ok

def addOverflowBy (pg : PagedPage) (curOff : UInt64) : FsM (Option (Except Rc UInt64)) := do
  let off ← alloc
  if off = 0 then return none
  else
    pageWriteback env { pg with overflowNext := off } curOff
    if ← osPwrite env (emptyPage pg.localDepth).encode pageSize off then
      pageCacheInvalidate env off
      return some (.ok off)
    else return some (.error .eio)

def appendSlotBy (pg : PagedPage) (curOff h : UInt64) (key : Path) (val : List UInt8) :
    FsM Rc := do
  let s := newSlot pg h key val
  let i := pg.count.toNat
  let need := UInt32.ofNat (key.length + val.length)
  if (pg.inlineUsed + need).toNat ≤ inlineSpace then
    pageWriteback env
      { pg.setSlot i { s with fileOff := pg.inlineUsed.toUInt64, flags := slotFInline } with
        count := pg.count + 1
        inlineUsed := pg.inlineUsed + need
        inlineArea := storeInline pg.inlineArea pg.inlineUsed.toNat key val } curOff
    return .ok
  else
    match ← writeRecordBy env alloc key val with
    | .error rc =>
      pagePoke (pg.setSlot i s) curOff
      return rc
    | .ok off =>
      pageWriteback env { pg.setSlot i { s with fileOff := off } with count := pg.count + 1 } curOff
      return .ok

def updateSlotBy (pg : PagedPage) (curOff : UInt64) (i : ℕ) (key : Path) (val : List UInt8) :
    FsM Rc := do
  let s := pg.slot i
  let vlen := UInt32.ofNat val.length
  if s.flags &&& slotFInline ≠ 0 ∧ vlen ≤ s.vlen then
    pageWriteback env
      { pg.setSlot i { s with vlen := vlen } with
        inlineArea := arrCopy pg.inlineArea (s.fileOff.toNat + key.length) val.length
          (bytesAt val) } curOff
    return .ok
  else if s.flags &&& slotFInline = 0 ∧ vlen ≤ s.vlen then
    discard (osPwrite env (bytesAt val) val.length (s.fileOff + 8 + UInt64.ofNat key.length))
    pageWriteback env (pg.setSlot i { s with vlen := vlen }) curOff
    return .ok
  else
    match ← writeRecordBy env alloc key val with
    | .error rc => return rc
    | .ok off =>
      pageWriteback env (pg.setSlot i { s with vlen := vlen, fileOff := off, flags := 0 }) curOff
      return .ok

/-- The two pages that a split makes of `pg`: the one that keeps its block, and the new one. -/
def halves (pg : PagedPage) : PagedPage × PagedPage :=
  let depth : UInt8 := (pg.localDepth + 1).toUInt8
  let kept : PagedPage := { pg with
    slots := fun _ ↦ PagedSlot.zero, count := 0, inlineUsed := 0,
    localDepth := depth.toUInt16, overflowNext := 0 }
  (List.range pg.count.toNat).foldl (redistribute depth (2 ^ (depth.toNat - 1)) pg)
    (kept, emptyPage depth.toUInt16)

/-- The part of the split that follows the doubling of the directory. -/
def splitBy (retry : FsM Rc) (pageOff : UInt64) (pg : PagedPage) : FsM Rc := do
  let newOff ← alloc
  if newOff = 0 then return .enospc
  else
    FsM.modify fun fs ↦ { fs with
      pdir.pageOff := fs.pdir.pageOff.mapIdx fun i off ↦
        if off = pageOff ∧ i &&& 2 ^ ((pg.localDepth + 1).toUInt8.toNat - 1) ≠ 0 then newOff
        else off }
    discard (osPwrite env (halves pg).2.encode pageSize newOff)
    pageCacheInvalidate env newOff
    pageWriteback env (halves pg).1 pageOff
    retry

def pageSplitAndRetryBy (retry : FsM Rc) (pageOff : UInt64) : FsM Rc := do
  match ← pageLoad env pageOff with
  | none => return .eio
  | some pg =>
    let fs ← FsM.get
    if pg.localDepth.toNat ≥ fs.pdir.globalDepth.toNat then
      if fs.pdir.globalDepth.toNat ≥ 20 then return .enospc
      else if ← pagedDirDouble env then
        match ← pageLoad env pageOff with
        | none => return .eio
        | some pg => splitBy env alloc retry pageOff pg
      else return .enomem
    else splitBy env alloc retry pageOff pg

/-- The page walk of `paged_put`, with the call of `page_split_and_retry` as a parameter. -/
def putWalkBy (split : UInt64 → FsM Rc) (h : UInt64) (key : Path) (val : List UInt8) :
    ℕ → UInt64 → FsM Rc
  | 0, _ => FsM.diverge
  | n + 1, curOff =>
    if curOff = 0 then return .enospc
    else do
      match ← pageLoad env curOff with
      | none => return .eio
      | some pg =>
        match findSlot pg h key with
        | some i => updateSlotBy env alloc pg curOff i key val
        | none =>
          if pg.count.toNat ≥ slotsPerPage then
            if pg.overflowNext = 0 then
              match ← addOverflowBy env alloc pg curOff with
              | none => split curOff
              | some (.error rc) => return rc
              | some (.ok off) => putWalkBy split h key val n off
            else putWalkBy split h key val n pg.overflowNext
          else appendSlotBy env alloc pg curOff h key val

def putOnce (split : UInt64 → FsM Rc) (key : Path) (val : List UInt8) : FsM Rc := do
  notePassed val
  let h := xxh64 key
  let fs ← FsM.get
  let dirIdx := dirIndex h fs.pdir.globalDepth
  match ← ensureBucketBy env alloc dirIdx with
  | .ok =>
    let fs ← FsM.get
    putWalkBy env alloc split h key val walkFuel (fs.pdir.pageOff.getD dirIdx 0)
  | rc => return rc

/-- `paged_put` and the splits it retries through; the first argument bounds the calls of
`paged_put`. -/
def pagedPutBy (key : Path) (val : List UInt8) : ℕ → FsM Rc
  | 0 => FsM.diverge
  | n + 1 => putOnce env alloc (pageSplitAndRetryBy env alloc (pagedPutBy key val n)) key val

/-- `paged_put` in which at most so many calls of `page_split_and_retry` return. -/
def putWithin (key : Path) (val : List UInt8) : ℕ → FsM Rc
  | 0 => putOnce env alloc (fun _ ↦ FsM.diverge) key val
  | n + 1 => putOnce env alloc (pageSplitAndRetryBy env alloc (putWithin key val n)) key val

end code

section bridge

variable (env : Env)

theorem pageSplitAndRetryBy_eq (retry : FsM Rc) (pageOff : UInt64) :
    pageSplitAndRetryBy env (pageAlloc env) retry pageOff = pageSplitAndRetry env retry pageOff :=
  rfl

theorem putWalkBy_eq (retry : FsM Rc) (h : UInt64) (key : Path) (val : List UInt8) (n : ℕ)
    (o : UInt64) :
    putWalkBy env (pageAlloc env) (pageSplitAndRetryBy env (pageAlloc env) retry) h key val n o =
      putWalk env retry h key val n o := by
  induction n generalizing o with
  | zero => rfl
  | succ n ih =>
    simp only [putWalkBy, putWalk, ih]
    rfl

theorem pagedPutBy_eq (key : Path) (val : List UInt8) (n : ℕ) :
    pagedPutBy env (pageAlloc env) key val n = pagedPutN env n key val := by
  induction n with
  | zero => rfl
  | succ n ih =>
    simp only [pagedPutBy, putOnce, pagedPutN, putWalkBy_eq, ih]
    rfl

end bridge

end Xxfs.IndexAlloc

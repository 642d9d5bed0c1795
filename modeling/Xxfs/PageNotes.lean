import Xxfs.IndexAlloc
import Xxfs.Lib.Noting

namespace Xxfs.PageNotes

open Xxfs.DiskFormat Xxfs.Machine Xxfs.Allocator Xxfs.PageCache Xxfs.PagedIndex Xxfs.Hash
open Xxfs.IndexAlloc Xxfs.Lib.Computation Xxfs.Lib.Computation.Noting

/-- What the index notes: a block handed out for a page or for a record, a page it loaded, an
entry of a slot array that it reads or writes, and a copy of `len` bytes that begins at `off` of
an inline array. -/
inductive Event
  | page (off : UInt64)
  | record (off : UInt64)
  | loaded (pg : PagedPage)
  | slot (i : ℕ)
  | inline (off len : ℕ)

abbrev Noted := Noting Fs Event

section code

variable (env : Env) (alloc : FsM UInt64)

def handOut (use : UInt64 → Event) : Noted UInt64 := do
  let off ← alloc
  if off = 0 then return 0
  else
    note (use off)
    return off

def loadPage (off : UInt64) : Noted (Option PagedPage) := do
  match ← pageLoad env off with
  | none => return none
  | some pg =>
    note (.loaded pg)
    return some pg

def writeRecordNoted (key : Path) (val : List UInt8) : Noted (Except Rc UInt64) := do
  let off ← handOut alloc .record
  if off = 0 then return .error .enospc
  else
    match ← recBuffer env (recLen key.length val.length) with
    | none => return .error .enomem
    | some _ =>
      if ← osPwrite env (recordBytes key val) (recLen key.length val.length) off then
        return .ok off
      else return .error .eio

def ensureBucketNoted (dirIdx : ℕ) : Noted Rc := do
  let fs ← FsM.get
  if fs.pdir.pageOff.getD dirIdx 0 = 0xFFFFFFFFFFFFFFFF then
    let off ← handOut alloc .page
    if off = 0 then return .enospc
    else
      FsM.modify fun fs ↦ { fs with pdir.pageOff := fs.pdir.pageOff.set dirIdx off }
      if ← osPwrite env (emptyPage fs.pdir.globalDepth.toUInt16).encode pageSize off then
        pageCacheInvalidate env off
        return .ok
      else return .eio
  else return .ok

def addOverflowNoted (pg : PagedPage) (curOff : UInt64) :
    Noted (Option (Except Rc UInt64)) := do
  let off ← handOut alloc .page
  if off = 0 then return none
  else
    pageWriteback env { pg with overflowNext := off } curOff
    if ← osPwrite env (emptyPage pg.localDepth).encode pageSize off then
      pageCacheInvalidate env off
      return some (.ok off)
    else return some (.error .eio)

def findSlotNoted (pg : PagedPage) (h : UInt64) (key : Path) : List ℕ → Noted (Option ℕ)
  | [] => return none
  | i :: rest => do
    note (.slot i)
    if slotMatches (pg.slot i) h key then return some i
    else findSlotNoted pg h key rest

def appendSlotNoted (pg : PagedPage) (curOff h : UInt64) (key : Path) (val : List UInt8) :
    Noted Rc := do
  let s := newSlot pg h key val
  let i := pg.count.toNat
  let need := UInt32.ofNat (key.length + val.length)
  note (.slot i)
  if (pg.inlineUsed + need).toNat ≤ inlineSpace then
    note (.inline pg.inlineUsed.toNat key.length)
    note (.inline (pg.inlineUsed.toNat + key.length) val.length)
    pageWriteback env
      { pg.setSlot i { s with fileOff := pg.inlineUsed.toUInt64, flags := slotFInline } with
        count := pg.count + 1
        inlineUsed := pg.inlineUsed + need
        inlineArea := storeInline pg.inlineArea pg.inlineUsed.toNat key val } curOff
    return .ok
  else
    match ← writeRecordNoted env alloc key val with
    | .error rc =>
      pagePoke (pg.setSlot i s) curOff
      return rc
    | .ok off =>
      pageWriteback env { pg.setSlot i { s with fileOff := off } with count := pg.count + 1 } curOff
      return .ok

def updateSlotNoted (pg : PagedPage) (curOff : UInt64) (i : ℕ) (key : Path) (val : List UInt8) :
    Noted Rc := do
  let s := pg.slot i
  let vlen := UInt32.ofNat val.length
  note (.slot i)
  if s.flags &&& slotFInline ≠ 0 ∧ vlen ≤ s.vlen then
    note (.inline (s.fileOff.toNat + key.length) val.length)
    pageWriteback env
      { pg.setSlot i { s with vlen := vlen } with
        inlineArea := arrCopy pg.inlineArea (s.fileOff.toNat + key.length) val.length
          (bytesAt val) } curOff
    return .ok
  else if s.flags &&& slotFInline = 0 ∧ vlen ≤ s.vlen then
    discard (osPwrite env (bytesAt val) val.length (s.fileOff + 8 + UInt64.ofNat key.length))
    pageWriteback env (pg.setSlot i { s with vlen := vlen }) curOff
    return .ok
  else
    match ← writeRecordNoted env alloc key val with
    | .error rc => return rc
    | .ok off =>
      pageWriteback env (pg.setSlot i { s with vlen := vlen, fileOff := off, flags := 0 }) curOff
      return .ok

/-- One slot moved by a split. The copy of its bytes is noted at both ends. -/
def redistributeNoted (depth : UInt8) (splitBit : ℕ) (old : PagedPage)
    (pgs : PagedPage × PagedPage) (i : ℕ) : Noted (PagedPage × PagedPage) := do
  let s := old.slot i
  let target := if dirIndex s.hash depth &&& splitBit ≠ 0 then pgs.2 else pgs.1
  note (.slot i)
  note (.slot target.count.toNat)
  if s.flags &&& slotFInline ≠ 0 then
    note (.inline target.inlineUsed.toNat (s.klen + s.vlen).toNat)
    note (.inline s.fileOff.toNat (s.klen + s.vlen).toNat)
  return redistribute depth splitBit old pgs i

def redistributeAll (depth : UInt8) (splitBit : ℕ) (old : PagedPage) :
    List ℕ → PagedPage × PagedPage → Noted (PagedPage × PagedPage)
  | [], pgs => return pgs
  | i :: rest, pgs => do
    let pgs ← redistributeNoted depth splitBit old pgs i
    redistributeAll depth splitBit old rest pgs

/-- The page that keeps its block in a split, emptied. -/
def keptPage (pg : PagedPage) (depth : UInt8) : PagedPage :=
  { pg with
    slots := fun _ ↦ PagedSlot.zero, count := 0, inlineUsed := 0,
    localDepth := depth.toUInt16, overflowNext := 0 }

/-- The part of the split that follows the doubling of the directory. It begins with a copy of
the inline area in use. -/
def splitNoted (retry : Noted Rc) (pageOff : UInt64) (pg : PagedPage) : Noted Rc := do
  let depth : UInt8 := (pg.localDepth + 1).toUInt8
  let splitBit : ℕ := 2 ^ (depth.toNat - 1)
  note (.inline 0 pg.inlineUsed.toNat)
  let newOff ← handOut alloc .page
  if newOff = 0 then return .enospc
  else
    let pgs ← redistributeAll depth splitBit pg (List.range pg.count.toNat)
      (keptPage pg depth, emptyPage depth.toUInt16)
    FsM.modify fun fs ↦ { fs with
      pdir.pageOff := fs.pdir.pageOff.mapIdx fun i off ↦
        if off = pageOff ∧ i &&& splitBit ≠ 0 then newOff else off }
    discard (osPwrite env pgs.2.encode pageSize newOff)
    pageCacheInvalidate env newOff
    pageWriteback env pgs.1 pageOff
    retry

def pageSplitAndRetryNoted (retry : Noted Rc) (pageOff : UInt64) : Noted Rc := do
  match ← loadPage env pageOff with
  | none => return .eio
  | some pg =>
    let fs ← FsM.get
    if pg.localDepth.toNat ≥ fs.pdir.globalDepth.toNat then
      if fs.pdir.globalDepth.toNat ≥ 20 then return .enospc
      else if ← pagedDirDouble env then
        match ← loadPage env pageOff with
        | none => return .eio
        | some pg => splitNoted env alloc retry pageOff pg
      else return .enomem
    else splitNoted env alloc retry pageOff pg

variable (out : Option Rc)

/-- A loop has used up its fuel: it does not return, or the run is cut off with a result. -/
def cutOff : Noted Rc :=
  match out with
  | none => liftM (FsM.diverge : FsM Rc)
  | some rc => return rc

def putWalkNoted (split : UInt64 → Noted Rc) (h : UInt64) (key : Path) (val : List UInt8) :
    ℕ → UInt64 → Noted Rc
  | 0, _ => cutOff out
  | n + 1, curOff =>
    if curOff = 0 then return .enospc
    else do
      match ← loadPage env curOff with
      | none => return .eio
      | some pg =>
        match ← findSlotNoted pg h key (List.range pg.count.toNat) with
        | some i => updateSlotNoted env alloc pg curOff i key val
        | none =>
          if pg.count.toNat ≥ slotsPerPage then
            if pg.overflowNext = 0 then
              match ← addOverflowNoted env alloc pg curOff with
              | none => split curOff
              | some (.error rc) => return rc
              | some (.ok off) => putWalkNoted split h key val n off
            else putWalkNoted split h key val n pg.overflowNext
          else appendSlotNoted env alloc pg curOff h key val

/-- `paged_put` in which a walk visits at most `walk` pages; the last argument bounds the
retries. -/
def pagedPutNoted (walk : ℕ) (key : Path) (val : List UInt8) : ℕ → Noted Rc
  | 0 => cutOff out
  | n + 1 => do
    notePassed val
    let h := xxh64 key
    let fs ← FsM.get
    let dirIdx := dirIndex h fs.pdir.globalDepth
    match ← ensureBucketNoted env alloc dirIdx with
    | .ok =>
      let fs ← FsM.get
      putWalkNoted env alloc out
        (pageSplitAndRetryNoted env alloc (pagedPutNoted walk key val n)) h key val walk
        (fs.pdir.pageOff.getD dirIdx 0)
    | rc => return rc

def insertWalkNoted (split : UInt64 → Noted Rc) (h : UInt64) (key : Path) (val : List UInt8) :
    ℕ → UInt64 → Noted Rc
  | 0, _ => cutOff out
  | n + 1, curOff =>
    if curOff = 0 then return .enospc
    else do
      match ← loadPage env curOff with
      | none => return .eio
      | some pg =>
        if pg.count.toNat ≥ slotsPerPage then
          if pg.overflowNext = 0 then
            match ← addOverflowNoted env alloc pg curOff with
            | none => split curOff
            | some (.error rc) => return rc
            | some (.ok off) => insertWalkNoted split h key val n off
          else insertWalkNoted split h key val n pg.overflowNext
        else appendSlotNoted env alloc pg curOff h key val

def pagedInsertNoted (walk retries : ℕ) (key : Path) (val : List UInt8) : Noted Rc := do
  notePassed val
  let h := xxh64 key
  let fs ← FsM.get
  let dirIdx := dirIndex h fs.pdir.globalDepth
  match ← ensureBucketNoted env alloc dirIdx with
  | .ok =>
    let fs ← FsM.get
    insertWalkNoted env alloc out
      (pageSplitAndRetryNoted env alloc (pagedPutNoted env alloc out walk key val retries))
      h key val walk (fs.pdir.pageOff.getD dirIdx 0)
  | rc => return rc

/-- The page walk of `paged_del`. The last slot moves to the place of the deleted one. -/
def delWalkNoted (h : UInt64) (key : Path) : ℕ → UInt64 → Noted Rc
  | 0, _ => cutOff out
  | n + 1, curOff =>
    if curOff = 0 then return .enoent
    else do
      match ← loadPage env curOff with
      | none => return .eio
      | some pg =>
        match ← findSlotNoted pg h key (List.range pg.count.toNat) with
        | some i =>
          if i < pg.count.toNat - 1 then
            note (.slot i)
            note (.slot (pg.count.toNat - 1))
          pageWriteback env (removeSlot pg i) curOff
          return .ok
        | none => delWalkNoted h key n pg.overflowNext

def pagedDelNoted (walk : ℕ) (key : Path) : Noted Rc := do
  let h := xxh64 key
  let fs ← FsM.get
  let dirIdx := dirIndex h fs.pdir.globalDepth
  if hasBucket fs dirIdx then
    delWalkNoted env out h key walk (fs.pdir.pageOff.getD dirIdx 0)
  else return .enoent

end code

section erase

variable (env : Env) (alloc : FsM UInt64)

theorem erase_handOut (use : UInt64 → Event) : erase (handOut alloc use) = alloc := by
  refine erase_noted (erase_lift _) fun off ↦ ?_
  rw [erase_ite, erase_note_bind, erase_pure, erase_pure]
  split
  · rename_i h0
    rw [h0]
  · rfl

theorem erase_loadPage (off : UInt64) : erase (loadPage env off) = pageLoad env off := by
  refine erase_noted (erase_lift _) fun r ↦ ?_
  cases r with
  | none => rfl
  | some pg => exact erase_note_bind _ _

theorem erase_writeRecord (key : Path) (val : List UInt8) :
    erase (writeRecordNoted env alloc key val) = writeRecordBy env alloc key val := by
  refine erase_seq (erase_handOut alloc _) fun off ↦ erase_branch (erase_pure _)
    (erase_seq (erase_lift _) fun r ↦ ?_)
  cases r with
  | none => exact erase_pure _
  | some _ =>
    exact erase_seq (erase_lift _) fun ok ↦ erase_branch (erase_pure _) (erase_pure _)

theorem erase_ensureBucket (dirIdx : ℕ) :
    erase (ensureBucketNoted env alloc dirIdx) = ensureBucketBy env alloc dirIdx := by
  refine erase_seq (erase_lift _) fun fs ↦ erase_branch (erase_seq (erase_handOut alloc _)
    fun off ↦ erase_branch (erase_pure _) (erase_seq (erase_lift _) fun _ ↦
      erase_seq (erase_lift _) fun ok ↦ erase_branch ?_ (erase_pure _))) (erase_pure _)
  exact erase_seq (erase_lift _) fun _ ↦ erase_pure _

theorem erase_addOverflow (pg : PagedPage) (curOff : UInt64) :
    erase (addOverflowNoted env alloc pg curOff) = addOverflowBy env alloc pg curOff := by
  refine erase_seq (erase_handOut alloc _) fun off ↦ erase_branch (erase_pure _)
    (erase_seq (erase_lift _) fun _ ↦ erase_seq (erase_lift _) fun ok ↦
      erase_branch ?_ (erase_pure _))
  exact erase_seq (erase_lift _) fun _ ↦ erase_pure _

theorem erase_findSlot (pg : PagedPage) (h : UInt64) (key : Path) (l : List ℕ) :
    erase (findSlotNoted pg h key l) = pure (l.find? fun i ↦ slotMatches (pg.slot i) h key) := by
  induction l with
  | nil => rfl
  | cons i l ih =>
    rw [findSlotNoted, erase_note_bind, erase_ite, erase_pure, ih, List.find?_cons]
    cases slotMatches (pg.slot i) h key <;> rfl

theorem erase_appendSlot (pg : PagedPage) (curOff h : UInt64) (key : Path) (val : List UInt8) :
    erase (appendSlotNoted env alloc pg curOff h key val) =
      appendSlotBy env alloc pg curOff h key val := by
  rw [appendSlotNoted, erase_note_bind]
  refine erase_branch ?_ (erase_seq (erase_writeRecord env alloc _ _) fun r ↦ ?_)
  · rw [erase_note_bind, erase_note_bind]
    exact erase_seq (erase_lift _) fun _ ↦ erase_pure _
  · cases r with
    | error rc => exact erase_seq (erase_lift _) fun _ ↦ erase_pure _
    | ok off => exact erase_seq (erase_lift _) fun _ ↦ erase_pure _

theorem erase_updateSlot (pg : PagedPage) (curOff : UInt64) (i : ℕ) (key : Path)
    (val : List UInt8) : erase (updateSlotNoted env alloc pg curOff i key val) =
      updateSlotBy env alloc pg curOff i key val := by
  rw [updateSlotNoted, erase_note_bind]
  refine erase_branch ?_ (erase_branch ?_ (erase_seq (erase_writeRecord env alloc _ _) fun r ↦ ?_))
  · rw [erase_note_bind]
    exact erase_seq (erase_lift _) fun _ ↦ erase_pure _
  · exact erase_seq ((erase_discard _).trans (congrArg discard (erase_lift _))) fun _ ↦
      erase_seq (erase_lift _) fun _ ↦ erase_pure _
  · cases r with
    | error rc => exact erase_pure _
    | ok off => exact erase_seq (erase_lift _) fun _ ↦ erase_pure _

theorem erase_redistribute (depth : UInt8) (bit : ℕ) (old : PagedPage)
    (pgs : PagedPage × PagedPage) (i : ℕ) :
    erase (redistributeNoted depth bit old pgs i) = pure (redistribute depth bit old pgs i) := by
  rw [redistributeNoted, erase_note_bind, erase_note_bind]
  dsimp only
  rw [erase_ite, erase_note_bind, erase_note_bind, erase_pure, ite_self]

theorem erase_redistributeAll (depth : UInt8) (bit : ℕ) (old : PagedPage) (l : List ℕ)
    (pgs : PagedPage × PagedPage) : erase (redistributeAll depth bit old l pgs) =
      pure (l.foldl (redistribute depth bit old) pgs) := by
  induction l generalizing pgs with
  | nil => rfl
  | cons i l ih =>
    rw [redistributeAll, erase_bind, erase_redistribute, pure_then, ih, List.foldl_cons]

variable {env alloc} {retry : Noted Rc} {retry' : FsM Rc}

theorem erase_split (hr : erase retry = retry') (pageOff : UInt64) (pg : PagedPage) :
    erase (splitNoted env alloc retry pageOff pg) = splitBy env alloc retry' pageOff pg := by
  rw [splitNoted, erase_note_bind]
  refine erase_seq (erase_handOut alloc _) fun newOff ↦ erase_branch (erase_pure _) ?_
  rw [erase_bind, erase_redistributeAll, pure_then]
  refine erase_seq (erase_lift _) fun _ ↦
    erase_seq ((erase_discard _).trans (congrArg discard (erase_lift _))) fun _ ↦ ?_
  exact erase_seq (erase_lift _) fun _ ↦ erase_seq (erase_lift _) fun _ ↦ hr

theorem erase_pageSplitAndRetry (hr : erase retry = retry') (pageOff : UInt64) :
    erase (pageSplitAndRetryNoted env alloc retry pageOff) =
      pageSplitAndRetryBy env alloc retry' pageOff := by
  refine erase_seq (erase_loadPage env _) fun r ↦ ?_
  cases r with
  | none => exact erase_pure _
  | some pg =>
    refine erase_seq (erase_lift _) fun fs ↦ erase_branch (erase_branch (erase_pure _)
      (erase_seq (erase_lift _) fun ok ↦ erase_branch (erase_seq (erase_loadPage env _)
        fun r ↦ ?_) (erase_pure _))) (erase_split hr _ _)
    cases r with
    | none => exact erase_pure _
    | some pg => exact erase_split hr _ _

variable {split : UInt64 → Noted Rc} {split' : UInt64 → FsM Rc}

theorem erase_putWalk (hs : ∀ o, erase (split o) = split' o) (h : UInt64) (key : Path)
    (val : List UInt8) (n : ℕ) (curOff : UInt64) :
    erase (putWalkNoted env alloc none split h key val n curOff) =
      putWalkBy env alloc split' h key val n curOff := by
  induction n generalizing curOff with
  | zero => exact erase_lift _
  | succ n ih =>
    refine erase_branch (erase_pure _) (erase_seq (erase_loadPage env _) fun r ↦ ?_)
    cases r with
    | none => exact erase_pure _
    | some pg =>
      dsimp only
      rw [erase_bind, erase_findSlot, pure_then, findSlot]
      cases (List.range pg.count.toNat).find? fun i ↦ slotMatches (pg.slot i) h key with
      | some i => exact erase_updateSlot env alloc _ _ _ _ _
      | none =>
        refine erase_branch (erase_branch (erase_seq (erase_addOverflow env alloc _ _)
          fun r ↦ ?_) (ih _)) (erase_appendSlot env alloc _ _ _ _ _)
        cases r with
        | none => exact hs _
        | some r =>
          cases r with
          | error rc => exact erase_pure _
          | ok off => exact ih _

theorem erase_pagedPut (key : Path) (val : List UInt8) (n : ℕ) :
    erase (pagedPutNoted env alloc none walkFuel key val n) = pagedPutBy env alloc key val n := by
  induction n with
  | zero => exact erase_lift _
  | succ n ih =>
    refine erase_seq (erase_lift _) fun _ ↦ erase_seq (erase_lift _) fun fs ↦
      erase_seq (erase_ensureBucket env alloc _) fun rc ↦ ?_
    cases rc with
    | ok =>
      exact erase_seq (erase_lift _) fun fs ↦
        erase_putWalk (fun o ↦ erase_pageSplitAndRetry ih o) _ _ _ _ _
    | _ => exact erase_pure _

/-- Without its notes this is the page walk of `paged_insert`. -/
theorem erase_insertWalk (hs : ∀ o, erase (split o) =
      pageSplitAndRetry env (pagedPut env key val) o) (h : UInt64) (n : ℕ) (curOff : UInt64) :
    erase (insertWalkNoted env (pageAlloc env) none split h key val n curOff) =
      insertWalk env h key val n curOff := by
  induction n generalizing curOff with
  | zero => exact erase_lift _
  | succ n ih =>
    refine erase_branch (erase_pure _) (erase_seq (erase_loadPage env _) fun r ↦ ?_)
    cases r with
    | none => exact erase_pure _
    | some pg =>
      refine erase_branch (erase_branch (erase_seq (erase_addOverflow env _ _ _)
        fun r ↦ ?_) (ih _)) (erase_appendSlot env _ _ _ _ _ _)
      cases r with
      | none => exact hs _
      | some r =>
        cases r with
        | error rc => exact erase_pure _
        | ok off => exact ih _

theorem erase_put (key : Path) (val : List UInt8) :
    erase (pagedPutNoted env (pageAlloc env) none walkFuel key val walkFuel) =
      pagedPut env key val :=
  (erase_pagedPut key val walkFuel).trans (pagedPutBy_eq env key val _)

theorem erase_pagedInsert (key : Path) (val : List UInt8) :
    erase (pagedInsertNoted env (pageAlloc env) none walkFuel walkFuel key val) =
      pagedInsert env key val := by
  refine erase_seq (erase_lift _) fun _ ↦ erase_seq (erase_lift _) fun fs ↦
    erase_seq (erase_ensureBucket env _ _) fun rc ↦ ?_
  cases rc with
  | ok =>
    exact erase_seq (erase_lift _) fun fs ↦ erase_insertWalk
      (fun o ↦ (erase_pageSplitAndRetry (erase_put key val) o).trans (pageSplitAndRetryBy_eq env _ o)) _ _ _
  | _ => exact erase_pure _

theorem erase_delWalk (h : UInt64) (key : Path) (n : ℕ) (curOff : UInt64) :
    erase (delWalkNoted env none h key n curOff) = delWalk env h key n curOff := by
  induction n generalizing curOff with
  | zero => exact erase_lift _
  | succ n ih =>
    refine erase_branch (erase_pure _) (erase_seq (erase_loadPage env _) fun r ↦ ?_)
    cases r with
    | none => exact erase_pure _
    | some pg =>
      dsimp only
      rw [erase_bind, erase_findSlot, pure_then, findSlot]
      cases (List.range pg.count.toNat).find? fun i ↦ slotMatches (pg.slot i) h key with
      | none => exact ih _
      | some i =>
        dsimp only
        rw [erase_ite, erase_note_bind, erase_note_bind, ite_self]
        exact erase_seq (erase_lift _) fun _ ↦ erase_pure _

theorem erase_pagedDel (key : Path) :
    erase (pagedDelNoted env none walkFuel key) = pagedDel env key :=
  erase_seq (erase_lift _) fun _ ↦ erase_branch (erase_delWalk _ _ _ _) (erase_pure _)

end erase

/-- A call that may change the index. -/
inductive Call
  | put (key : Path) (val : List UInt8)
  | insert (key : Path) (val : List UInt8)
  | del (key : Path)
  | split (pageOff : UInt64) (key : Path) (val : List UInt8)

def Call.code (env : Env) : Call → FsM Rc
  | .put key val => pagedPut env key val
  | .insert key val => pagedInsert env key val
  | .del key => pagedDel env key
  | .split pageOff key val => pageSplitAndRetry env (pagedPut env key val) pageOff

/-- The call over any block allocator and with any fuel. -/
def Call.noted (env : Env) (alloc : FsM UInt64) (out : Option Rc) (walk retries : ℕ) :
    Call → Noted Rc
  | .put key val => pagedPutNoted env alloc out walk key val retries
  | .insert key val => pagedInsertNoted env alloc out walk retries key val
  | .del key => pagedDelNoted env out walk key
  | .split pageOff key val => pageSplitAndRetryNoted env alloc
      (pagedPutNoted env alloc out walk key val retries) pageOff

theorem Call.erase_noted (env : Env) (c : Call) :
    erase (c.noted env (pageAlloc env) none walkFuel walkFuel) = c.code env := by
  cases c with
  | put key val => exact erase_put key val
  | insert key val => exact erase_pagedInsert key val
  | del key => exact erase_pagedDel key
  | split pageOff key val =>
    exact (erase_pageSplitAndRetry (erase_put key val) pageOff).trans
      (pageSplitAndRetryBy_eq env _ _)

end Xxfs.PageNotes

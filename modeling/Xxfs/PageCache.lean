import Xxfs.Machine

namespace Xxfs.PageCache

open Xxfs.DiskFormat Xxfs.Machine

variable (env : Env)

/-- The slot of the direct-mapped cache that the page at `off` uses. -/
def pcIndex (off : UInt64) : ℕ := ((off >>> 12) &&& 4095).toNat

def setPcache (idx : ℕ) (c : PagedCache) : FsM Unit :=
  FsM.modify fun fs ↦ { fs with pcache := fun i ↦ if i = idx then c else fs.pcache i }

def pageSize : ℕ := 4096

def pageLoad (off : UInt64) : FsM (Option PagedPage) := do
  let fs ← FsM.get
  let idx := pcIndex off
  let c := fs.pcache idx
  match c.page with
  | some pg =>
    if c.pageOff = off then return some pg
    else
      if c.dirty then discard (osPwrite env pg.encode pageSize c.pageOff)
      fill idx { c with page := none, dirty := false }
  | none => fill idx c
where
  /-- Reads the page into the emptied slot. -/
  fill (idx : ℕ) (c : PagedCache) : FsM (Option PagedPage) := do
    setPcache idx c
    if ← osAlloc env then
      match ← osPread env (fun _ ↦ 0) pageSize off with
      | none => return none
      | some (buf, _) =>
        let pg := PagedPage.decode buf
        setPcache idx ⟨off, some pg, false⟩
        return some pg
    else return none

def holds (fs : Fs) (off : UInt64) : Bool :=
  (fs.pcache (pcIndex off)).pageOff == off && (fs.pcache (pcIndex off)).page.isSome

/-- A store through the pointer `page_load` returned, without `page_writeback`. -/
def pagePoke (pg : PagedPage) (off : UInt64) : FsM Unit := do
  let fs ← FsM.get
  if holds fs off then
    setPcache (pcIndex off) { fs.pcache (pcIndex off) with page := some pg }

def pageWriteback (pg : PagedPage) (off : UInt64) : FsM Unit := do
  let fs ← FsM.get
  if holds fs off then setPcache (pcIndex off) ⟨off, some pg, true⟩
  else discard (osPwrite env pg.encode pageSize off)

def pageCacheInvalidate (off : UInt64) : FsM Unit := do
  let fs ← FsM.get
  let c := fs.pcache (pcIndex off)
  match c.page with
  | some pg =>
    if c.pageOff = off then
      if c.dirty then discard (osPwrite env pg.encode pageSize off)
      setPcache (pcIndex off) ⟨0, none, false⟩
  | none => return ()

def pcacheSize : ℕ := 4096

def flushSlot (i : ℕ) : FsM Unit := do
  let fs ← FsM.get
  let c := fs.pcache i
  match c.page with
  | some pg =>
    if c.dirty then
      discard (osPwrite env pg.encode pageSize c.pageOff)
      setPcache i { c with dirty := false }
  | none => return ()

def pcacheFlushAll : FsM Unit := (List.range pcacheSize).forM (flushSlot env)

end Xxfs.PageCache

import Xxfs.FreshRuns

namespace Xxfs.OnePage

open Function
open Xxfs.DiskFormat Xxfs.Machine Xxfs.Allocator Xxfs.PageCache Xxfs.PagedIndex Xxfs.PageStore
open Xxfs.InodeCache Xxfs.DirCache Xxfs.Volume Xxfs.Operations Xxfs.Hash Xxfs.PathName Xxfs.CacheMap
open Xxfs.Checksum Xxfs.IndexState Xxfs.IndexRep Xxfs.FreshVolume Xxfs.FreshIndex Xxfs.Runs
open Xxfs.Soundness Xxfs.OperationFrames Xxfs.Frames
open Xxfs.Lib Xxfs.Lib.Computation Xxfs.Lib.Computation.Comp Xxfs.Lib.ProbeTable

section handy

/-- The index is one page, and that is in the page cache. -/
structure Handy (fs : Fs) (head : UInt64) (pg : PagedPage) : Prop where
  dir : fs.pdir = ⟨[head], 0⟩
  used : head ≠ 0 ∧ head ≠ 0xFFFFFFFFFFFFFFFF
  page : (fs.pcache (pcIndex head)).page = some pg
  off : (fs.pcache (pcIndex head)).pageOff = head

variable (env : Env) {fs : Fs} {head : UInt64} {pg : PagedPage} {key : Path} {val : List UInt8}
  (h : Handy fs head pg)
include h

theorem Handy.load : pageLoad env head fs = some (some pg, fs) := by
  simp only [pageLoad, bind_apply, get_apply, Option.bind_some, h.page, h.off, ↓reduceIte,
    pure_apply]

theorem Handy.holds : holds fs head = true := by
  simp only [PageCache.holds, h.page, h.off, beq_self_eq_true, Option.isSome_some, Bool.and_self]

theorem Handy.same {fs' : Fs} (hd : fs'.pdir = fs.pdir) (hc : fs'.pcache = fs.pcache) :
    Handy fs' head pg :=
  ⟨hd.trans h.dir, h.used, by rw [hc, h.page], by rw [hc, h.off]⟩

theorem Handy.change (pg' : PagedPage) (d : Bool) : Handy { fs with
    pcache := fun i ↦ if i = pcIndex head then ⟨head, some pg', d⟩ else fs.pcache i } head pg' :=
  ⟨h.dir, h.used, by simp, by simp⟩

theorem Handy.writeback (pg' : PagedPage) : ∃ fs',
    pageWriteback env pg' head fs = some ((), fs') ∧ Handy fs' head pg' ∧
      fs'.icache = fs.icache ∧ fs'.clock = fs.clock ∧ fs'.sb = fs.sb := by
  refine ⟨_, ?_, h.change pg' true, rfl, rfl, rfl⟩
  simp only [pageWriteback, bind_apply, get_apply, Option.bind_some, h.holds, ↓reduceIte, setPcache,
    modify_apply]

theorem Handy.poke (pg' : PagedPage) : ∃ fs', pagePoke pg' head fs = some ((), fs') ∧
    Handy fs' head pg' ∧ fs'.icache = fs.icache := by
  refine ⟨_, ?_, (h.change pg' (fs.pcache (pcIndex head)).dirty), rfl⟩
  simp only [pagePoke, bind_apply, get_apply, Option.bind_some, h.holds, ↓reduceIte, setPcache,
    modify_apply, h.off]

theorem Handy.del {i : ℕ} (hi : findSlot pg (xxh64 key) key = some i) : ∃ fs',
    pagedDel env key fs = some (.ok, fs') ∧ Handy fs' head (removeSlot pg i) ∧
      fs'.icache = fs.icache ∧ fs'.clock = fs.clock ∧ fs'.sb = fs.sb := by
  obtain ⟨fs', hwb, hH, hsame⟩ := h.writeback env (removeSlot pg i)
  obtain ⟨k, hk⟩ : ∃ k, walkFuel = k + 1 := ⟨walkFuel - 1, by decide⟩
  have hb : hasBucket fs 0 = true := by simp [hasBucket, h.dir, h.used.2]
  refine ⟨fs', ?_, hH, hsame⟩
  have hidx : dirIndex (xxh64 key) fs.pdir.globalDepth = 0 := by rw [h.dir]; rfl
  have hoff : fs.pdir.pageOff.getD 0 0 = head := by rw [h.dir]; rfl
  simp only [pagedDel, bind_apply, get_apply, Option.bind_some, hidx, hb, ↓reduceIte, hoff, hk,
    delWalk, h.used.1, h.load env, hi, hwb, pure_apply]

theorem Handy.put_found {i : ℕ} (hi : findSlot pg (xxh64 key) key = some i) :
    pagedPut env key val fs =
      updateSlot env pg head i key val { fs with passed := val :: fs.passed } := by
  obtain ⟨k, hk⟩ : ∃ k, walkFuel = k + 1 := ⟨walkFuel - 1, by decide⟩
  have hH : Handy { fs with passed := val :: fs.passed } head pg := h.same rfl rfl
  have hidx : dirIndex (xxh64 key) fs.pdir.globalDepth = 0 := by rw [h.dir]; rfl
  have hoff : fs.pdir.pageOff.getD 0 0 = head := by rw [h.dir]; rfl
  have hbucket : ensureBucket env 0 { fs with passed := val :: fs.passed } =
      some (.ok, { fs with passed := val :: fs.passed }) := by
    simp only [ensureBucket, bind_apply, get_apply, Option.bind_some, hoff, h.used.2, ↓reduceIte,
      pure_apply]
  rw [pagedPut, hk]
  simp only [pagedPutN, notePassed, bind_apply, modify_apply, get_apply, Option.bind_some, hidx,
    hbucket, hoff]
  rw [hk]
  simp only [putWalk, h.used.1, ↓reduceIte, bind_apply, hH.load env, Option.bind_some, hi]

/-- A value that is not longer than the one in the record is written over it. -/
theorem Handy.put_over (he : Healthy env) {i : ℕ} (hi : findSlot pg (xxh64 key) key = some i)
    (hflag : (pg.slot i).flags &&& slotFInline = 0)
    (hle : UInt32.ofNat val.length ≤ (pg.slot i).vlen)
    (hoff : ((pg.slot i).fileOff + 8 + UInt64.ofNat key.length).toNat < 2 ^ 63) : ∃ fs',
    pagedPut env key val fs = some (.ok, fs') ∧ fs'.icache = fs.icache ∧ fs'.sb = fs.sb := by
  have hH : Handy { fs with
      img := fs.img.write (bytesAt val) val.length
        ((pg.slot i).fileOff + 8 + UInt64.ofNat key.length).toNat
      clock := fs.clock + 1
      passed := val :: fs.passed } head pg := h.same rfl rfl
  obtain ⟨fs', hwb, -, hc, -, hs⟩ := hH.writeback env
    (pg.setSlot i { pg.slot i with vlen := UInt32.ofNat val.length })
  refine ⟨fs', ?_, hc, hs⟩
  have hrec : ¬((pg.slot i).flags &&& slotFInline ≠ 0 ∧
      UInt32.ofNat val.length ≤ (pg.slot i).vlen) := fun hc ↦ hc.1 hflag
  rw [h.put_found env hi, updateSlot, if_neg hrec, if_pos ⟨hflag, hle⟩, bind_apply, discard_apply,
    he.osPwrite_apply _ _ _ hoff]
  simp only [Option.bind_some, bind_apply, hwb, pure_apply]

variable (key val)

theorem Handy.put (h0 : pg.count = 0) : pagedPut env key val fs =
    appendSlot env pg head (xxh64 key) key val { fs with passed := val :: fs.passed } := by
  obtain ⟨k, hk⟩ : ∃ k, walkFuel = k + 1 := ⟨walkFuel - 1, by decide⟩
  have hH : Handy { fs with passed := val :: fs.passed } head pg := h.same rfl rfl
  have hidx : dirIndex (xxh64 key) fs.pdir.globalDepth = 0 := by rw [h.dir]; rfl
  have hoff : fs.pdir.pageOff.getD 0 0 = head := by rw [h.dir]; rfl
  have hbucket : ensureBucket env 0 { fs with passed := val :: fs.passed } =
      some (.ok, { fs with passed := val :: fs.passed }) := by
    simp only [ensureBucket, bind_apply, get_apply, Option.bind_some, hoff, h.used.2, ↓reduceIte,
      pure_apply]
  have hfind : findSlot pg (xxh64 key) key = none := by
    rw [findSlot, h0]
    rfl
  have hroom : ¬pg.count.toNat ≥ slotsPerPage := by
    rw [h0]
    decide
  rw [pagedPut, hk]
  simp only [pagedPutN, notePassed, bind_apply, modify_apply, get_apply, Option.bind_some, hidx,
    hbucket, hoff]
  rw [hk]
  simp only [putWalk, h.used.1, ↓reduceIte, bind_apply, hH.load env, Option.bind_some, hfind, hroom]

theorem Handy.put_fits (h0 : pg.count = 0)
    (hfit : (pg.inlineUsed + UInt32.ofNat (key.length + val.length)).toNat ≤ inlineSpace) : ∃ fs',
    pagedPut env key val fs = some (.ok, fs') ∧ fs'.icache = fs.icache := by
  have hH : Handy { fs with passed := val :: fs.passed } head pg := h.same rfl rfl
  rw [h.put env key val h0, appendSlot, if_pos hfit]
  obtain ⟨fs', hwb, -, hi, -⟩ := hH.writeback env { pg.setSlot pg.count.toNat
    { newSlot pg (xxh64 key) key val with
      fileOff := pg.inlineUsed.toUInt64
      flags := slotFInline } with
    count := pg.count + 1
    inlineUsed := pg.inlineUsed + UInt32.ofNat (key.length + val.length)
    inlineArea := storeInline pg.inlineArea pg.inlineUsed.toNat key val }
  refine ⟨fs', ?_, hi⟩
  rw [bind_apply, hwb]
  rfl

theorem Handy.put_starved (h0 : pg.count = 0)
    (hfit : ¬(pg.inlineUsed + UInt32.ofNat (key.length + val.length)).toNat ≤ inlineSpace)
    (hfree : fs.sb.sFreeBlocks ≠ 0) (hoff : nextOff fs.sb ≠ 0)
    (hrec : ¬recLen key.length val.length ≤ 512) (hm : env.mem fs.clock = false) : ∃ fs' pg',
    pagedPut env key val fs = some (.enomem, fs') ∧ Handy fs' head pg' ∧ pg'.count = 0 ∧
      pg'.inlineUsed = pg.inlineUsed ∧ fs'.icache = fs.icache := by
  have hwrite : ∃ fs₁, writeRecord env key val { fs with passed := val :: fs.passed } =
      some (.error .enomem, fs₁) ∧ Handy fs₁ head pg ∧ fs₁.icache = fs.icache := by
    have hH : Handy { fs with
        passed := val :: fs.passed
        sb := { fs.sb with sFreeBlocks := fs.sb.sFreeBlocks - 1 }
        clock := fs.clock + 1 } head pg := h.same rfl rfl
    refine ⟨_, ?_, hH, rfl⟩
    simp only [writeRecord, pageAlloc, bind_apply, get_apply, Option.bind_some, hfree, ↓reduceIte,
      modify_apply, pure_apply, hoff, recBuffer, hrec, osAlloc, tick_apply, hm, Bool.false_eq_true]
  obtain ⟨fs₁, hrec, hH₁, hi₁⟩ := hwrite
  obtain ⟨fs', hpoke, hH, hi⟩ :=
    hH₁.poke (pg.setSlot pg.count.toNat (newSlot pg (xxh64 key) key val))
  refine ⟨fs', _, ?_, hH, h0, rfl, hi.trans hi₁⟩
  rw [h.put env key val h0, appendSlot, if_neg hfit, bind_apply, hrec, Option.bind_some]
  dsimp only
  rw [bind_apply, hpoke]
  rfl

variable {key val}

theorem Handy.get {fs₀ : Fs} (hload : pageLoad env head fs₀ = some (some pg, fs))
    (hdir : fs₀.pdir = ⟨[head], 0⟩) (h1 : pg.count = 1)
    (hmatch : slotMatches (pg.slot 0) (xxh64 key) key = true)
    (hflag : (pg.slot 0).flags &&& slotFInline = 0) (hshort : ¬key.length > keyPrefixLen)
    (hlen : (pg.slot 0).vlen.toNat = inodeSize) (hoff : (pg.slot 0).fileOff.toNat < 2 ^ 63)
    (hm : env.mem fs.clock = true) (hio : env.io (fs.clock + 1) = true) : ∃ n,
    inodePagedGet env key fs₀ = some (.ok n, { fs with clock := fs.clock + 2 }) := by
  obtain ⟨k, hk⟩ : ∃ k, walkFuel = k + 1 := ⟨walkFuel - 1, by decide⟩
  have hb : hasBucket fs₀ 0 = true := by simp [hasBucket, hdir, h.used.2]
  have hidx : dirIndex (xxh64 key) fs₀.pdir.globalDepth = 0 := by rw [hdir]; rfl
  have hhead : fs₀.pdir.pageOff.getD 0 0 = head := by rw [hdir]; rfl
  have hrec : ¬recLen key.length inodeSize ≤ 512 := by
    rw [recLen, show inodeSize = 560 from rfl]
    omega
  have hslot : ∃ v, getSlot env pg (xxh64 key) key inodeSize 0 fs =
      some (some (.ok v), { fs with clock := fs.clock + 2 }) := by
    simp only [getSlot, hmatch, hflag, hlen, hshort, recBuffer, bind_apply, get_apply,
      Option.bind_some, hrec, ↓reduceIte, osAlloc, tick_apply, pure_apply, hm, ne_eq,
      not_true_eq_false, Bool.true_eq_false, false_and, lt_self_iff_false]
    rw [osPread_of_io { fs with clock := fs.clock + 1 } hio _ _ hoff, Option.bind_some]
    exact ⟨_, rfl⟩
  obtain ⟨v, hv⟩ := hslot
  have hscan : getScan env pg (xxh64 key) key inodeSize (List.range pg.count.toNat) fs =
      some (some (.ok v), { fs with clock := fs.clock + 2 }) := by
    rw [h1]
    change getScan env pg (xxh64 key) key inodeSize [0] fs = _
    rw [getScan, bind_apply, hv]
    rfl
  have hget : pagedGet env key inodeSize fs₀ = some (.ok v, { fs with clock := fs.clock + 2 }) := by
    simp only [pagedGet, bind_apply, get_apply, Option.bind_some, hidx, hb, ↓reduceIte, hhead, hk,
      getWalk, h.used.1, hload, hscan, pure_apply]
  refine ⟨(inodeVerifyEcc (valToInode v)).2, ?_⟩
  rw [inodePagedGet, bind_apply, hget, Option.bind_some]
  rfl

end handy

theorem Handy.of_cold (env : Env) {fs : Fs} {head : UInt64} (hdir : fs.pdir = ⟨[head], 0⟩)
    (hused : head ≠ 0 ∧ head ≠ 0xFFFFFFFFFFFFFFFF) (hu : Usable head)
    (hcold : (fs.pcache (pcIndex head)).page = none) (hm : env.mem fs.clock = true)
    (hio : env.io (fs.clock + 1) = true) : ∃ fs₁,
    pageLoad env head fs = some (some (diskPage fs.img head), fs₁) ∧
      Handy fs₁ head (diskPage fs.img head) ∧ fs₁.clock = fs.clock + 2 ∧
      fs₁.icache = fs.icache ∧ fs₁.sb = fs.sb := by
  refine ⟨{ fs with
    pcache := fun i ↦ if i = pcIndex head then ⟨head, some (diskPage fs.img head), false⟩
      else fs.pcache i
    clock := fs.clock + 2 }, ?_, ⟨hdir, hused, by simp, by simp⟩, rfl, rfl, rfl⟩
  simp only [pageLoad, bind_apply, get_apply, Option.bind_some, hcold]
  exact fill_of_calls hm hio hu _ _

section fresh

/-- What the first page of a fresh image of one megabyte holds for the root. -/
structure RootSlot (pg : PagedPage) : Prop where
  count : pg.count = 1
  unused : pg.inlineUsed = 0
  found : findSlot pg (xxh64 rootPath) rootPath = some 0
  hit : slotMatches (pg.slot 0) (xxh64 rootPath) rootPath = true
  outside : (pg.slot 0).flags &&& slotFInline = 0
  vlen : (pg.slot 0).vlen = UInt32.ofNat inodeSize
  off : (pg.slot 0).fileOff.toNat < 2 ^ 62

/-- The first lookup of the root on a fresh image brings the page into the cache. -/
theorem cold_root (env : Env) (l : Lock) (dc : ℕ → DirCacheEntry) (hm : env.mem 13 = true)
    (hio : env.io 14 = true) (hm' : env.mem 15 = true) (hio' : env.io 16 = true) :
    ∃ n fs head pg, inodePagedGet env rootPath { freshFs steady 1 0 with lock := l, dcache := dc } =
      some (.ok n, fs) ∧ Handy fs head pg ∧ RootSlot pg ∧ fs.clock = 17 ∧
        fs.icache = icacheInit ∧ fs.sb = (freshFs steady 1 0).sb := by
  have hrep := fresh_represents steady goodSize_one 0
  have hpage := fresh_page steady 1 0
  have hd := dataStart_bounds (totalBlocks 1)
  have hhead : (dataStart (totalBlocks 1) + 4096).toNat = (dataStart (totalBlocks 1)).toNat + 4096 :=
    dataStart_add _ 4096 (by decide)
  have husable := hrep.pages.usable _ (List.mem_singleton.mpr rfl)
  have hlen := inodeToVal_length (rootInode (steady.time 1))
  have hrec : RecordAt (freshFs steady 1 0).img (dataStart (totalBlocks 1)) rootPath
      (inodeToVal (rootInode (steady.time 1))) := recordAt_root (fresh_image 1 0)
  generalize inodeToVal (rootInode (steady.time 1)) = v at hlen hrec
  have hslot := (rootPage_rep hlen hrec).slots 0 _ rfl
  rw [pageAt_of_absent _ (fun pg hp ↦ by cases hp)] at hpage
  have hcold (i : ℕ) : ((freshFs steady 1 0).pcache i).page = none := rfl
  have hdir : (freshFs steady 1 0).pdir = ⟨[dataStart (totalBlocks 1) + 4096], 0⟩ := rfl
  have hclock : (freshFs steady 1 0).clock = 13 := rfl
  have hcache : (freshFs steady 1 0).icache = icacheInit := rfl
  generalize freshFs steady 1 0 = fs at hpage hcold hdir hclock hcache hslot ⊢
  have hused := firstPage_used (totalBlocks 1)
  generalize dataStart (totalBlocks 1) = D at *
  obtain ⟨fs₁, hload, hH₁, hc₁, hi₁, hsb₁⟩ := @Handy.of_cold env
    { fs with lock := l, dcache := dc } _ hdir hused husable (hcold _)
    (by rw [hclock]; exact hm) (by rw [hclock]; exact hio)
  have himg : diskPage ({ fs with lock := l, dcache := dc } : Fs).img (D + 4096) = rootPage D :=
    hpage
  rw [himg] at hload hH₁
  replace hc₁ : fs₁.clock = 15 := hc₁.trans (by rw [hclock])
  obtain ⟨hflag, hloc, -⟩ := hslot.body
  have hmatch : slotMatches ((rootPage D).slot 0) (xxh64 rootPath) rootPath = true :=
    hslot.matches_self
  have hvlen := hslot.vlen_toNat.trans hlen
  have hoff : ((rootPage D).slot 0).fileOff.toNat < 2 ^ 62 := by
    rw [hloc]
    omega
  have hR : RootSlot (rootPage D) := ⟨rfl, rfl, List.find?_cons_of_pos hmatch, hmatch, hflag,
    UInt32.toNat_inj.mp hvlen, hoff⟩
  obtain ⟨n, hget⟩ := hH₁.get env hload hdir rfl hmatch hflag (by decide) hvlen (by omega)
    (by rw [hc₁]; exact hm') (by rw [hc₁]; exact hio')
  exact ⟨n, _, _, _, hget, hH₁.same rfl rfl, hR, congrArg (· + 2) hc₁, hi₁.trans hcache, hsb₁⟩

end fresh

end Xxfs.OnePage

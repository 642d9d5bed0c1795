import Xxfs.PagedIndex

namespace Xxfs.Frames

open Xxfs.DiskFormat Xxfs.Machine Xxfs.Allocator Xxfs.PageCache Xxfs.PagedIndex
open Xxfs.Lib.Computation Xxfs.Lib.Computation.Comp

/-- What an allocation may do to the block counters: the free one never grows, and the other
one changes only once the pool is exhausted. -/
structure Spent (sb sb' : Super) : Prop where
  free : sb'.sFreeBlocks.toNat ≤ sb.sFreeBlocks.toNat
  dataOff : sb'.sDataOff = sb.sDataOff
  count : 0 < sb'.sFreeBlocks.toNat → sb'.sBlockCount = sb.sBlockCount

theorem Spent.rfl {sb : Super} : Spent sb sb := ⟨le_rfl, Eq.refl _, fun _ ↦ Eq.refl _⟩

theorem Spent.trans {sb sb₁ sb₂ : Super} (h : Spent sb sb₁) (h' : Spent sb₁ sb₂) : Spent sb sb₂ :=
  ⟨h'.free.trans h.free, h'.dataOff.trans h.dataOff,
    fun hf ↦ (h'.count hf).trans (h.count (hf.trans_le h'.free))⟩

/-- Values that were added to a record of values, each of them with `P`. -/
def Passed (P : List UInt8 → Prop) (vs vs' : List (List UInt8)) : Prop :=
  ∃ new, vs' = new ++ vs ∧ ∀ v ∈ new, P v

section passed

variable {P : List UInt8 → Prop} {vs vs₁ vs' : List (List UInt8)}

theorem Passed.rfl : Passed P vs vs := ⟨[], Eq.refl vs, fun _ hv ↦ nomatch hv⟩

theorem Passed.trans (h : Passed P vs vs₁) (h' : Passed P vs₁ vs') : Passed P vs vs' := by
  obtain ⟨new, rfl, hnew⟩ := h
  obtain ⟨new', rfl, hnew'⟩ := h'
  refine ⟨new' ++ new, (List.append_assoc new' new vs).symm, fun v hv ↦ ?_⟩
  exact (List.mem_append.mp hv).elim (hnew' v) (hnew v)

theorem Passed.cons {v : List UInt8} (hv : P v) : Passed P vs (v :: vs) :=
  ⟨[v], Eq.refl (v :: vs), fun _ hw ↦ List.mem_singleton.mp hw ▸ hv⟩

theorem Passed.mem {v : List UInt8} (h : Passed P vs vs') (hv : v ∈ vs') : v ∈ vs ∨ P v := by
  obtain ⟨new, rfl, hnew⟩ := h
  exact (List.mem_append.mp hv).elim (fun hv ↦ .inr (hnew v hv)) .inl

theorem Passed.kept (h : Passed P vs vs') : vs ⊆ vs' := by
  obtain ⟨new, rfl, -⟩ := h
  exact List.subset_append_right new vs

theorem Passed.eq (h : Passed (fun _ ↦ False) vs vs') : vs' = vs := by
  obtain ⟨new, rfl, hnew⟩ := h
  obtain rfl := List.eq_nil_iff_forall_not_mem.mpr hnew
  exact List.nil_append vs

end passed

/-- All that the index and the layers under it may change: the image, the page cache, the page
directory and the block counters. Only values with `P` are handed to the index. -/
structure IndexOnly (P : List UInt8 → Prop) (fs fs' : Fs) : Prop where
  lock : fs'.lock = fs.lock
  flags : fs'.flags = fs.flags
  cowGen : fs'.cowGen = fs.cowGen
  icache : fs'.icache = fs.icache
  dcache : fs'.dcache = fs.dcache
  spent : Spent fs.sb fs'.sb
  inodes : fs'.sb.sInodesCount = fs.sb.sInodesCount
  passed : Passed P fs.passed fs'.passed
  clock : fs.clock ≤ fs'.clock
  size : fs.img.size ≤ fs'.img.size

variable {P : List UInt8 → Prop}

instance : Std.Refl (IndexOnly P) where
  refl _ := ⟨rfl, rfl, rfl, rfl, rfl, Spent.rfl, rfl, Passed.rfl, le_rfl, le_rfl⟩

instance : IsTrans Fs (IndexOnly P) where
  trans _ _ _ h h' := ⟨h'.lock.trans h.lock, h'.flags.trans h.flags, h'.cowGen.trans h.cowGen,
    h'.icache.trans h.icache, h'.dcache.trans h.dcache, h.spent.trans h'.spent,
    h'.inodes.trans h.inodes, h.passed.trans h'.passed,
    h.clock.trans h'.clock, h.size.trans h'.size⟩

theorem IndexOnly.setSb {fs : Fs} {sb : Super} (hs : Spent fs.sb sb)
    (hi : sb.sInodesCount = fs.sb.sInodesCount) : IndexOnly P fs { fs with sb := sb } :=
  ⟨rfl, rfl, rfl, rfl, rfl, hs, hi, Passed.rfl, le_rfl, le_rfl⟩

variable (env : Env)

theorem tick_indexOnly : Within (IndexOnly P) tick :=
  .bind .get fun _ ↦ .bind
    (.modify fun _ ↦ ⟨rfl, rfl, rfl, rfl, rfl, Spent.rfl, rfl, Passed.rfl, Nat.le_succ _, le_rfl⟩)
    fun _ ↦ .pure _

theorem osTime_indexOnly : Within (IndexOnly P) (osTime env) :=
  .bind tick_indexOnly fun _ ↦ .pure _

theorem osAlloc_indexOnly : Within (IndexOnly P) (osAlloc env) :=
  .bind tick_indexOnly fun _ ↦ .pure _

theorem osPwrite_indexOnly (src : ℕ → UInt8) (len : ℕ) (off : UInt64) :
    Within (IndexOnly P) (osPwrite env src len off) :=
  .bind tick_indexOnly fun _ ↦ .ite
    (fun _ ↦ .bind (.modify fun _ ↦
      ⟨rfl, rfl, rfl, rfl, rfl, Spent.rfl, rfl, Passed.rfl, le_rfl, Image.write_size _ _ _ _⟩) fun _ ↦ .pure _)
    fun _ ↦ .pure _

theorem osPread_indexOnly (buf : ℕ → UInt8) (len : ℕ) (off : UInt64) :
    Within (IndexOnly P) (osPread env buf len off) :=
  .bind tick_indexOnly fun _ ↦ .bind .get fun _ ↦ .ite (fun _ ↦ .pure _) fun _ ↦ .pure _

theorem osFileSize_indexOnly : Within (IndexOnly P) (osFileSize env) :=
  .bind tick_indexOnly fun _ ↦ .bind .get fun _ ↦ .pure _

theorem osFileExtend_indexOnly (size : UInt64) : Within (IndexOnly P) (osFileExtend env size) := by
  refine .bind (osFileSize_indexOnly env) fun r ↦ ?_
  cases r with
  | none => exact .pure _
  | some cur =>
    refine .ite (fun _ ↦ .pure _) fun _ ↦ .bind tick_indexOnly fun _ ↦ .ite (fun _ ↦ ?_)
      fun _ ↦ .pure _
    exact .bind (.modify fun _ ↦
      ⟨rfl, rfl, rfl, rfl, rfl, Spent.rfl, rfl, Passed.rfl, le_rfl, le_max_left _ _⟩) fun _ ↦ .pure _

theorem discard_indexOnly {α : Type} {m : FsM α} (hm : Within (IndexOnly P) m) :
    Within (IndexOnly P) (discard m) :=
  .bind hm fun _ ↦ .pure _

theorem spent_take {sb : Super} {n : UInt64} (h : sb.sFreeBlocks ≥ n) :
    Spent sb { sb with sFreeBlocks := sb.sFreeBlocks - n } := by
  refine ⟨?_, rfl, fun _ ↦ rfl⟩
  rw [UInt64.toNat_sub_of_le _ _ h]
  omega

theorem spent_extended {sb sb' : Super} (hf : sb'.sFreeBlocks.toNat = 0)
    (hd : sb'.sDataOff = sb.sDataOff) : Spent sb sb' :=
  ⟨by omega, hd, fun h ↦ by omega⟩

theorem pageAlloc_indexOnly : Within (IndexOnly P) (pageAlloc env) := by
  refine .bind_get fun fs b fs' h ↦ ?_
  simp only [if_apply] at h
  split at h
  · rename_i h0
    obtain ⟨r, fs₁, h₁, h₂⟩ := of_bind h
    have hext : IndexOnly P fs fs₁ := osFileExtend_indexOnly env _ _ _ _ h₁
    simp only [if_apply] at h₂
    split at h₂
    · obtain ⟨-, rfl⟩ := Prod.mk.inj (Option.some.inj h₂)
      refine ⟨hext.lock, hext.flags, hext.cowGen, hext.icache, hext.dcache,
        spent_extended ?_ hext.spent.dataOff, hext.inodes, hext.passed, hext.clock, hext.size⟩
      have hle := hext.spent.free
      rw [h0] at hle
      exact Nat.le_zero.mp hle
    · obtain ⟨-, rfl⟩ := Prod.mk.inj (Option.some.inj h₂)
      exact hext
  · obtain ⟨-, rfl⟩ := Prod.mk.inj (Option.some.inj h)
    refine ⟨rfl, rfl, rfl, rfl, rfl, spent_take ?_, rfl, Passed.rfl, le_rfl, le_rfl⟩
    have hne : fs.sb.sFreeBlocks ≠ 0 := ‹_›
    exact UInt64.le_iff_toNat_le.mpr (by
      have : fs.sb.sFreeBlocks.toNat ≠ 0 := fun h0 ↦ hne (UInt64.toNat_inj.mp h0)
      have h1 : (1 : UInt64).toNat = 1 := rfl
      omega)

theorem pageAllocN_indexOnly (n : UInt64) : Within (IndexOnly P) (pageAllocN env n) := by
  refine .ite (fun _ ↦ .pure _) fun _ ↦ .ite (fun _ ↦ pageAlloc_indexOnly env) fun _ ↦ ?_
  refine .bind_get fun fs b fs' h ↦ ?_
  simp only [if_apply] at h
  split at h
  · obtain ⟨-, rfl⟩ := Prod.mk.inj (Option.some.inj h)
    exact ⟨rfl, rfl, rfl, rfl, rfl, spent_take ‹_›, rfl, Passed.rfl, le_rfl, le_rfl⟩
  · refine Within.bind (osFileExtend_indexOnly env _) (fun r ↦ ?_) fs b fs' h
    refine .ite (fun _ ↦ .bind (.modify fun _ ↦ ?_) fun _ ↦ .pure _) fun _ ↦ .pure _
    exact ⟨rfl, rfl, rfl, rfl, rfl, spent_extended rfl rfl, rfl, Passed.rfl, le_rfl, le_rfl⟩

theorem pageAllocRaw_indexOnly : Within (IndexOnly P) (pageAllocRaw env) := by
  refine .bind (osFileSize_indexOnly env) fun r ↦ ?_
  cases r with
  | none => exact .pure _
  | some fsize =>
    exact .bind (osFileExtend_indexOnly env _) fun _ ↦ .ite (fun _ ↦ .pure _) fun _ ↦ .pure _

theorem setPcache_indexOnly (idx : ℕ) (c : PagedCache) : Within (IndexOnly P) (setPcache idx c) :=
  .modify fun _ ↦ ⟨rfl, rfl, rfl, rfl, rfl, Spent.rfl, rfl, Passed.rfl, le_rfl, le_rfl⟩

theorem fill_indexOnly (off : UInt64) (idx : ℕ) (c : PagedCache) :
    Within (IndexOnly P) (pageLoad.fill env off idx c) := by
  refine .bind (setPcache_indexOnly _ _) fun _ ↦ .bind (osAlloc_indexOnly env) fun _ ↦
    .ite (fun _ ↦ .bind (osPread_indexOnly env _ _ _) fun r ↦ ?_) fun _ ↦ .pure _
  cases r with
  | none => exact .pure _
  | some p => exact .bind (setPcache_indexOnly _ _) fun _ ↦ .pure _

theorem pageLoad_indexOnly (off : UInt64) : Within (IndexOnly P) (pageLoad env off) := by
  refine .bind .get fun fs ↦ ?_
  dsimp only
  split
  · refine .ite (fun _ ↦ .pure _) fun _ ↦ .ite (fun _ ↦ ?_) fun _ ↦ fill_indexOnly env _ _ _
    exact .bind (discard_indexOnly (osPwrite_indexOnly env _ _ _)) fun _ ↦ fill_indexOnly env _ _ _
  · exact fill_indexOnly env _ _ _

theorem pagePoke_indexOnly (pg : PagedPage) (off : UInt64) : Within (IndexOnly P) (pagePoke pg off) :=
  .bind .get fun _ ↦ .ite (fun _ ↦ setPcache_indexOnly _ _) fun _ ↦ .pure _

theorem pageWriteback_indexOnly (pg : PagedPage) (off : UInt64) :
    Within (IndexOnly P) (pageWriteback env pg off) :=
  .bind .get fun _ ↦ .ite (fun _ ↦ setPcache_indexOnly _ _)
    fun _ ↦ discard_indexOnly (osPwrite_indexOnly env _ _ _)

theorem pageCacheInvalidate_indexOnly (off : UInt64) :
    Within (IndexOnly P) (pageCacheInvalidate env off) := by
  refine .bind .get fun fs ↦ ?_
  dsimp only
  split
  · refine .ite (fun _ ↦ .ite (fun _ ↦ ?_) fun _ ↦ setPcache_indexOnly _ _) fun _ ↦ .pure _
    exact .bind (discard_indexOnly (osPwrite_indexOnly env _ _ _))
      fun _ ↦ setPcache_indexOnly _ _
  · exact .pure _

theorem flushSlot_indexOnly (i : ℕ) : Within (IndexOnly P) (flushSlot env i) := by
  refine .bind .get fun fs ↦ ?_
  dsimp only
  split
  · exact .ite (fun _ ↦ .bind (discard_indexOnly (osPwrite_indexOnly env _ _ _))
      fun _ ↦ setPcache_indexOnly _ _) fun _ ↦ .pure _
  · exact .pure _

theorem pcacheFlushAll_indexOnly : Within (IndexOnly P) (pcacheFlushAll env) :=
  .forM _ fun i ↦ flushSlot_indexOnly env i

theorem pagedDirDouble_indexOnly : Within (IndexOnly P) (pagedDirDouble env) := by
  refine .bind (osAlloc_indexOnly env) fun _ ↦ .ite (fun _ ↦ ?_) fun _ ↦ .pure _
  exact .bind (.modify fun _ ↦ ⟨rfl, rfl, rfl, rfl, rfl, Spent.rfl, rfl, Passed.rfl, le_rfl, le_rfl⟩) fun _ ↦ .pure _

theorem recBuffer_indexOnly (len : ℕ) : Within (IndexOnly P) (recBuffer env len) :=
  .bind .get fun _ ↦ .ite (fun _ ↦ .pure _) fun _ ↦ .bind (osAlloc_indexOnly env)
    fun _ ↦ .ite (fun _ ↦ .pure _) fun _ ↦ .pure _

theorem writeRecord_indexOnly (key : Path) (val : List UInt8) :
    Within (IndexOnly P) (writeRecord env key val) := by
  refine .bind (pageAlloc_indexOnly env) fun _ ↦ .ite (fun _ ↦ .pure _) fun _ ↦
    .bind (recBuffer_indexOnly env _) fun r ↦ ?_
  cases r with
  | none => exact .pure _
  | some _ =>
    exact .bind (osPwrite_indexOnly env _ _ _) fun _ ↦ .ite (fun _ ↦ .pure _) fun _ ↦ .pure _

theorem ensureBucket_indexOnly (dirIdx : ℕ) : Within (IndexOnly P) (ensureBucket env dirIdx) := by
  refine .bind .get fun fs ↦ .ite (fun _ ↦ ?_) fun _ ↦ .pure _
  refine .bind (pageAlloc_indexOnly env) fun off ↦ .ite (fun _ ↦ .pure _) fun _ ↦ ?_
  refine .bind (.modify fun _ ↦ ⟨rfl, rfl, rfl, rfl, rfl, Spent.rfl, rfl, Passed.rfl, le_rfl, le_rfl⟩) fun _ ↦ ?_
  refine .bind (osPwrite_indexOnly env _ _ _) fun _ ↦ .ite (fun _ ↦ ?_) fun _ ↦ .pure _
  exact .bind (pageCacheInvalidate_indexOnly env _) fun _ ↦ .pure _

theorem addOverflow_indexOnly (pg : PagedPage) (curOff : UInt64) :
    Within (IndexOnly P) (addOverflow env pg curOff) := by
  refine .bind (pageAlloc_indexOnly env) fun off ↦ .ite (fun _ ↦ .pure _) fun _ ↦ ?_
  refine .bind (pageWriteback_indexOnly env _ _) fun _ ↦ .bind (osPwrite_indexOnly env _ _ _)
    fun _ ↦ .ite (fun _ ↦ ?_) fun _ ↦ .pure _
  exact .bind (pageCacheInvalidate_indexOnly env _) fun _ ↦ .pure _

theorem appendSlot_indexOnly (pg : PagedPage) (curOff h : UInt64) (key : Path)
    (val : List UInt8) : Within (IndexOnly P) (appendSlot env pg curOff h key val) := by
  refine .ite (fun _ ↦ .bind (pageWriteback_indexOnly env _ _) fun _ ↦ .pure _) fun _ ↦ ?_
  refine .bind (writeRecord_indexOnly env _ _) fun r ↦ ?_
  cases r with
  | error rc => exact .bind (pagePoke_indexOnly _ _) fun _ ↦ .pure _
  | ok off => exact .bind (pageWriteback_indexOnly env _ _) fun _ ↦ .pure _

theorem updateSlot_indexOnly (pg : PagedPage) (curOff : UInt64) (i : ℕ) (key : Path)
    (val : List UInt8) : Within (IndexOnly P) (updateSlot env pg curOff i key val) := by
  refine .ite (fun _ ↦ .bind (pageWriteback_indexOnly env _ _) fun _ ↦ .pure _) fun _ ↦
    .ite (fun _ ↦ ?_) fun _ ↦ .bind (writeRecord_indexOnly env _ _) fun r ↦ ?_
  · exact .bind (discard_indexOnly (osPwrite_indexOnly env _ _ _)) fun _ ↦
      .bind (pageWriteback_indexOnly env _ _) fun _ ↦ .pure _
  · cases r with
    | error rc => exact .pure _
    | ok off => exact .bind (pageWriteback_indexOnly env _ _) fun _ ↦ .pure _

theorem split_indexOnly {retry : FsM Rc} (hr : Within (IndexOnly P) retry) (pageOff : UInt64)
    (pg : PagedPage) : Within (IndexOnly P) (pageSplitAndRetry.split env retry pageOff pg) := by
  refine .bind (pageAlloc_indexOnly env) fun off ↦ .ite (fun _ ↦ .pure _) fun _ ↦ ?_
  refine .bind (.modify fun _ ↦ ⟨rfl, rfl, rfl, rfl, rfl, Spent.rfl, rfl, Passed.rfl, le_rfl, le_rfl⟩) fun _ ↦ ?_
  refine .bind (discard_indexOnly (osPwrite_indexOnly env _ _ _)) fun _ ↦ ?_
  exact .bind (pageCacheInvalidate_indexOnly env _) fun _ ↦
    .bind (pageWriteback_indexOnly env _ _) fun _ ↦ hr

theorem pageSplitAndRetry_indexOnly {retry : FsM Rc} (hr : Within (IndexOnly P) retry)
    (pageOff : UInt64) : Within (IndexOnly P) (pageSplitAndRetry env retry pageOff) := by
  refine .bind (pageLoad_indexOnly env _) fun r ↦ ?_
  cases r with
  | none => exact .pure _
  | some pg =>
    refine .bind .get fun fs ↦ .ite (fun _ ↦ .ite (fun _ ↦ .pure _) fun _ ↦ ?_)
      fun _ ↦ split_indexOnly env hr _ _
    refine .bind (pagedDirDouble_indexOnly env) fun _ ↦ .ite (fun _ ↦ ?_) fun _ ↦ .pure _
    refine .bind (pageLoad_indexOnly env _) fun r ↦ ?_
    cases r with
    | none => exact .pure _
    | some pg => exact split_indexOnly env hr _ _

theorem putWalk_indexOnly {retry : FsM Rc} (hr : Within (IndexOnly P) retry) (h : UInt64)
    (key : Path) (val : List UInt8) (n : ℕ) (curOff : UInt64) :
    Within (IndexOnly P) (putWalk env retry h key val n curOff) := by
  induction n generalizing curOff with
  | zero => exact .diverge
  | succ n ih =>
    rw [putWalk]
    refine .ite (fun _ ↦ .pure _) fun _ ↦ .bind (pageLoad_indexOnly env _) fun r ↦ ?_
    cases r with
    | none => exact .pure _
    | some pg =>
      dsimp only
      split
      · exact updateSlot_indexOnly env _ _ _ _ _
      · refine .ite (fun _ ↦ .ite (fun _ ↦ ?_) fun _ ↦ ih _) fun _ ↦
          appendSlot_indexOnly env _ _ _ _ _
        refine .bind (addOverflow_indexOnly env _ _) fun r ↦ ?_
        split
        · exact pageSplitAndRetry_indexOnly env hr _
        · exact .pure _
        · exact ih _

theorem notePassed_indexOnly {val : List UInt8} (hv : P val) :
    Within (IndexOnly P) (notePassed val) :=
  .modify fun _ ↦ ⟨rfl, rfl, rfl, rfl, rfl, Spent.rfl, rfl, .cons hv, le_rfl, le_rfl⟩

theorem pagedPutN_indexOnly (n : ℕ) (key : Path) {val : List UInt8} (hv : P val) :
    Within (IndexOnly P) (pagedPutN env n key val) := by
  induction n with
  | zero => exact .diverge
  | succ n ih =>
    rw [pagedPutN]
    refine .bind (notePassed_indexOnly hv) fun _ ↦
      .bind .get fun fs ↦ .bind (ensureBucket_indexOnly env _) fun rc ↦ ?_
    split
    · exact .bind .get fun _ ↦ putWalk_indexOnly env ih _ _ _ _ _
    · exact .pure _

theorem pagedPut_indexOnly (key : Path) {val : List UInt8} (hv : P val) :
    Within (IndexOnly P) (pagedPut env key val) :=
  pagedPutN_indexOnly env _ key hv

theorem insertWalk_indexOnly (h : UInt64) (key : Path) {val : List UInt8} (hv : P val) (n : ℕ)
    (curOff : UInt64) : Within (IndexOnly P) (insertWalk env h key val n curOff) := by
  induction n generalizing curOff with
  | zero => exact .diverge
  | succ n ih =>
    rw [insertWalk]
    refine .ite (fun _ ↦ .pure _) fun _ ↦ .bind (pageLoad_indexOnly env _) fun r ↦ ?_
    cases r with
    | none => exact .pure _
    | some pg =>
      refine .ite (fun _ ↦ .ite (fun _ ↦ ?_) fun _ ↦ ih _) fun _ ↦
        appendSlot_indexOnly env _ _ _ _ _
      refine .bind (addOverflow_indexOnly env _ _) fun r ↦ ?_
      split
      · exact pageSplitAndRetry_indexOnly env (pagedPut_indexOnly env _ hv) _
      · exact .pure _
      · exact ih _

theorem pagedInsert_indexOnly (key : Path) {val : List UInt8} (hv : P val) :
    Within (IndexOnly P) (pagedInsert env key val) := by
  refine .bind (notePassed_indexOnly hv) fun _ ↦
    .bind .get fun fs ↦ .bind (ensureBucket_indexOnly env _) fun rc ↦ ?_
  split
  · exact .bind .get fun _ ↦ insertWalk_indexOnly env _ _ hv _ _
  · exact .pure _

theorem getSlot_indexOnly (pg : PagedPage) (h : UInt64) (key : Path) (cap i : ℕ) :
    Within (IndexOnly P) (getSlot env pg h key cap i) := by
  refine .ite (fun _ ↦ .pure _) fun _ ↦ .ite (fun _ ↦ ?_) fun _ ↦
    .bind (recBuffer_indexOnly env _) fun r ↦ ?_
  · exact .ite (fun _ ↦ .pure _) fun _ ↦ .ite (fun _ ↦ .pure _) fun _ ↦ .pure _
  · cases r with
    | none => exact .pure _
    | some buf =>
      refine .bind (osPread_indexOnly env _ _ _) fun r ↦ ?_
      cases r with
      | none => exact .pure _
      | some p => exact .ite (fun _ ↦ .pure _) fun _ ↦ .ite (fun _ ↦ .pure _) fun _ ↦ .pure _

theorem getScan_indexOnly (pg : PagedPage) (h : UInt64) (key : Path) (cap : ℕ) (l : List ℕ) :
    Within (IndexOnly P) (getScan env pg h key cap l) := by
  induction l with
  | nil => exact .pure _
  | cons i rest ih =>
    refine .bind (getSlot_indexOnly env _ _ _ _ _) fun r ↦ ?_
    cases r with
    | none => exact ih
    | some r => exact .pure _

theorem getWalk_indexOnly (h : UInt64) (key : Path) (cap n : ℕ) (curOff : UInt64) :
    Within (IndexOnly P) (getWalk env h key cap n curOff) := by
  induction n generalizing curOff with
  | zero => exact .diverge
  | succ n ih =>
    rw [getWalk]
    refine .ite (fun _ ↦ .pure _) fun _ ↦ .bind (pageLoad_indexOnly env _) fun r ↦ ?_
    cases r with
    | none => exact .pure _
    | some pg =>
      refine .bind (getScan_indexOnly env _ _ _ _ _) fun r ↦ ?_
      cases r with
      | none => exact ih _
      | some r => exact .pure _

theorem pagedGet_indexOnly (key : Path) (cap : ℕ) : Within (IndexOnly P) (pagedGet env key cap) :=
  .bind .get fun _ ↦ .ite (fun _ ↦ getWalk_indexOnly env _ _ _ _ _) fun _ ↦ .pure _

theorem delWalk_indexOnly (h : UInt64) (key : Path) (n : ℕ) (curOff : UInt64) :
    Within (IndexOnly P) (delWalk env h key n curOff) := by
  induction n generalizing curOff with
  | zero => exact .diverge
  | succ n ih =>
    rw [delWalk]
    refine .ite (fun _ ↦ .pure _) fun _ ↦ .bind (pageLoad_indexOnly env _) fun r ↦ ?_
    cases r with
    | none => exact .pure _
    | some pg =>
      dsimp only
      split
      · exact .bind (pageWriteback_indexOnly env _ _) fun _ ↦ .pure _
      · exact ih _

theorem pagedDel_indexOnly (key : Path) : Within (IndexOnly P) (pagedDel env key) :=
  .bind .get fun _ ↦ .ite (fun _ ↦ delWalk_indexOnly env _ _ _ _) fun _ ↦ .pure _

end Xxfs.Frames

import Xxfs.PageStore
import Xxfs.Volume

namespace Xxfs.PageStore

open Function
open Xxfs.DiskFormat Xxfs.Machine Xxfs.PageCache Xxfs.Volume Xxfs.Lib.Computation
open Xxfs.Lib.Computation.Comp

section flush

variable {env : Env} (he : Healthy env) {fs : Fs} {ps : List UInt64}

def PageClean (c : PagedCache) : Prop := c.page ≠ none → c.dirty = false

theorem flushed_page (hk : PagesOk fs ps) {i : ℕ} {pg : PagedPage}
    (hp : (fs.pcache i).page = some pg) (t : ℕ) :
    let fs' : Fs := { fs with
      img := fs.img.write pg.encode pageSize (fs.pcache i).pageOff.toNat
      pcache := fun j ↦ if j = i then { fs.pcache i with dirty := false } else fs.pcache j
      clock := t }
    PagesOk fs' ps ∧ Quiet ps fs fs' := by
  intro fs'
  have hu := hk.usable _ (hk.mem i pg hp)
  have hpage (j : ℕ) : (fs'.pcache j).page = (fs.pcache j).page ∧
      (fs'.pcache j).pageOff = (fs.pcache j).pageOff := by
    simp only [fs']
    split
    · rename_i hj
      rw [hj]
      exact ⟨rfl, rfl⟩
    · exact ⟨rfl, rfl⟩
  have hdisk {o : UInt64} (ho : o ∈ ps) (hne : o ≠ (fs.pcache i).pageOff) :
      diskPage fs'.img o = diskPage fs.img o :=
    diskPage_congr _ fun j hj ↦ write_outBlock _ _ le_rfl ((hk.usable o ho).disjoint hu hne hj)
  refine ⟨⟨hk.usable, fun j pg' hj ↦ ?_, fun j pg' hj ↦ ?_, fun j pg' hj hd ↦ ?_⟩, rfl, rfl,
    fun o ho ↦ ?_, fun j hj ↦ write_outBlock _ _ le_rfl (hj _ (hk.mem i pg hp)), Image.write_size _ _ _ _⟩
  · rw [(hpage j).1] at hj
    rw [(hpage j).2]
    exact hk.mem j pg' hj
  · rw [(hpage j).1] at hj
    rw [(hpage j).2]
    exact hk.slot j pg' hj
  · rw [(hpage j).1] at hj
    rw [(hpage j).2]
    by_cases hji : j = i
    · subst hji
      rw [Option.some.inj (hj.symm.trans hp)]
      exact diskPage_write _ _ _
    · simp only [fs', hji, ↓reduceIte] at hd
      rw [hdisk (hk.mem j pg' hj), hk.clean j pg' hj hd]
      intro hoff
      exact hji (by rw [← hk.slot j pg' hj, hoff, hk.slot i pg hp])
  · rw [pageAt, pageAt, (hpage _).1, (hpage _).2]
    have hmiss (hno : ∀ pg', (fs.pcache (pcIndex o)).page = some pg' →
        (fs.pcache (pcIndex o)).pageOff ≠ o) : diskPage fs'.img o = diskPage fs.img o := by
      refine hdisk ho fun hoff ↦ ?_
      have hi : pcIndex o = i := by rw [hoff, hk.slot i pg hp]
      exact hno pg (by rw [hi, hp]) (by rw [hi, hoff])
    cases hc : (fs.pcache (pcIndex o)).page with
    | none =>
      dsimp only
      rw [hmiss fun pg' h' ↦ by rw [hc] at h'; cases h']
    | some pg' =>
      dsimp only
      split
      · rfl
      · rename_i hoff
        rw [hmiss fun _ _ ↦ hoff]

include he

theorem flushSlot_apply (hk : PagesOk fs ps) (i : ℕ) : ∃ fs',
    flushSlot env i fs = some ((), fs') ∧ PagesOk fs' ps ∧ Quiet ps fs fs' ∧
      PageClean (fs'.pcache i) ∧ ∀ j, PageClean (fs.pcache j) → PageClean (fs'.pcache j) := by
  cases hp : (fs.pcache i).page with
  | none =>
    refine ⟨fs, ?_, hk, refl_of (Quiet ps) fs, fun hc ↦ (hc hp).elim, fun _ ↦ id⟩
    simp only [flushSlot, bind_apply, get_apply, Option.bind_some, hp, pure_apply]
  | some pg =>
    cases hd : (fs.pcache i).dirty with
    | false =>
      refine ⟨fs, ?_, hk, refl_of (Quiet ps) fs, fun _ ↦ hd, fun _ ↦ id⟩
      simp only [flushSlot, bind_apply, get_apply, Option.bind_some, hp, hd, Bool.false_eq_true,
        ↓reduceIte, pure_apply]
    | true =>
      obtain ⟨hok, hq⟩ := flushed_page hk hp (fs.clock + 1)
      have hb := (hk.usable _ (hk.mem i pg hp)).bound
      refine ⟨_, ?_, hok, hq, fun _ ↦ by simp only [↓reduceIte], fun j hj ↦ ?_⟩
      · simp only [flushSlot, bind_apply, get_apply, Option.bind_some, hp, hd, ↓reduceIte,
          discard_apply]
        rw [he.osPwrite_apply _ _ _ (by omega)]
        simp only [Option.bind_some, setPcache, modify_apply]
      · dsimp only
        split
        · exact fun _ ↦ rfl
        · exact hj

theorem pcacheFlush_apply (hk : PagesOk fs ps) (l : List ℕ) : ∃ fs',
    l.forM (flushSlot env) fs = some ((), fs') ∧ PagesOk fs' ps ∧ Quiet ps fs fs' ∧
      (∀ i ∈ l, PageClean (fs'.pcache i)) ∧
      ∀ j, PageClean (fs.pcache j) → PageClean (fs'.pcache j) := by
  induction l generalizing fs with
  | nil => exact ⟨fs, rfl, hk, refl_of (Quiet ps) fs, by simp, fun _ ↦ id⟩
  | cons i l ih =>
    obtain ⟨fs₁, hstep, hk₁, hq₁, hi, hmono⟩ := flushSlot_apply he hk i
    obtain ⟨fs₂, hrest, hk₂, hq₂, hl, hmono'⟩ := ih hk₁
    refine ⟨fs₂, ?_, hk₂, trans_of (Quiet ps) hq₁ hq₂, fun j hj ↦ ?_,
      fun j hj ↦ hmono' j (hmono j hj)⟩
    · rw [forM_cons_apply, hstep]
      exact hrest
    · rcases List.mem_cons.mp hj with rfl | hj
      · exact hmono' j hi
      · exact hl j hj

end flush

section invalidate

variable {env : Env} {fs : Fs} {ps : List UInt64}

/-- The slot of the page is emptied after the page, if dirty, has been stored. -/
theorem emptied_slot (hk : PagesOk fs ps) (off : UInt64) (img : Image) (clock : ℕ)
    (hdata : ∀ i, (∀ pg, (fs.pcache (pcIndex off)).page = some pg →
      (fs.pcache (pcIndex off)).dirty = true →
      ¬InBlock (fs.pcache (pcIndex off)).pageOff i) → img.data i = fs.img.data i)
    (hstored : ∀ pg, (fs.pcache (pcIndex off)).page = some pg →
      (fs.pcache (pcIndex off)).dirty = true →
      diskPage img (fs.pcache (pcIndex off)).pageOff = pg) (hsize : fs.img.size ≤ img.size) :
    let fs' : Fs := { fs with
      img := img
      pcache := fun i ↦ if i = pcIndex off then ⟨0, none, false⟩ else fs.pcache i
      clock := clock }
    PagesOk fs' ps ∧ Quiet ps fs fs' := by
  intro fs'
  have hother (i : ℕ) (pg : PagedPage) (h : (fs'.pcache i).page = some pg) : i ≠ pcIndex off ∧
      (fs.pcache i).page = some pg ∧ fs'.pcache i = fs.pcache i := by
    simp only [fs'] at h ⊢
    split at h
    · cases h
    · rename_i hi
      exact ⟨hi, h, if_neg hi⟩
  refine ⟨⟨hk.usable, fun i pg h ↦ ?_, fun i pg h ↦ ?_, fun i pg h hd ↦ ?_⟩, rfl, rfl,
    fun o ho ↦ pageAt_emptied fs fs' hk rfl rfl hdata hstored ho,
    fun i hi ↦ hdata i fun pg hpg _ ↦ hi _ (hk.mem _ pg hpg), hsize⟩
  · obtain ⟨-, hp, hsame⟩ := hother i pg h
    rw [hsame]
    exact hk.mem i pg hp
  · obtain ⟨-, hp, hsame⟩ := hother i pg h
    rw [hsame]
    exact hk.slot i pg hp
  · obtain ⟨hne, hp, hsame⟩ := hother i pg h
    rw [hsame] at hd ⊢
    rw [← hk.clean i pg hp hd]
    refine diskPage_congr _ fun j hj ↦ hdata j fun pg' hpg' _ ↦ ?_
    refine (hk.usable _ (hk.mem i pg hp)).disjoint (hk.usable _ (hk.mem _ pg' hpg')) ?_ hj
    intro heq
    exact hne (by rw [← hk.slot i pg hp, heq, hk.slot _ pg' hpg'])

theorem pageCacheInvalidate_apply (he : Healthy env) (hk : PagesOk fs ps) (off : UInt64) : ∃ fs',
    pageCacheInvalidate env off fs = some ((), fs') ∧ PagesOk fs' ps ∧ Quiet ps fs fs' := by
  cases hp : (fs.pcache (pcIndex off)).page with
  | none =>
    refine ⟨fs, ?_, hk, refl_of (Quiet ps) fs⟩
    simp only [pageCacheInvalidate, bind_apply, get_apply, Option.bind_some, hp, pure_apply]
  | some pg =>
    by_cases hoff : (fs.pcache (pcIndex off)).pageOff = off
    · cases hd : (fs.pcache (pcIndex off)).dirty with
      | false =>
        obtain ⟨hok, hq⟩ := emptied_slot hk off fs.img fs.clock (fun _ _ ↦ rfl)
          (by simp [hd]) le_rfl
        refine ⟨_, ?_, hok, hq⟩
        simp only [pageCacheInvalidate, bind_apply, get_apply, Option.bind_some, hp, hoff, hd,
          Bool.false_eq_true, ↓reduceIte, setPcache, modify_apply]
      | true =>
        have hb := (hk.usable _ (hk.mem _ pg hp)).bound
        obtain ⟨hok, hq⟩ := emptied_slot hk off
          (fs.img.write pg.encode pageSize (fs.pcache (pcIndex off)).pageOff.toNat) (fs.clock + 1)
          (fun i hi ↦ write_outBlock _ _ le_rfl (hi pg hp hd))
          (fun pg' hpg' _ ↦ by
            obtain rfl : pg = pg' := Option.some.inj (hp.symm.trans hpg')
            exact diskPage_write _ _ _) (Image.write_size _ _ _ _)
        refine ⟨_, ?_, hok, hq⟩
        rw [hoff] at hb ⊢
        simp only [pageCacheInvalidate, bind_apply, get_apply, Option.bind_some, hp, hoff, hd,
          ↓reduceIte, discard_apply]
        rw [he.osPwrite_apply _ _ _ (by omega)]
        rfl
    · refine ⟨fs, ?_, hk, refl_of (Quiet ps) fs⟩
      simp only [pageCacheInvalidate, bind_apply, get_apply, Option.bind_some, hp, hoff,
        ↓reduceIte, pure_apply]

end invalidate

/-- What is done with the page cache. -/
inductive PageOp
  | load (off : UInt64)
  | modify (off : UInt64) (f : PagedPage → PagedPage)
  | invalidate (off : UInt64)
  | flush

def PageOp.block : PageOp → Option UInt64
  | .load off => some off
  | .modify off _ => some off
  | .invalidate off => some off
  | .flush => none

/-- `modify` changes the page that `page_load` returned and then calls `page_writeback`. -/
def PageOp.run (env : Env) : PageOp → FsM Unit
  | .load off => discard (pageLoad env off)
  | .modify off f => do
    match ← pageLoad env off with
    | none => return ()
    | some pg => pageWriteback env (f pg) off
  | .invalidate off => pageCacheInvalidate env off
  | .flush => pcacheFlushAll env

def runOps (env : Env) : List PageOp → FsM Unit
  | [] => pure ()
  | op :: ops => do
    op.run env
    runOps env ops

def PageOp.apply (mem : UInt64 → PagedPage) : PageOp → UInt64 → PagedPage
  | .modify off f => update mem off (f (mem off))
  | _ => mem

section runs

variable {env : Env} (he : Healthy env) {fs : Fs} {ps : List UInt64} {mem : UInt64 → PagedPage}
include he

/-- One operation does to the pages seen through the cache what it does without a cache. -/
theorem PageOp.run_apply (hk : PagesOk fs ps) (hmem : ∀ o ∈ ps, pageAt fs o = mem o) {op : PageOp}
    (hb : ∀ o, op.block = some o → o ∈ ps) : ∃ fs', op.run env fs = some ((), fs') ∧
      PagesOk fs' ps ∧ ∀ o ∈ ps, pageAt fs' o = op.apply mem o := by
  cases op with
  | load off =>
    obtain ⟨fs', hload, hk', hq⟩ := pageLoad_apply he hk (hb off rfl)
    refine ⟨fs', ?_, hk', fun o ho ↦ (hq.pages o ho).trans (hmem o ho)⟩
    rw [PageOp.run, discard_apply, hload]
    rfl
  | modify off f =>
    have ho := hb off rfl
    obtain ⟨fs₁, hload, hk₁, hq⟩ := pageLoad_apply he hk ho
    obtain ⟨fs', hwb, hk', hs⟩ := pageWriteback_apply he hk₁ ho (f (pageAt fs off))
    refine ⟨fs', ?_, hk', fun o ho' ↦ ?_⟩
    · rw [PageOp.run, bind_apply, hload]
      exact hwb
    · by_cases hoff : o = off
      · rw [hoff, hs.page, PageOp.apply, update_self, hmem off ho]
      · rw [hs.pages o ho' hoff, hq.pages o ho', hmem o ho', PageOp.apply, update_of_ne hoff]
  | invalidate off =>
    obtain ⟨fs', hinv, hk', hq⟩ := pageCacheInvalidate_apply he hk off
    exact ⟨fs', hinv, hk', fun o ho ↦ (hq.pages o ho).trans (hmem o ho)⟩
  | flush =>
    obtain ⟨fs', hflush, hk', hq, -, -⟩ := pcacheFlush_apply he hk (List.range pcacheSize)
    exact ⟨fs', hflush, hk', fun o ho ↦ (hq.pages o ho).trans (hmem o ho)⟩

theorem runOps_apply {ops : List PageOp} (hk : PagesOk fs ps)
    (hmem : ∀ o ∈ ps, pageAt fs o = mem o) (hb : ∀ op ∈ ops, ∀ o, op.block = some o → o ∈ ps) :
    ∃ fs', runOps env ops fs = some ((), fs') ∧ PagesOk fs' ps ∧
      ∀ o ∈ ps, pageAt fs' o = ops.foldl PageOp.apply mem o := by
  induction ops generalizing fs mem with
  | nil => exact ⟨fs, rfl, hk, hmem⟩
  | cons op ops ih =>
    obtain ⟨fs₁, hop, hk₁, hmem₁⟩ := PageOp.run_apply he hk hmem (hb op List.mem_cons_self)
    obtain ⟨fs', hrest, hk', hmem'⟩ := ih hk₁ hmem₁ fun x hx ↦ hb x (List.mem_cons_of_mem _ hx)
    refine ⟨fs', ?_, hk', hmem'⟩
    rw [runOps, bind_apply, hop]
    exact hrest

end runs

section transparent

variable {env : Env} (he : Healthy env) {fs : Fs} (hempty : ∀ i, (fs.pcache i).page = none)

/-- The blocks that the operations and one more look-up touch. -/
def touched (off : UInt64) (ops : List PageOp) : List UInt64 := off :: ops.filterMap PageOp.block

theorem pagesOk_empty {ps : List UInt64} (hempty : ∀ i, (fs.pcache i).page = none)
    (hu : ∀ o ∈ ps, Usable o) : PagesOk fs ps :=
  ⟨hu, fun i pg h ↦ by simp [hempty] at h, fun i pg h ↦ by simp [hempty] at h,
    fun i pg h ↦ by simp [hempty] at h⟩

theorem pcIndex_lt (off : UInt64) : pcIndex off < pcacheSize := by
  have hle : (off >>> 12).toNat &&& 4095 ≤ 4095 := Nat.and_le_right
  rw [pcIndex, UInt64.toNat_and]
  exact Nat.lt_succ_of_le hle

theorem PagesOk.onDisk {ps : List UInt64} (hk : PagesOk fs ps) {off : UInt64}
    (hc : PageClean (fs.pcache (pcIndex off))) : diskPage fs.img off = pageAt fs off := by
  cases hp : (fs.pcache (pcIndex off)).page with
  | none => rw [pageAt_of_absent fs (by simp [hp])]
  | some pg =>
    by_cases hoff : (fs.pcache (pcIndex off)).pageOff = off
    · have hdisk := hk.clean _ pg hp (hc (by simp [hp]))
      rw [hoff] at hdisk
      rw [pageAt_of_cached fs hp hoff, hdisk]
    · rw [pageAt_of_absent fs fun _ _ ↦ hoff]

include he hempty

theorem runOps_empty {ops : List PageOp} (hu : ∀ op ∈ ops, ∀ o, op.block = some o → Usable o)
    {off : UInt64} (ho : Usable off) : ∃ fs', runOps env ops fs = some ((), fs') ∧
      PagesOk fs' (touched off ops) ∧
      pageAt fs' off = ops.foldl PageOp.apply (diskPage fs.img) off := by
  have husable : ∀ o ∈ touched off ops, Usable o := by
    intro o hmem
    rcases List.mem_cons.mp hmem with rfl | hmem
    · exact ho
    · obtain ⟨op, hop, hb⟩ := List.mem_filterMap.mp hmem
      exact hu op hop o hb
  obtain ⟨fs', hrun, hk, hmem⟩ := runOps_apply he (pagesOk_empty hempty husable)
    (fun o _ ↦ pageAt_of_absent fs (by simp [hempty]))
    (fun op hop o hb ↦ List.mem_cons_of_mem _ (List.mem_filterMap.mpr ⟨op, hop, hb⟩))
  exact ⟨fs', hrun, hk, hmem off List.mem_cons_self⟩

/-- The page cache is transparent: after any operations `page_load` returns what was last
written back or what the image held, and a flush brings it to the image. -/
theorem cache_transparent {ops : List PageOp}
    (hu : ∀ op ∈ ops, ∀ o, op.block = some o → Usable o) :
    ∃ fs', runOps env ops fs = some ((), fs') ∧
      (∀ off, Usable off → ∃ fs'', pageLoad env off fs' =
        some (some (ops.foldl PageOp.apply (diskPage fs.img) off), fs'')) ∧
      ∃ fs'', pcacheFlushAll env fs' = some ((), fs'') ∧ ∀ off, Usable off → ∀ i < 4096,
        fs''.img.data (off.toNat + i) =
          (ops.foldl PageOp.apply (diskPage fs.img) off).encode i := by
  have hzero : Usable 0 := ⟨by decide, by decide⟩
  obtain ⟨fs', hrun, hk, -⟩ := runOps_empty he hempty hu hzero
  obtain ⟨fs'', hflush, -, -, -, -⟩ := pcacheFlush_apply he hk (List.range pcacheSize)
  refine ⟨fs', hrun, fun off ho ↦ ?_, fs'', hflush, fun off ho i hi ↦ ?_⟩
  all_goals
    obtain ⟨fs₁, hrun₁, hk₁, hpage⟩ := runOps_empty he hempty hu ho
    obtain ⟨-, rfl⟩ := Prod.mk.inj (Option.some.inj (hrun₁.symm.trans hrun))
  · obtain ⟨fs₂, hload, -, -⟩ := pageLoad_apply he hk₁ (show off ∈ touched off ops from
      List.mem_cons_self)
    exact ⟨fs₂, by rw [hload, hpage]⟩
  · obtain ⟨fs₂, hflush₂, hk₂, hq, hclean, -⟩ := pcacheFlush_apply he hk₁ (List.range pcacheSize)
    obtain ⟨-, rfl⟩ := Prod.mk.inj (Option.some.inj (hflush₂.symm.trans hflush))
    have hdisk := hk₂.onDisk (hclean _ (List.mem_range.mpr (pcIndex_lt off)))
    rw [hq.pages off List.mem_cons_self, hpage] at hdisk
    rw [← hdisk, diskPage, PagedPage.encode_decode _ hi]

end transparent

/-- Changes of two blocks that share a slot of the cache. -/
def sharing : List PageOp :=
  [.modify 4096 fun pg ↦ { pg with count := 1 }, .modify 16781312 fun pg ↦ { pg with count := 2 },
    .load 4096]

theorem sharing_transparent : ∃ fs', runOps steady sharing (blank emptyImage 0 0) = some ((), fs') ∧
    (∀ off, Usable off → ∃ fs'', pageLoad steady off fs' =
      some (some (sharing.foldl PageOp.apply (diskPage emptyImage) off), fs'')) ∧
    ∃ fs'', pcacheFlushAll steady fs' = some ((), fs'') ∧ ∀ off, Usable off → ∀ i < 4096,
      fs''.img.data (off.toNat + i) =
        (sharing.foldl PageOp.apply (diskPage emptyImage) off).encode i := by
  have hempty : ∀ i, ((blank emptyImage 0 0).pcache i).page = none := fun _ ↦ rfl
  refine cache_transparent steady_healthy hempty ?_
  intro op hop o hb
  simp only [sharing, List.mem_cons, List.not_mem_nil, or_false] at hop
  rcases hop with rfl | rfl | rfl <;> obtain rfl := Option.some.inj hb <;>
    exact ⟨by decide, by decide⟩

end Xxfs.PageStore

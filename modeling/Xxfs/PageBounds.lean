import Xxfs.FreshIndex
import Xxfs.PageSpecs

namespace Xxfs.PageNotes

open Xxfs.DiskFormat Xxfs.Machine Xxfs.Allocator Xxfs.PageCache Xxfs.PagedIndex Xxfs.PageStore
open Xxfs.Hash Xxfs.IndexRep Xxfs.IndexAlloc Xxfs.PageShape Xxfs.Volume Xxfs.FreshVolume
open Xxfs.FreshIndex Xxfs.Lib.Computation Xxfs.Lib.Computation.Comp
open Xxfs.Lib.Computation.Noting

section steps

variable {env : Env} {alloc : FsM UInt64} (hio : ∀ n, env.io n = true)
variable (halloc : Within Kept alloc)

section walks

variable {out : Option Rc} {key : Path} {val : List UInt8}

theorem cutOff_spec (out : Option Rc) {A : List Event → Fs → Prop} :
    Triple FreshBlocks A (cutOff out) fun _ ↦ A := by
  cases out with
  | none => exact .diverge
  | some rc => exact .pure fun _ _ _ h ↦ h

variable (hfit : recLen key.length val.length ≤ 4096)
variable {split : UInt64 → Noted Rc} (hsplit : ∀ o, Triple FreshBlocks
  (fun w fs ↦ Inv w fs ∧ Page w o) (split o) fun _ ↦ Inv)

/-- A walk goes on at an offset that is 0 or one of a page. -/
def Walks (go : UInt64 → Noted Rc) : Prop := ∀ o, Triple FreshBlocks
  (fun w fs ↦ Inv w fs ∧ (o ≠ 0 → Page w o)) (go o) fun _ ↦ Inv

include hio in
theorem visit_spec {curOff : UInt64} {rc : Rc} {visit : PagedPage → Noted Rc}
    (hv : ∀ pg, Triple FreshBlocks (fun w fs ↦ Inv w fs ∧ Holds pg curOff w) (visit pg)
      fun _ ↦ Inv) :
    Triple FreshBlocks (fun w fs ↦ Inv w fs ∧ (curOff ≠ 0 → Page w curOff))
      (if curOff = 0 then return rc
      else do
        match ← loadPage env curOff with
        | none => return .eio
        | some pg => visit pg) fun _ ↦ Inv := by
  refine .ite (fun _ ↦ .pure fun _ _ _ h ↦ h.1) fun h0 ↦ .bind FreshBlocks.earlier
    ((loadPage_spec hio curOff).mono (fun _ _ h ↦ ⟨h.1, h.2 h0⟩) fun _ _ _ h ↦ h) fun r ↦ ?_
  cases r with
  | none => exact .pure fun _ _ _ h ↦ h.1
  | some pg => exact (hv pg).mono (fun _ _ h ↦ ⟨h.1, h.2.2 pg rfl⟩) fun _ _ _ h ↦ h

include hio halloc hsplit in
/-- A full page hands the walk on to the next one, which it may have to add. -/
theorem full_spec {go : UInt64 → Noted Rc} (hgo : Walks go) (pg : PagedPage) (curOff : UInt64) :
    Triple FreshBlocks (fun w fs ↦ Inv w fs ∧ Holds pg curOff w)
      (if pg.overflowNext = 0 then do
        match ← addOverflowNoted env alloc pg curOff with
        | none => split curOff
        | some (.error rc) => return rc
        | some (.ok off) => go off
      else go pg.overflowNext) fun _ ↦ Inv := by
  refine .ite (fun _ ↦ .bind FreshBlocks.earlier (addOverflow_spec hio halloc pg curOff)
    fun r ↦ ?_) fun _ ↦ (hgo pg.overflowNext).mono
      (fun _ _ h ↦ ⟨h.1, h.2.sound.next.resolve_left⟩) fun _ _ _ h ↦ h
  cases r with
  | none => exact (hsplit curOff).mono (fun _ _ h ↦ ⟨h.1, h.2.1.page⟩) fun _ _ _ h ↦ h
  | some r =>
    cases r with
    | error rc => exact .pure fun _ _ _ h ↦ h.1
    | ok off => exact (hgo off).mono (fun _ _ h ↦ ⟨h.1, fun _ ↦ h.2.2 off rfl⟩) fun _ _ _ h ↦ h

theorem scan_spec (pg : PagedPage) (curOff h : UInt64) (key : Path)
    {found : ℕ → Noted Rc} {missed : Noted Rc}
    (hfound : ∀ i < pg.count.toNat, slotMatches (pg.slot i) h key = true →
      Triple FreshBlocks (fun w fs ↦ Inv w fs ∧ Holds pg curOff w) (found i) fun _ ↦ Inv)
    (hmissed : Triple FreshBlocks (fun w fs ↦ Inv w fs ∧ Holds pg curOff w) missed fun _ ↦ Inv) :
    Triple FreshBlocks (fun w fs ↦ Inv w fs ∧ Holds pg curOff w)
      (do
        match ← findSlotNoted pg h key (List.range pg.count.toNat) with
        | some i => found i
        | none => missed) fun _ ↦ Inv := by
  refine .fix fun w₀ ↦ .given (p := Holds pg curOff w₀)
    (A := fun w fs ↦ Inv w fs ∧ Holds pg curOff w) (fun w fs h ↦ ⟨h.1 ▸ h.2.2, h.2⟩) fun hheld ↦
    .bind FreshBlocks.earlier (findSlot_spec (inv_stable.and (holds_stable pg curOff)) pg h key
      fun i hi ↦ (List.mem_range.mp hi).trans_le hheld.sound.count) fun r ↦ ?_
  cases r with
  | none => exact hmissed.mono (fun _ _ h ↦ h.1) fun _ _ _ h ↦ h
  | some i =>
    refine .given (p := i < pg.count.toNat ∧ slotMatches (pg.slot i) h key = true)
      (A := fun w fs ↦ Inv w fs ∧ Holds pg curOff w)
      (fun w fs h ↦ ⟨⟨List.mem_range.mp (h.2 i rfl).1, (h.2 i rfl).2⟩, h.1⟩) fun hi ↦ ?_
    exact hfound i hi.1 hi.2

include hio halloc hfit hsplit

theorem putWalk_spec (h : UInt64) (n : ℕ) :
    Walks (putWalkNoted env alloc out split h key val n) := by
  induction n with
  | zero => exact fun _ ↦ (cutOff_spec out).mono (fun _ _ h ↦ h.1) fun _ _ _ h ↦ h
  | succ n ih =>
    intro curOff
    rw [putWalkNoted]
    exact visit_spec hio fun pg ↦ scan_spec pg curOff h key
      (fun i hi hm ↦ updateSlot_spec hio halloc hfit hi hm curOff)
      (.ite (fun _ ↦ full_spec hio halloc hsplit ih pg curOff)
        fun hroom ↦ appendSlot_spec hio halloc hfit (Nat.lt_of_not_le hroom) curOff h)

theorem insertWalk_spec (h : UInt64) (n : ℕ) :
    Walks (insertWalkNoted env alloc out split h key val n) := by
  induction n with
  | zero => exact fun _ ↦ (cutOff_spec out).mono (fun _ _ h ↦ h.1) fun _ _ _ h ↦ h
  | succ n ih =>
    intro curOff
    rw [insertWalkNoted]
    exact visit_spec hio fun pg ↦ .ite (fun _ ↦ full_spec hio halloc hsplit ih pg curOff)
      fun hroom ↦ appendSlot_spec hio halloc hfit (Nat.lt_of_not_le hroom) curOff h

end walks

section calls

variable (out : Option Rc) (walk : ℕ) {key : Path} {val : List UInt8}

theorem notePassed_spec (val : List UInt8) :
    Triple FreshBlocks Inv (liftM (notePassed val)) fun _ ↦ Inv :=
  .lift fun w fs _ fs' _ h hrun ↦ by
    obtain ⟨-, rfl⟩ := Prod.mk.inj (Option.some.inj hrun)
    exact h.same rfl rfl rfl

include hio in
theorem delWalk_spec (h : UInt64) (key : Path) (n : ℕ) : Walks (delWalkNoted env out h key n) := by
  induction n with
  | zero => exact fun _ ↦ (cutOff_spec out).mono (fun _ _ h ↦ h.1) fun _ _ _ h ↦ h
  | succ n ih =>
    intro curOff
    rw [delWalkNoted]
    refine visit_spec hio fun pg ↦ scan_spec pg curOff h key (fun i hi _ ↦ ?_)
      ((ih pg.overflowNext).mono (fun _ _ h ↦ ⟨h.1, h.2.sound.next.resolve_left⟩) fun _ _ _ h ↦ h)
    have hstable := inv_stable.and (holds_stable pg curOff)
    have hend : Triple FreshBlocks (fun w fs ↦ Inv w fs ∧ Holds pg curOff w)
        (do
          pageWriteback env (removeSlot pg i) curOff
          return .ok : Noted Rc) fun _ ↦ Inv :=
      .bind FreshBlocks.earlier (B := fun _ ↦ Inv) (.lift fun w fs _ fs' hF h hrun ↦
        h.1.writeback hio hF h.2.page (h.2.sound.remove hi) hrun) fun _ ↦ .pure fun _ _ _ h ↦ h
    exact .ite (fun _ ↦ .bind FreshBlocks.earlier (hstable.note (e := .slot i) rfl
      fun _ _ h ↦ hi.trans_le h.2.sound.count) fun _ ↦ .bind FreshBlocks.earlier
      (hstable.note (e := .slot (pg.count.toNat - 1)) rfl
        fun _ _ h ↦ (Nat.sub_lt (by omega) one_pos).trans_le h.2.sound.count) fun _ ↦ hend)
      fun _ ↦ hend

include hio in
theorem pagedDel_spec (key : Path) :
    Triple FreshBlocks Inv (pagedDelNoted env out walk key) fun _ ↦ Inv := by
  refine .bind FreshBlocks.earlier get_spec fun fs₀ ↦ .ite (fun hb ↦ ?_)
    fun _ ↦ .pure fun _ _ _ h ↦ h.1
  refine (delWalk_spec hio out _ key walk _).mono (fun w fs h ↦ ⟨h.1, fun h0 ↦ ?_⟩) fun _ _ _ h ↦ h
  obtain ⟨h, rfl⟩ := h
  rw [hasBucket, Bool.and_eq_true, bne_iff_ne] at hb
  exact h.bucket hb.2 h0

include hio halloc

/-- Both `paged_put` and `paged_insert` begin with the page of the key's directory slot. -/
theorem enter_spec (val : List UInt8) (hash : UInt64) {go : UInt64 → Noted Rc} (hgo : Walks go) :
    Triple FreshBlocks Inv
      (do
        notePassed val
        let fs ← FsM.get
        let dirIdx := dirIndex hash fs.pdir.globalDepth
        match ← ensureBucketNoted env alloc dirIdx with
        | .ok =>
          let fs ← FsM.get
          go (fs.pdir.pageOff.getD dirIdx 0)
        | rc => return rc) fun _ ↦ Inv := by
  refine .bind FreshBlocks.earlier (notePassed_spec val) fun _ ↦
    .bind FreshBlocks.earlier get_spec fun fs₀ ↦ .bind FreshBlocks.earlier
      ((ensureBucket_spec hio halloc _).mono (fun _ _ h ↦ h.1) fun _ _ _ h ↦ h) fun rc ↦ ?_
  cases rc with
  | ok =>
    refine .bind FreshBlocks.earlier get_spec fun fs₁ ↦ (hgo _).mono
      (fun w fs h ↦ ⟨h.1.1, ?_⟩) fun _ _ _ h ↦ h
    exact h.2 ▸ h.1.2 rfl
  | _ => exact .pure fun _ _ _ h ↦ h.1

theorem pagedPut_spec (hfit : recLen key.length val.length ≤ 4096) (n : ℕ) :
    Triple FreshBlocks Inv (pagedPutNoted env alloc out walk key val n) fun _ ↦ Inv := by
  induction n with
  | zero => exact cutOff_spec out
  | succ n ih =>
    exact enter_spec hio halloc val _
      (putWalk_spec hio halloc hfit (pageSplitAndRetry_spec hio halloc ih) _ walk)

theorem pagedInsert_spec (hfit : recLen key.length val.length ≤ 4096) (retries : ℕ) :
    Triple FreshBlocks Inv (pagedInsertNoted env alloc out walk retries key val) fun _ ↦ Inv :=
  enter_spec hio halloc val _ (insertWalk_spec hio halloc hfit
    (pageSplitAndRetry_spec hio halloc (pagedPut_spec hio halloc out walk hfit retries)) _ walk)

/-- What the callers of the index see to: a key and its value fit into a record's block, and only
a page is split. -/
def Call.Allowed (w : List Event) : Call → Prop
  | .put key val | .insert key val => recLen key.length val.length ≤ 4096
  | .del _ => True
  | .split pageOff key val => recLen key.length val.length ≤ 4096 ∧ Page w pageOff

theorem Call.keeps_inv (c : Call) (retries : ℕ) {w w' : List Event} {fs fs' : Fs} {rc : Rc}
    (hc : c.Allowed w) (hF : FreshBlocks (w ++ w')) (h : Inv w fs)
    (hrun : (c.noted env alloc out walk retries).run fs = some ((rc, w'), fs')) :
    Inv (w ++ w') fs' := by
  cases c with
  | put key val => exact pagedPut_spec hio halloc out walk hc retries w fs rc w' fs' hF h hrun
  | insert key val =>
    exact pagedInsert_spec hio halloc out walk hc retries w fs rc w' fs' hF h hrun
  | del key => exact pagedDel_spec hio out walk key w fs rc w' fs' hF h hrun
  | split pageOff key val =>
    exact pageSplitAndRetry_spec hio halloc (pagedPut_spec hio halloc out walk hc.1 retries) pageOff
      w fs rc w' fs' hF ⟨h, hc.2⟩ hrun

end calls

end steps

/-- The blocks that `xxfs_mkfs` gives to the index: the page at the head, and the record of the
root. -/
def formattedBlocks (sizeMb : UInt64) : List Event :=
  [.page (dataStart (totalBlocks sizeMb) + 4096), .record (dataStart (totalBlocks sizeMb))]

/-- The states that calls lead to from a fresh image, with all that was noted. Each call may be cut
off after any number of pages and of retries. -/
inductive Run (env : Env) (alloc : FsM UInt64) : List Event → Fs → Prop
  | fresh {env₀ : Env} {sizeMb flags : UInt64} {fs : Fs} : Healthy env₀ →
    fresh env₀ sizeMb flags = some fs → Run env alloc (formattedBlocks sizeMb) fs
  | call {w w' : List Event} {fs fs' : Fs} {rc : Rc} (c : Call) (out : Option Rc)
    (walk retries : ℕ) : Run env alloc w fs → c.Allowed w →
    (c.noted env alloc out walk retries).run fs = some ((rc, w'), fs') →
    Run env alloc (w ++ w') fs'

theorem fresh_inv {env₀ : Env} (he : Healthy env₀) {sizeMb flags : UInt64} {fs : Fs}
    (h : fresh env₀ sizeMb flags = some fs) : Inv (formattedBlocks sizeMb) fs := by
  have hpage := fresh_page env₀ sizeMb flags
  rw [← eq_freshFs he h] at hpage
  have hcache (i : ℕ) : (fs.pcache i).page = none := by rw [eq_freshFs he h]; rfl
  have hdir : fs.pdir = ⟨[dataStart (totalBlocks sizeMb) + 4096], 0⟩ := by
    rw [eq_freshFs he h]; rfl
  rw [pageAt_of_absent fs fun pg hp ↦ by rw [hcache] at hp; cases hp] at hpage
  refine ⟨fun e he ↦ ?_, ⟨fun i pg hp ↦ ?_, fun o ho ↦ ?_⟩, fun o ho ↦ .inr ?_⟩
  · rcases List.mem_cons.mp he with rfl | he
    · trivial
    · rw [List.mem_singleton.mp he]
      trivial
  · rw [hcache] at hp
    cases hp
  · have hoff : o = dataStart (totalBlocks sizeMb) + 4096 := by
      rcases List.mem_cons.mp ho with heq | ho
      · exact Event.page.inj heq
      · cases List.mem_singleton.mp ho
    rw [hoff, hpage]
    have hslot := setSlot_slot PagedPage.zero { PagedSlot.zero with
      hash := xxh64 rootPath
      fileOff := dataStart (totalBlocks sizeMb)
      klen := 1
      vlen := 560
      keyPrefix := arrCopy (fun _ ↦ 0) 0 1 (bytesAt rootPath) } (by decide : 0 < slotsPerPage)
    have hzero : Sound (formattedBlocks sizeMb) PagedPage.zero := soundPage_none rfl rfl rfl
    refine hzero.append (by decide) rfl rfl
      (fun i hi ↦ absurd hi (Nat.not_lt_zero i)) (.inr ?_)
    change ¬IsInline ((PagedPage.zero.setSlot 0 _).slot 0) ∧
      Housed _ ((PagedPage.zero.setSlot 0 _).slot 0) ∧ _
    rw [hslot]
    exact ⟨fun hs ↦ hs (by decide : PagedSlot.zero.flags &&& slotFInline = 0), fun _ ↦ List.mem_cons_of_mem _ List.mem_cons_self, rfl⟩
  · rw [hdir] at ho
    rw [List.mem_singleton.mp ho]
    exact List.mem_cons_self

theorem Run.inv {env : Env} {alloc : FsM UInt64} (hio : ∀ n, env.io n = true)
    (halloc : Within Kept alloc) {w : List Event} {fs : Fs}
    (h : Run env alloc w fs) (hF : FreshBlocks w) : Inv w fs := by
  induction h with
  | fresh he h => exact fresh_inv he h
  | call c out walk retries _ hc hrun ih =>
    exact c.keeps_inv hio halloc out walk retries hc hF (ih (hF.earlier _ _)) hrun

/-- Every page loaded in a run is well formed, as is every page of the state it ends in, and every
access to a slot or to inline bytes stays inside its array. -/
theorem pages_well_formed {env : Env} {alloc : FsM UInt64} (hio : ∀ n, env.io n = true)
    (halloc : Within Kept alloc) {w : List Event} {fs : Fs}
    (h : Run env alloc w fs) (hF : FreshBlocks w) :
    (∀ e ∈ w, e.Fine) ∧ ∀ o, Page w o → WellFormed (pageAt fs o) :=
  have hinv := h.inv hio halloc hF
  ⟨hinv.fine, fun _ ho ↦ (hinv.copies.pageAt ho).toWellFormed⟩

section kept

instance : Std.Refl Kept where
  refl _ := ⟨rfl, rfl, rfl⟩

instance : IsTrans Fs Kept where
  trans _ _ _ h h' := ⟨h'.pdir.trans h.pdir, h'.pcache.trans h.pcache, h'.data.trans h.data⟩

variable (env : Env)

theorem tick_kept : Within Kept tick :=
  .bind .get fun _ ↦ .bind (.modify fun _ ↦ ⟨rfl, rfl, rfl⟩) fun _ ↦ .pure _

theorem osFileExtend_kept (size : UInt64) : Within Kept (osFileExtend env size) := by
  refine .bind (.bind tick_kept fun _ ↦ .bind .get fun _ ↦ .pure _) fun r ↦ ?_
  cases r with
  | none => exact .pure _
  | some cur =>
    exact .ite (fun _ ↦ .pure _) fun _ ↦ .bind tick_kept fun _ ↦ .ite
      (fun _ ↦ .bind (.modify fun _ ↦ ⟨rfl, rfl, rfl⟩) fun _ ↦ .pure _) fun _ ↦ .pure _

/-- `page_alloc` itself touches neither the pages nor the directory. -/
theorem pageAlloc_kept : Within Kept (pageAlloc env) :=
  .bind .get fun _ ↦ .ite (fun _ ↦ .bind (osFileExtend_kept env _) fun _ ↦ .ite
    (fun _ ↦ .bind (.modify fun _ ↦ ⟨rfl, rfl, rfl⟩) fun _ ↦ .pure _) fun _ ↦ .pure _)
    fun _ ↦ .bind (.modify fun _ ↦ ⟨rfl, rfl, rfl⟩) fun _ ↦ .pure _

end kept

section first

theorem appendSlotNoted_inline (env : Env) (alloc : FsM UInt64) (pg : PagedPage) (key : Path)
    (val : List UInt8) (hlen : (pg.inlineUsed + UInt32.ofNat (key.length + val.length)).toNat ≤ inlineSpace)
    (curOff h : UInt64) (fs : Fs) : ∃ fs', (appendSlotNoted env alloc pg curOff h key val).run fs =
      some ((.ok, [.slot pg.count.toNat, .inline pg.inlineUsed.toNat key.length,
        .inline (pg.inlineUsed.toNat + key.length) val.length]), fs') := by
  obtain ⟨u, fs', hwb⟩ := pageWriteback_total env
    { pg.setSlot pg.count.toNat { newSlot pg h key val with
        fileOff := pg.inlineUsed.toUInt64, flags := slotFInline } with
      count := pg.count + 1
      inlineUsed := pg.inlineUsed + UInt32.ofNat (key.length + val.length)
      inlineArea := storeInline pg.inlineArea pg.inlineUsed.toNat key val } curOff fs
  refine ⟨fs', run_bind (w := [Event.slot _]) rfl ?_⟩
  rw [if_pos hlen]
  exact run_bind (w := [Event.inline _ _]) rfl (run_bind (w := [Event.inline _ _]) rfl
    (run_bind (run_lift hwb) rfl))

/-- The first put of a key into a fresh index: the entry of the root does not match, and the key and
the value go to the inline area. -/
theorem put_inline_run : ∃ fs',
    ((Call.put [47, 97] [1, 2, 3]).noted steady (pageAlloc steady) none walkFuel walkFuel).run
      (freshFs steady 1 0) = some ((.ok, [.loaded (rootPage (dataStart (totalBlocks 1))),
        .slot 0, .slot 1, .inline 0 2, .inline 2 3]), fs') := by
  have hrep := fresh_represents steady goodSize_one 0
  have hoff : dataStart (totalBlocks 1) + 4096 ∈ offs (freshChain (totalBlocks 1)
      (steady.time 1)) := List.mem_cons_self
  obtain ⟨h0, hused⟩ := firstPage_used (totalBlocks 1)
  obtain ⟨fs₀, hfs₀⟩ : ∃ fs : Fs, fs = { freshFs steady 1 0 with
      passed := [1, 2, 3] :: (freshFs steady 1 0).passed } := ⟨_, rfl⟩
  have hpages : PagesOk fs₀ (offs (freshChain (totalBlocks 1) (steady.time 1))) := by
    rw [hfs₀]
    exact ⟨hrep.pages.usable, hrep.pages.mem, hrep.pages.slot, hrep.pages.clean⟩
  obtain ⟨fs₁, hload, -, -⟩ := pageLoad_apply steady_healthy hpages hoff
  have hpage : pageAt fs₀ (dataStart (totalBlocks 1) + 4096) = rootPage (dataStart (totalBlocks 1)) := by
    rw [hfs₀]
    exact fresh_page steady 1 0
  rw [hpage] at hload
  obtain ⟨P, hP⟩ : ∃ P, P = rootPage (dataStart (totalBlocks 1)) := ⟨_, rfl⟩
  rw [← hP] at hload ⊢
  have hnote : notePassed [1, 2, 3] (freshFs steady 1 0) = some ((), fs₀) := by rw [hfs₀]; rfl
  have hslot : fs₀.pdir.pageOff.getD 0 0 = dataStart (totalBlocks 1) + 4096 := by rw [hfs₀]; rfl
  have hidx : dirIndex (xxh64 [47, 97]) fs₀.pdir.globalDepth = 0 := by rw [hfs₀]; rfl
  have hbucket : (ensureBucketNoted steady (pageAlloc steady) 0).run fs₀ = some ((.ok, []), fs₀) := by
    refine run_bind (run_lift (get_apply _)) ?_
    rw [hslot, if_neg hused]
    rfl
  have hpageRun : (loadPage steady (dataStart (totalBlocks 1) + 4096)).run fs₀ =
      some ((some P, [.loaded P]), fs₁) := run_bind (run_lift hload) rfl
  have hmatch : slotMatches (P.slot 0) (xxh64 [47, 97]) [47, 97] = false := by
    have hhash : (P.slot 0).hash = xxh64 rootPath := by rw [hP]; rfl
    have hne : xxh64 rootPath ≠ xxh64 [47, 97] := by decide
    rw [slotMatches, hhash, beq_false_of_ne hne]
    rfl
  have hscan : (findSlotNoted P (xxh64 [47, 97]) [47, 97] (List.range P.count.toNat)).run fs₁ =
      some ((none, [.slot 0]), fs₁) := by
    rw [hP]
    change (findSlotNoted _ _ _ [0]).run fs₁ = _
    rw [← hP, findSlotNoted, hmatch]
    rfl
  have hcount : P.count = 1 := by rw [hP]; rfl
  have harea : P.inlineUsed = 0 := by rw [hP]; rfl
  obtain ⟨fs₂, happend⟩ := appendSlotNoted_inline steady (pageAlloc steady) P [47, 97] [1, 2, 3]
    (by rw [harea]; decide) (dataStart (totalBlocks 1) + 4096) (xxh64 [47, 97]) fs₁
  rw [hcount, harea] at happend
  obtain ⟨k, hk⟩ : ∃ k, walkFuel = k + 1 := ⟨walkFuel - 1, by decide⟩
  refine ⟨fs₂, ?_⟩
  rw [hk]
  refine run_bind (run_lift hnote) (run_bind (run_lift (get_apply _)) ?_)
  rw [hidx]
  refine run_bind hbucket (run_bind (run_lift (get_apply _)) ?_)
  rw [hslot, putWalkNoted, if_neg h0]
  refine run_bind hpageRun (run_bind hscan ?_)
  dsimp only
  rw [if_neg (by rw [hP]; decide)]
  exact happend

/-- A run that puts a key and a value into the inline area. -/
theorem pages_well_formed_put : ∃ w fs', .inline 2 3 ∈ w ∧
    ((Call.put [47, 97] [1, 2, 3]).noted steady (pageAlloc steady) none walkFuel walkFuel).run
      (freshFs steady 1 0) = some ((.ok, w), fs') ∧
    (∀ e ∈ formattedBlocks 1 ++ w, e.Fine) ∧
      WellFormed (pageAt fs' (dataStart (totalBlocks 1) + 4096)) := by
  obtain ⟨fs', hrun⟩ := put_inline_run
  have hw : Run steady (pageAlloc steady) _ fs' :=
    .call (.put [47, 97] [1, 2, 3]) none walkFuel walkFuel
      (.fresh steady_healthy (fresh_apply steady_healthy goodSize_one 0))
      (show recLen 2 3 ≤ 4096 by decide) hrun
  have hd := dataStart_bounds (totalBlocks 1)
  have hadd := dataStart_add (totalBlocks 1) 4096 (by decide)
  have h4096 : UInt64.toNat 4096 = 4096 := rfl
  have hblocks : FreshBlocks (formattedBlocks 1 ++ [.loaded (rootPage (dataStart (totalBlocks 1))),
      .slot 0, .slot 1, .inline 0 2, .inline 2 3]) := by
    have hlist : (formattedBlocks 1 ++ [Event.loaded (rootPage (dataStart (totalBlocks 1))),
        Event.slot 0, .slot 1, .inline 0 2, .inline 2 3]).filterMap Event.block =
          [dataStart (totalBlocks 1) + 4096, dataStart (totalBlocks 1)] := rfl
    refine ⟨?_, fun o ho ↦ ?_⟩
    · rw [hlist, List.nodup_cons]
      refine ⟨fun hmem ↦ ?_, List.nodup_singleton _⟩
      have heq := congrArg UInt64.toNat (List.mem_singleton.mp hmem)
      omega
    · rw [hlist] at ho
      rcases List.mem_cons.mp ho with rfl | ho
      · exact ⟨by omega, by omega⟩
      · rw [List.mem_singleton.mp ho]
        exact ⟨by omega, by omega⟩
  obtain ⟨hfine, hpages⟩ := pages_well_formed (fun _ ↦ rfl) (pageAlloc_kept steady) hw hblocks
  exact ⟨_, fs', by simp, hrun, hfine, hpages _ (List.mem_append_left _ List.mem_cons_self)⟩

end first

end Xxfs.PageNotes

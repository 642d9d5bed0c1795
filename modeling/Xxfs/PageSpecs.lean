import Xxfs.IndexChains
import Xxfs.Lib.NotedTriple
import Xxfs.PageCopies
import Xxfs.PageNotes
import Xxfs.PageShape

namespace Xxfs.PageNotes

open Xxfs.DiskFormat Xxfs.Machine Xxfs.Allocator Xxfs.PageCache Xxfs.PagedIndex Xxfs.PageStore
open Xxfs.Hash Xxfs.IndexRep Xxfs.IndexAlloc Xxfs.PageShape
open Xxfs.Lib.Computation Xxfs.Lib.Computation.Comp Xxfs.Lib.Computation.Noting

/-- The page is well formed, and the access stays inside its array. -/
def Event.Fine : Event → Prop
  | .page _ | .record _ => True
  | .loaded pg => WellFormed pg
  | .slot i => i < slotsPerPage
  | .inline off len => off + len ≤ inlineSpace

def Event.block : Event → Option UInt64
  | .page off | .record off => some off
  | _ => none

/-- No block was handed out twice. -/
structure FreshBlocks (w : List Event) : Prop where
  nodup : (w.filterMap Event.block).Nodup
  usable : ∀ o ∈ w.filterMap Event.block, Usable o

def Page (w : List Event) (o : UInt64) : Prop := .page o ∈ w

def Record (w : List Event) (o : UInt64) : Prop := .record o ∈ w

/-- A page that refers to what was handed out. -/
abbrev Sound (w : List Event) (pg : PagedPage) : Prop := SoundPage (Page w) (Record w) pg

/-- Nothing noted so far is wrong, all copies of the pages `ps` are sound, and the directory leads
to pages. -/
structure Under (ps : UInt64 → Prop) (w : List Event) (fs : Fs) : Prop where
  fine : ∀ e ∈ w, e.Fine
  copies : Copies (Sound w) ps fs
  dir : ∀ o ∈ fs.pdir.pageOff, o = 0xFFFFFFFFFFFFFFFF ∨ Page w o

/-- What holds between the steps: all pages are stored. -/
abbrev Inv (w : List Event) (fs : Fs) : Prop := Under (Page w) w fs

/-- The page `pg` at `off` is in the hands of the code. -/
structure Holds (pg : PagedPage) (off : UInt64) (w : List Event) : Prop where
  sound : Sound w pg
  page : Page w off

/-- The block at `off` was handed out after `w₀` for a page that is not yet stored. -/
structure Pending (w₀ : List Event) (off : UInt64) (w : List Event) (fs : Fs) : Prop where
  under : Under (Page w₀) w fs
  pages : Page w = Joined (Page w₀) off

/-- Notes about accesses do not matter to the assertion, as long as they are in order. -/
def Stable (A : List Event → Fs → Prop) : Prop :=
  ∀ w fs e, e.block = none → e.Fine → A w fs → A (w ++ [e]) fs

section events

variable {w w' : List Event} {o : UInt64} {e : Event} {pg : PagedPage} {off : UInt64}

theorem Page.more (h : Page w o) (w' : List Event) : Page (w ++ w') o := List.mem_append_left w' h

theorem Record.more (h : Record w o) (w' : List Event) : Record (w ++ w') o :=
  List.mem_append_left w' h

theorem sound_more (h : Sound w pg) (w' : List Event) : Sound (w ++ w') pg :=
  h.mono (fun _ ho ↦ ho.more w') fun _ ho ↦ ho.more w'

theorem Holds.more (h : Holds pg off w) (w' : List Event) : Holds pg off (w ++ w') :=
  ⟨sound_more h.sound w', h.page.more w'⟩

theorem page_append (w : List Event) (e : Event) (h : e.block = none) : Page (w ++ [e]) = Page w := by
  funext o
  refine propext ⟨fun ho ↦ (List.mem_append.mp ho).resolve_right fun he ↦ ?_, fun ho ↦ ho.more _⟩
  rw [← List.mem_singleton.mp he] at h
  cases h

theorem page_append_record (w : List Event) (off : UInt64) :
    Page (w ++ [.record off]) = Page w := by
  funext o
  refine propext ⟨fun ho ↦ (List.mem_append.mp ho).resolve_right fun he ↦ ?_, fun ho ↦ ho.more _⟩
  cases List.mem_singleton.mp he

theorem page_append_page (w : List Event) (off : UInt64) :
    Page (w ++ [.page off]) = Joined (Page w) off := by
  funext o
  refine propext ⟨fun ho ↦ (List.mem_append.mp ho).imp id fun he ↦ ?_, ?_⟩
  · exact Event.page.inj (List.mem_singleton.mp he)
  · rintro (ho | rfl)
    · exact ho.more _
    · exact List.mem_append_right _ (List.mem_singleton.mpr rfl)

theorem FreshBlocks.earlier (w w' : List Event) (h : FreshBlocks (w ++ w')) : FreshBlocks w := by
  have hn := h.nodup
  have hu := h.usable
  rw [List.filterMap_append] at hn hu
  exact ⟨(List.nodup_append.mp hn).1, fun o ho ↦ hu o (List.mem_append_left _ ho)⟩

theorem FreshBlocks.page_usable (h : FreshBlocks w) (ho : Page w o) : Usable o :=
  h.usable o (List.mem_filterMap.mpr ⟨_, ho, rfl⟩)

theorem FreshBlocks.record_usable (h : FreshBlocks w) (ho : Record w o) : Usable o :=
  h.usable o (List.mem_filterMap.mpr ⟨_, ho, rfl⟩)

theorem FreshBlocks.apart (h : FreshBlocks w) (ho : Record w o) : ¬Page w o := by
  intro hp
  obtain ⟨a, b, rfl⟩ := List.append_of_mem hp
  have hn := h.nodup
  have hcons : (.page o :: b).filterMap Event.block = o :: b.filterMap Event.block := rfl
  rw [List.filterMap_append, hcons, List.nodup_append] at hn
  obtain ⟨-, hb, hab⟩ := hn
  rcases List.mem_append.mp ho with ha | ho
  · exact hab o (List.mem_filterMap.mpr ⟨_, ha, rfl⟩) o List.mem_cons_self rfl
  · rcases List.mem_cons.mp ho with heq | ho
    · cases heq
    · exact (List.nodup_cons.mp hb).1 (List.mem_filterMap.mpr ⟨_, ho, rfl⟩)

end events

section assertions

variable {ps : UInt64 → Prop} {w w₀ : List Event} {fs fs' : Fs} {off : UInt64} {pg : PagedPage}

theorem Under.more (h : Under ps w fs) {w' : List Event} (hw : ∀ e ∈ w', e.Fine) :
    Under ps (w ++ w') fs :=
  ⟨fun e he ↦ (List.mem_append.mp he).elim (h.fine e) (hw e),
    h.copies.mono fun _ hp ↦ sound_more hp w', fun o ho ↦ (h.dir o ho).imp id fun hp ↦ hp.more w'⟩

theorem Under.step (h : Under ps w fs) (hc : Copies (Sound w) ps fs') (hd : fs'.pdir = fs.pdir) :
    Under ps w fs' :=
  ⟨h.fine, hc, hd ▸ h.dir⟩

theorem Under.same (h : Under ps w fs) (hd : fs'.pdir = fs.pdir) (hc : fs'.pcache = fs.pcache)
    (hi : fs'.img.data = fs.img.data) : Under ps w fs' :=
  h.step (h.copies.congr hc fun _ _ i _ ↦ congrFun hi i) hd

theorem more_fine {e : Event} (he : e.Fine) : ∀ e' ∈ [e], e'.Fine :=
  fun _ h ↦ List.mem_singleton.mp h ▸ he

theorem inv_stable : Stable Inv := fun w fs e hb he h ↦ by
  have hmore := h.more (more_fine he)
  rwa [← page_append w e hb] at hmore

theorem holds_stable (pg : PagedPage) (off : UInt64) : Stable fun w _ ↦ Holds pg off w :=
  fun _ _ _ _ _ h ↦ h.more _

theorem pending_stable (w₀ : List Event) (off : UInt64) : Stable (Pending w₀ off) :=
  fun w _ e hb he h ↦ ⟨h.under.more (more_fine he), (page_append w e hb).trans h.pages⟩

theorem Stable.and {A A' : List Event → Fs → Prop} (h : Stable A) (h' : Stable A') :
    Stable fun w fs ↦ A w fs ∧ A' w fs :=
  fun w fs e hb he ha ↦ ⟨h w fs e hb he ha.1, h' w fs e hb he ha.2⟩

theorem Stable.note {A : List Event → Fs → Prop} (hA : Stable A) {e : Event} (hb : e.block = none)
    (he : ∀ w fs, A w fs → e.Fine) : Triple FreshBlocks A (note e) fun _ ↦ A :=
  .note fun w fs _ ha ↦ hA w fs e hb (he w fs ha) ha

theorem Pending.page (h : Pending w₀ off w fs) : Page w off := h.pages ▸ .inr rfl

theorem Under.bucket (h : Inv w fs) {idx : ℕ}
    (hused : ¬fs.pdir.pageOff.getD idx 0 = 0xFFFFFFFFFFFFFFFF)
    (h0 : fs.pdir.pageOff.getD idx 0 ≠ 0) : Page w (fs.pdir.pageOff.getD idx 0) := by
  by_cases hidx : idx < fs.pdir.pageOff.length
  · rw [List.getD_eq_getElem _ _ hidx] at hused ⊢
    exact (h.dir _ (List.getElem_mem hidx)).resolve_left hused
  · rw [List.getD_eq_default _ _ (Nat.not_lt.mp hidx)] at h0
    exact absurd rfl h0

theorem Under.recBuffer {env : Env} {len : ℕ} {b : Option (ℕ → UInt8)} (h : Under ps w fs)
    (hrun : recBuffer env len fs = some (b, fs')) : Under ps w fs' := by
  simp only [PagedIndex.recBuffer, osAlloc, bind_apply, get_apply, tick_apply, Option.bind_some,
    if_apply, pure_apply] at hrun
  split at hrun
  · obtain ⟨-, rfl⟩ := Prod.mk.inj (Option.some.inj hrun)
    exact h
  · split at hrun
    all_goals
      obtain ⟨-, rfl⟩ := Prod.mk.inj (Option.some.inj hrun)
      exact h.same rfl rfl rfl

section calls

variable {env : Env} (hio : ∀ n, env.io n = true) (hF : FreshBlocks w)
include hio hF

theorem Pending.store (h : Pending w₀ off w fs) (hp : Sound w pg) {ok : Bool}
    (hrun : osPwrite env pg.encode pageSize off fs = some (ok, fs')) :
    ok = true ∧ Inv w fs' ∧ fs'.pdir = fs.pdir := by
  have hu (o : UInt64) (ho : Page w₀ o) : Usable o := hF.page_usable (h.pages ▸ .inl ho)
  obtain ⟨hok, hc, hd⟩ := h.under.copies.store hio hu (hF.page_usable h.page) hp hrun
  rw [← h.pages] at hc
  exact ⟨hok, ⟨h.under.fine, hc, hd ▸ h.under.dir⟩, hd⟩

theorem Under.invalidate (h : Inv w fs) {u : Unit}
    (hrun : pageCacheInvalidate env off fs = some (u, fs')) :
    Inv w fs' ∧ fs'.pdir = fs.pdir := by
  obtain ⟨hc, hd⟩ := h.copies.invalidate hio (fun _ ↦ hF.page_usable) hrun
  exact ⟨h.step hc hd, hd⟩

theorem Under.writeback (h : Inv w fs) (ho : Page w off) (hp : Sound w pg) {u : Unit}
    (hrun : pageWriteback env pg off fs = some (u, fs')) : Inv w fs' := by
  obtain ⟨hc, hd⟩ := h.copies.writeback hio (fun _ ↦ hF.page_usable) ho hp hrun
  exact h.step hc hd

theorem Pending.writeback (h : Pending w₀ off w fs) {o : UInt64} (ho : Page w₀ o)
    (hp : Sound w pg) {u : Unit} (hrun : pageWriteback env pg o fs = some (u, fs')) :
    Pending w₀ off w fs' := by
  have hu (o : UInt64) (ho : Page w₀ o) : Usable o := hF.page_usable (h.pages ▸ .inl ho)
  obtain ⟨hc, hd⟩ := h.under.copies.writeback hio hu ho hp hrun
  exact ⟨h.under.step hc hd, h.pages⟩

end calls

end assertions

section steps

variable {env : Env} {alloc : FsM UInt64} (hio : ∀ n, env.io n = true)
variable (halloc : Within Kept alloc)

section parts

theorem get_spec {A : List Event → Fs → Prop} : Triple FreshBlocks A (liftM FsM.get)
    fun fs₀ w fs ↦ A w fs ∧ fs = fs₀ :=
  .lift fun w fs fs₀ fs' _ h hrun ↦ by
    obtain ⟨rfl, rfl⟩ := Prod.mk.inj (Option.some.inj hrun)
    exact ⟨h, rfl⟩

include halloc in
theorem handOut_record : Triple FreshBlocks Inv (handOut alloc .record)
    fun off w fs ↦ Inv w fs ∧ (off ≠ 0 → Record w off) := by
  refine .bind FreshBlocks.earlier (B := fun _ ↦ Inv) (.lift fun w fs off fs' _ h hrun ↦ ?_)
    fun off ↦ .ite (fun h0 ↦ .pure fun w fs _ h ↦ ⟨h, fun hn ↦ absurd rfl hn⟩) fun h0 ↦ ?_
  · have hk := halloc _ _ _ hrun
    exact h.same hk.pdir hk.pcache hk.data
  · refine .bind FreshBlocks.earlier (B := fun _ w fs ↦ Inv w fs ∧ Record w off)
      (.note fun w fs _ h ↦ ⟨?_, List.mem_append_right _ (List.mem_singleton.mpr rfl)⟩)
      fun _ ↦ .pure fun w fs _ h ↦ ⟨h.1, fun _ ↦ h.2⟩
    have hmore := Under.more h (more_fine (e := .record off) trivial)
    rwa [← page_append_record w off] at hmore

include halloc in
theorem handOut_page (w₀ : List Event) :
    Triple FreshBlocks (fun w fs ↦ w = w₀ ∧ Inv w fs) (handOut alloc .page) fun off w fs ↦
      (off = 0 → w = w₀ ∧ Inv w fs) ∧ (off ≠ 0 → w = w₀ ++ [.page off] ∧ Pending w₀ off w fs) := by
  refine .bind FreshBlocks.earlier (B := fun _ w fs ↦ w = w₀ ∧ Inv w fs)
    (.lift fun w fs off fs' _ h hrun ↦ ⟨h.1, ?_⟩)
    fun off ↦ .ite (fun h0 ↦ .pure fun w fs _ h ↦ ⟨fun _ ↦ h, fun hn ↦ absurd rfl hn⟩) fun h0 ↦ ?_
  · have hk := halloc _ _ _ hrun
    exact h.2.same hk.pdir hk.pcache hk.data
  · refine .bind FreshBlocks.earlier
      (B := fun _ w fs ↦ w = w₀ ++ [.page off] ∧ Pending w₀ off w fs)
      (.note fun w fs _ h ↦ ?_) fun _ ↦ .pure fun w fs _ h ↦ ⟨fun hc ↦ absurd hc h0, fun _ ↦ h⟩
    obtain ⟨rfl, h⟩ := h
    exact ⟨rfl, h.more (more_fine (e := .page off) trivial), page_append_page w off⟩

include hio in
theorem loadPage_spec (off : UInt64) :
    Triple FreshBlocks (fun w fs ↦ Inv w fs ∧ Page w off) (loadPage env off)
      fun r w fs ↦ Inv w fs ∧ Page w off ∧ ∀ pg, r = some pg → Holds pg off w := by
  refine .bind FreshBlocks.earlier
    (B := fun r w fs ↦ (Inv w fs ∧ Page w off) ∧ ∀ pg, r = some pg → Holds pg off w)
    (.lift fun w fs r fs' hF h hrun ↦ ?_) fun r ↦ ?_
  · obtain ⟨hc, hd, hr⟩ := h.1.copies.load hio (fun _ ↦ hF.page_usable) h.2 hrun
    exact ⟨⟨h.1.step hc hd, h.2⟩, fun pg hpg ↦ ⟨hr pg hpg, h.2⟩⟩
  · cases r with
    | none => exact .pure fun w fs _ h ↦ ⟨h.1.1, h.1.2, fun pg hpg ↦ by cases hpg⟩
    | some pg =>
      refine .bind FreshBlocks.earlier (B := fun _ w fs ↦ Inv w fs ∧ Holds pg off w)
        (.note fun w fs _ h ↦ ?_) fun _ ↦ .pure fun w fs _ h ↦
          ⟨h.1, h.2.page, fun pg' hpg' ↦ Option.some.inj hpg' ▸ h.2⟩
      have hp := h.2 pg rfl
      exact ⟨inv_stable w fs (.loaded pg) rfl hp.sound.toWellFormed h.1.1, hp.more _⟩

include hio halloc in
theorem writeRecord_spec {key : Path} {val : List UInt8}
    (hlen : recLen key.length val.length ≤ 4096) :
    Triple FreshBlocks Inv (writeRecordNoted env alloc key val)
      fun r w fs ↦ Inv w fs ∧ ∀ off, r = .ok off → Record w off := by
  refine .bind FreshBlocks.earlier (handOut_record halloc) fun off ↦
    .ite (fun _ ↦ .pure fun w fs _ h ↦ ⟨h.1, fun _ hr ↦ by cases hr⟩) fun h0 ↦ ?_
  refine .bind FreshBlocks.earlier (B := fun _ w fs ↦ Inv w fs ∧ Record w off)
    (.lift fun w fs r fs' _ h hrun ↦ ⟨h.1.recBuffer hrun, h.2 h0⟩) fun r ↦ ?_
  cases r with
  | none => exact .pure fun w fs _ h ↦ ⟨h.1, fun _ hr ↦ by cases hr⟩
  | some _ =>
    refine .bind FreshBlocks.earlier (B := fun _ w fs ↦ Inv w fs ∧ Record w off)
      (.lift fun w fs r fs' hF h hrun ↦ ⟨?_, h.2⟩) fun ok ↦
      .ite (fun _ ↦ .pure fun w fs _ h ↦ ⟨h.1, fun o ho ↦ by cases ho; exact h.2⟩)
        fun _ ↦ .pure fun w fs _ h ↦ ⟨h.1, fun _ hr ↦ by cases hr⟩
    obtain ⟨hc, hd⟩ := h.1.copies.outside hio (fun _ ↦ hF.page_usable)
      (hF.record_usable h.2) (hF.apart h.2) le_rfl (Nat.add_le_add_left hlen _) hrun
    exact h.1.step hc hd

include hio in
theorem newPage_spec {α : Type} (w₀ : List Event) (off : UInt64) {pg : PagedPage}
    (hp : ∀ w, Sound w pg) (D : PagedDir → Prop) (good bad : α) {C : α → List Event → Fs → Prop}
    (hC : ∀ w fs, Inv w fs → Page w off → D fs.pdir → C good w fs) :
    Triple FreshBlocks (fun w fs ↦ Pending w₀ off w fs ∧ D fs.pdir)
      (do
        if ← osPwrite env pg.encode pageSize off then
          pageCacheInvalidate env off
          return good
        else return bad) C := by
  refine .bind FreshBlocks.earlier
    (B := fun ok w fs ↦ ok = true ∧ Inv w fs ∧ Page w off ∧ D fs.pdir)
    (.lift fun w fs ok fs' hF h hrun ↦ ?_) fun ok ↦ .ite (fun _ ↦ ?_)
      fun hbad ↦ .pure fun w fs _ h ↦ absurd h.1 hbad
  · obtain ⟨hok, hinv, hd⟩ := h.1.store hio hF (hp w) hrun
    exact ⟨hok, hinv, h.1.page, hd ▸ h.2⟩
  · refine .bind FreshBlocks.earlier (B := fun _ w fs ↦ Inv w fs ∧ Page w off ∧ D fs.pdir)
      (.lift fun w fs _ fs' hF h hrun ↦ ?_) fun _ ↦ .pure fun w fs _ h ↦ hC w fs h.1 h.2.1 h.2.2
    obtain ⟨hinv, hd⟩ := h.2.1.invalidate hio hF hrun
    exact ⟨hinv, h.2.2.1, hd ▸ h.2.2.2⟩

include hio halloc in
theorem ensureBucket_spec (dirIdx : ℕ) :
    Triple FreshBlocks Inv (ensureBucketNoted env alloc dirIdx) fun rc w fs ↦ Inv w fs ∧
      (rc = .ok → fs.pdir.pageOff.getD dirIdx 0 ≠ 0 → Page w (fs.pdir.pageOff.getD dirIdx 0)) := by
  refine .bind FreshBlocks.earlier get_spec fun fs₀ ↦ .ite (fun _ ↦ .fix fun w₀ ↦ ?_)
      fun hused ↦ .pure fun w fs _ h ↦ ⟨h.1, fun _ h0 ↦ ?_⟩
  · refine .bind FreshBlocks.earlier ((handOut_page halloc w₀).mono
      (fun _ _ h ↦ ⟨h.1, h.2.1⟩) fun _ _ _ h ↦ h) fun off ↦
      .ite (fun h0 ↦ .pure fun w fs _ h ↦ ⟨(h.1 h0).2, fun hrc ↦ by cases hrc⟩) fun h0 ↦ ?_
    have hset (l : List UInt64) : (l.set dirIdx off).getD dirIdx 0 ≠ 0 →
        (l.set dirIdx off).getD dirIdx 0 = off := by
      rw [List.getD_eq_getElem?_getD, List.getElem?_set_self']
      cases l[dirIdx]? with
      | none => exact fun hn ↦ absurd rfl hn
      | some x => exact fun _ ↦ rfl
    refine .bind FreshBlocks.earlier (B := fun _ w fs ↦ Pending w₀ off w fs ∧
      (fs.pdir.pageOff.getD dirIdx 0 ≠ 0 → fs.pdir.pageOff.getD dirIdx 0 = off))
      (.lift fun w fs _ fs' _ h hrun ↦ ?_) fun _ ↦
      newPage_spec hio w₀ off (fun w ↦ soundPage_none rfl rfl rfl)
        (fun d ↦ d.pageOff.getD dirIdx 0 ≠ 0 → d.pageOff.getD dirIdx 0 = off) Rc.ok Rc.eio
        fun w fs hinv hp hd ↦ ⟨hinv, fun _ h0 ↦ (hd h0).symm ▸ hp⟩
    obtain ⟨-, rfl⟩ := Prod.mk.inj (Option.some.inj hrun)
    obtain ⟨-, hp⟩ := h.2 h0
    refine ⟨⟨⟨hp.under.fine, hp.under.copies.congr rfl fun _ _ _ _ ↦ rfl, fun o ho ↦ ?_⟩,
      hp.pages⟩, hset _⟩
    rcases List.mem_or_eq_of_mem_set ho with ho | rfl
    · exact hp.under.dir o ho
    · exact .inr hp.page
  · obtain ⟨h, rfl⟩ := h
    exact h.bucket hused h0

include hio halloc in
theorem addOverflow_spec (pg : PagedPage) (curOff : UInt64) :
    Triple FreshBlocks (fun w fs ↦ Inv w fs ∧ Holds pg curOff w)
      (addOverflowNoted env alloc pg curOff)
      fun r w fs ↦ Inv w fs ∧ Holds pg curOff w ∧ ∀ off, r = some (.ok off) → Page w off := by
  refine .fix fun w₀ ↦ .given (p := Holds pg curOff w₀) (A := fun w fs ↦ w = w₀ ∧ Inv w fs)
    (fun w fs h ↦ ⟨h.1 ▸ h.2.2, h.1, h.2.1⟩) fun hheld ↦ ?_
  refine .bind FreshBlocks.earlier (handOut_page halloc w₀) fun off ↦
    .ite (fun h0 ↦ .pure fun w fs _ h ↦ ?_) fun h0 ↦ ?_
  · obtain ⟨rfl, hinv⟩ := h.1 h0
    exact ⟨hinv, hheld, fun _ hr ↦ by cases hr⟩
  refine .bind FreshBlocks.earlier (B := fun _ w fs ↦ Pending w₀ off w fs ∧ Holds pg curOff w)
    (.lift fun w fs _ fs' hF h hrun ↦ ?_) fun _ ↦ ?_
  · obtain ⟨rfl, hp⟩ := h.2 h0
    have hheld' := hheld.more [.page off]
    exact ⟨hp.writeback hio hF hheld.page (hheld'.sound.link hp.page) hrun, hheld'⟩
  · have hempty (w : List Event) : Sound w (emptyPage pg.localDepth) := soundPage_none rfl rfl rfl
    have hnew := newPage_spec hio w₀ off hempty (fun _ ↦ True) (some (Except.ok off))
      (some (Except.error Rc.eio))
      (C := fun r w fs ↦ Inv w fs ∧ ∀ o, r = some (Except.ok o) → Page w o)
      fun w fs hinv hp _ ↦ ⟨hinv, fun o ho ↦ by cases ho; exact hp⟩
    exact (hnew.frame (R := Holds pg curOff) fun _ w' h ↦ h.more w').mono
      (fun _ _ h ↦ ⟨⟨h.1, trivial⟩, h.2⟩) fun _ _ _ h ↦ ⟨h.1.1, h.2, h.1.2⟩

theorem findSlot_spec {A : List Event → Fs → Prop} (hA : Stable A) (pg : PagedPage) (h : UInt64)
    (key : Path) {l : List ℕ} (hl : ∀ i ∈ l, i < slotsPerPage) :
    Triple FreshBlocks A (findSlotNoted pg h key l) fun r w fs ↦ A w fs ∧ ∀ i, r = some i →
      i ∈ l ∧ slotMatches (pg.slot i) h key = true := by
  induction l with
  | nil => exact .pure fun w fs _ ha ↦ ⟨ha, fun i hi ↦ by cases hi⟩
  | cons i l ih =>
    refine .bind FreshBlocks.earlier (hA.note (e := .slot i) rfl
      fun _ _ _ ↦ hl i List.mem_cons_self) fun _ ↦
      .ite (fun hm ↦ .pure fun w fs _ ha ↦ ⟨ha, fun j hj ↦ ?_⟩) fun _ ↦ ?_
    · obtain rfl := Option.some.inj hj
      exact ⟨List.mem_cons_self, hm⟩
    · exact (ih fun j hj ↦ hl j (List.mem_cons_of_mem i hj)).mono (fun _ _ ha ↦ ha)
        fun _ _ _ ha ↦ ⟨ha.1, fun j hj ↦ ⟨List.mem_cons_of_mem i (ha.2 j hj).1, (ha.2 j hj).2⟩⟩

end parts

section slots

variable {key : Path} {val : List UInt8} (hfit : recLen key.length val.length ≤ 4096)

include hfit in
theorem length_toNat : (UInt32.ofNat key.length).toNat = key.length ∧
    (UInt32.ofNat val.length).toNat = val.length ∧
    (UInt32.ofNat (key.length + val.length)).toNat = key.length + val.length := by
  have hsize : UInt32.size = 4294967296 := rfl
  rw [recLen] at hfit
  exact ⟨UInt32.toNat_ofNat_of_lt' (by omega), UInt32.toNat_ofNat_of_lt' (by omega),
    UInt32.toNat_ofNat_of_lt' (by omega)⟩

include hfit in
theorem slotLen_newSlot (pg : PagedPage) (h : UInt64) :
    slotLen (newSlot pg h key val) = key.length + val.length := by
  obtain ⟨hk, hv, -⟩ := length_toNat hfit
  rw [slotLen]
  exact congrArg₂ (· + ·) hk hv

include hio halloc hfit in
theorem appendSlot_spec {pg : PagedPage} (hroom : pg.count.toNat < slotsPerPage)
    (curOff h : UInt64) :
    Triple FreshBlocks (fun w fs ↦ Inv w fs ∧ Holds pg curOff w)
      (appendSlotNoted env alloc pg curOff h key val) fun _ ↦ Inv := by
  have hstable := inv_stable.and (holds_stable pg curOff)
  obtain ⟨-, -, hneed⟩ := length_toNat hfit
  have hlen := slotLen_newSlot hfit pg h
  refine .bind FreshBlocks.earlier (hstable.note (e := .slot pg.count.toNat) rfl
    fun _ _ _ ↦ hroom) fun _ ↦ .ite (fun hspace ↦ ?_) fun _ ↦ ?_
  · -- the sum of the code cannot have wrapped around
    have hsum (w : List Event) (hs : Sound w pg) :
        (pg.inlineUsed + UInt32.ofNat (key.length + val.length)).toNat =
          pg.inlineUsed.toNat + (key.length + val.length) := by
      have hused := hs.used
      rw [recLen] at hfit
      rw [inlineSpace] at hused
      rw [UInt32.toNat_add, hneed]
      exact Nat.mod_eq_of_lt (by omega)
    refine .bind FreshBlocks.earlier (hstable.note rfl fun w _ ha ↦ ?_) fun _ ↦
      .bind FreshBlocks.earlier (hstable.note rfl fun w _ ha ↦ ?_) fun _ ↦
      .bind FreshBlocks.earlier (B := fun _ ↦ Inv) (.lift fun w fs _ fs' hF ha hrun ↦ ?_)
      fun _ ↦ .pure fun _ _ _ ha ↦ ha
    · have hs := hsum w ha.2.sound
      change pg.inlineUsed.toNat + key.length ≤ inlineSpace
      omega
    · have hs := hsum w ha.2.sound
      change pg.inlineUsed.toNat + key.length + val.length ≤ inlineSpace
      omega
    · refine ha.1.writeback hio hF ha.2.page ?_ hrun
      refine ha.2.sound.append hroom rfl rfl (fun i hi ↦ setSlot_slot_ne pg _ hi.ne) (.inl ?_)
      have hlast := setSlot_slot pg { newSlot pg h key val with
        fileOff := pg.inlineUsed.toUInt64, flags := slotFInline } hroom
      change IsInline ((pg.setSlot _ _).slot _) ∧ ((pg.setSlot _ _).slot _).fileOff.toNat = _ ∧
        (pg.inlineUsed + _).toNat = _ + slotLen ((pg.setSlot _ _).slot _) ∧ _ ≤ _
      rw [hlast]
      exact ⟨(by decide : slotFInline &&& slotFInline ≠ 0), UInt32.toNat_toUInt64 _, (hsum w ha.2.sound).trans (hlen ▸ rfl), hspace⟩
  · refine .bind FreshBlocks.earlier ((writeRecord_spec hio halloc hfit).frame
      (R := Holds pg curOff) fun _ w' h ↦ h.more w') fun r ↦ ?_
    have hflags : ¬IsInline (newSlot pg h key val) := by
      change ¬(0 : UInt8) &&& slotFInline ≠ 0
      decide
    cases r with
    | error rc =>
      refine .bind FreshBlocks.earlier (B := fun _ ↦ Inv) (.lift fun w fs _ fs' hF ha hrun ↦ ?_)
        fun _ ↦ .pure fun _ _ _ ha ↦ ha
      have hsame : Sound w (pg.setSlot pg.count.toNat (newSlot pg h key val)) :=
        ha.2.sound.same rfl rfl rfl fun i hi ↦ setSlot_slot_ne pg _ hi.ne
      obtain ⟨hc, hd⟩ := ha.1.1.copies.poke ha.2.page hsame hrun
      exact ha.1.1.step hc hd
    | ok off =>
      refine .bind FreshBlocks.earlier (B := fun _ ↦ Inv) (.lift fun w fs _ fs' hF ha hrun ↦ ?_)
        fun _ ↦ .pure fun _ _ _ ha ↦ ha
      refine ha.1.1.writeback hio hF ha.2.page ?_ hrun
      refine ha.2.sound.append hroom rfl rfl (fun i hi ↦ setSlot_slot_ne pg _ hi.ne) (.inr ?_)
      have hlast := setSlot_slot pg { newSlot pg h key val with fileOff := off } hroom
      change ¬IsInline ((pg.setSlot _ _).slot _) ∧ Housed _ ((pg.setSlot _ _).slot _) ∧ _
      rw [hlast]
      exact ⟨hflags, fun _ ↦ ha.1.2 off rfl, rfl⟩

include hfit in
theorem klen_of_matches {s : PagedSlot} {h : UInt64} (hm : slotMatches s h key = true) :
    s.klen.toNat = key.length := by
  rw [slotMatches, Bool.and_eq_true, Bool.and_eq_true, beq_iff_eq, beq_iff_eq] at hm
  rw [hm.1.2]
  exact (length_toNat hfit).1

include hio hfit in
theorem overwrite_spec {pg : PagedPage} {i : ℕ} (hi : i < pg.count.toNat)
    (hout : ¬IsInline (pg.slot i)) (curOff : UInt64) :
    Triple FreshBlocks (fun w fs ↦ Inv w fs ∧ Holds pg curOff w)
      (liftM (osPwrite env (bytesAt val) val.length
        ((pg.slot i).fileOff + 8 + UInt64.ofNat key.length)))
      fun _ w fs ↦ Inv w fs ∧ Holds pg curOff w := by
  refine .lift fun w fs ok fs' hF ha hrun ↦ ⟨?_, ha.2⟩
  have hrec := ha.2.sound.housed i hi hout
  have hu := hF.record_usable hrec
  have hb := hu.bound
  rw [recLen] at hfit
  have hklen : (UInt64.ofNat key.length).toNat = key.length :=
    UInt64.toNat_ofNat_of_lt' (lt_of_le_of_lt (by omega : key.length ≤ 4096) (by decide))
  have hoff : ((pg.slot i).fileOff + 8 + UInt64.ofNat key.length).toNat =
      (pg.slot i).fileOff.toNat + 8 + key.length := by
    have h8 : (8 : UInt64).toNat = 8 := rfl
    have hfirst : ((pg.slot i).fileOff + 8).toNat = (pg.slot i).fileOff.toNat + 8 := by
      rw [UInt64.toNat_add, h8]
      exact Nat.mod_eq_of_lt (by omega)
    rw [UInt64.toNat_add, hfirst, hklen]
    exact Nat.mod_eq_of_lt (by omega)
  obtain ⟨hc, hd⟩ := ha.1.copies.outside hio (fun _ ↦ hF.page_usable) hu (hF.apart hrec)
    (by omega) (by omega) hrun
  exact ha.1.step hc hd

include hio halloc hfit in
theorem updateSlot_spec {pg : PagedPage} {i : ℕ} (hi : i < pg.count.toNat) {h : UInt64}
    (hm : slotMatches (pg.slot i) h key = true) (curOff : UInt64) :
    Triple FreshBlocks (fun w fs ↦ Inv w fs ∧ Holds pg curOff w)
      (updateSlotNoted env alloc pg curOff i key val) fun _ ↦ Inv := by
  have hstable := inv_stable.and (holds_stable pg curOff)
  have hk := klen_of_matches hfit hm
  have hv := (length_toNat hfit).2.1
  have hle (hc : UInt32.ofNat val.length ≤ (pg.slot i).vlen) :
      val.length ≤ (pg.slot i).vlen.toNat := hv ▸ UInt32.le_iff_toNat_le.mp hc
  -- a slot whose value is cut short keeps its place
  have hshort (hc : UInt32.ofNat val.length ≤ (pg.slot i).vlen) :
      slotLen { pg.slot i with vlen := UInt32.ofNat val.length } ≤ slotLen (pg.slot i) :=
    Nat.add_le_add_left (UInt32.le_iff_toNat_le.mp hc) _
  have hcut (w : List Event) (ha : Sound w pg) (hc : UInt32.ofNat val.length ≤ (pg.slot i).vlen) :
      Sound w (pg.setSlot i { pg.slot i with vlen := UInt32.ofNat val.length }) :=
    ha.set hi (fun hs ↦ ⟨hs, rfl, hshort hc⟩) fun hs ↦ ha.housed i hi hs
  refine .bind FreshBlocks.earlier (hstable.note (e := .slot i) rfl
    fun _ _ ha ↦ hi.trans_le ha.2.sound.count) fun _ ↦ .ite (fun hcase ↦ ?_) fun _ ↦
    .ite (fun hcase ↦ ?_) fun _ ↦ ?_
  · refine .bind FreshBlocks.earlier (hstable.note rfl fun w _ ha ↦ ?_) fun _ ↦
      .bind FreshBlocks.earlier (B := fun _ ↦ Inv) (.lift fun w fs _ fs' hF ha hrun ↦ ?_)
      fun _ ↦ .pure fun _ _ _ ha ↦ ha
    · have hslot := ha.2.sound.slot_le hi hcase.1
      have hused := ha.2.sound.used
      have hlen := hle hcase.2
      rw [slotLen] at hslot
      change (pg.slot i).fileOff.toNat + key.length + val.length ≤ inlineSpace
      omega
    · exact ha.1.writeback hio hF ha.2.page ((hcut w ha.2.sound hcase.2).copied _) hrun
  · have hout : ¬IsInline (pg.slot i) := fun hs ↦ hs hcase.1
    exact .bind FreshBlocks.earlier
      (.discard FreshBlocks.earlier (overwrite_spec hio hfit hi hout curOff))
      fun _ ↦ .bind FreshBlocks.earlier (B := fun _ ↦ Inv) (.lift fun w fs _ fs' hF ha hrun ↦
        ha.1.writeback hio hF ha.2.page (hcut w ha.2.sound hcase.2) hrun)
      fun _ ↦ .pure fun _ _ _ ha ↦ ha
  · refine .bind FreshBlocks.earlier ((writeRecord_spec hio halloc hfit).frame
      (R := Holds pg curOff) fun _ w' h ↦ h.more w') fun r ↦ ?_
    cases r with
    | error rc => exact .pure fun _ _ _ ha ↦ ha.1.1
    | ok off =>
      refine .bind FreshBlocks.earlier (B := fun _ ↦ Inv) (.lift fun w fs _ fs' hF ha hrun ↦ ?_)
        fun _ ↦ .pure fun _ _ _ ha ↦ ha
      refine ha.1.1.writeback hio hF ha.2.page
        (ha.2.sound.set hi (fun hs ↦ ?_) fun _ ↦ ha.1.2 off rfl) hrun
      exact absurd (by decide : (0 : UInt8) &&& slotFInline = 0) hs

end slots

section split

/-- The slots are dealt one by one, each copy of a slot and of its bytes inside the arrays. -/
theorem redistributeAll_spec {A : List Event → Fs → Prop} (hA : Stable A)
    {pages records : UInt64 → Prop} {old : PagedPage} (hold : SoundPage pages records old)
    (depth : UInt8) (bit k : ℕ) {i : ℕ} (hik : i + k = old.count.toNat)
    {pgs : PagedPage × PagedPage} (hd : Dealt pages records old i pgs) :
    Triple FreshBlocks A (redistributeAll depth bit old (List.range' i k) pgs)
      fun pgs w fs ↦ A w fs ∧ Dealt pages records old old.count.toNat pgs := by
  induction k generalizing i pgs with
  | zero =>
    obtain rfl : i = old.count.toNat := by omega
    exact .pure fun w fs _ ha ↦ ⟨ha, hd⟩
  | succ k ih =>
    have hi : i < old.count.toNat := by omega
    obtain ⟨⟨hroom₁, hroom₂⟩, hspace⟩ := hd.room hold.toWellFormed hi
    have hcap := hold.count
    have hused := hold.used
    rw [List.range'_succ]
    refine .bind FreshBlocks.earlier (B := fun pgs' w fs ↦ A w fs ∧
      pgs' = redistribute depth bit old pgs i) ?_ fun pgs' ↦ .given
        (A := A) (p := pgs' = redistribute depth bit old pgs i) (fun w fs ha ↦ ⟨ha.2, ha.1⟩)
        fun heq ↦ heq ▸ ih (by omega) (hd.step hold hi depth bit)
    refine .bind FreshBlocks.earlier (hA.note (e := .slot i) rfl
      fun _ _ _ ↦ (by change i < slotsPerPage; omega)) fun _ ↦
      .bind FreshBlocks.earlier (hA.note rfl fun _ _ _ ↦ ?_) fun _ ↦ .ite (fun hs ↦ ?_) fun _ ↦
        .pure fun w fs _ ha ↦ ⟨ha, rfl⟩
    · split
      · exact hroom₂
      · exact hroom₁
    · obtain ⟨hspace₁, hspace₂⟩ := hspace hs
      have hneed := hold.need_toNat hi hs
      have hslot := hold.slot_le hi hs
      refine .bind FreshBlocks.earlier (hA.note rfl fun _ _ _ ↦ ?_) fun _ ↦
        .bind FreshBlocks.earlier (hA.note rfl fun _ _ _ ↦ ?_) fun _ ↦
        .pure fun w fs _ ha ↦ ⟨ha, rfl⟩
      · rw [Event.Fine, hneed]
        split
        · exact hspace₂
        · exact hspace₁
      · rw [Event.Fine, hneed]
        omega

/-- All slots of a page are dealt while the block of the new page is still to be written. -/
theorem deal_spec (w₀ : List Event) (off : UInt64) {pg : PagedPage}
    (hpg : Sound (w₀ ++ [.page off]) pg) (depth : UInt8) (bit : ℕ) :
    Triple FreshBlocks (fun w fs ↦ Pending w₀ off w fs ∧ w₀ ++ [.page off] <+: w)
      (redistributeAll depth bit pg (List.range pg.count.toNat)
        (keptPage pg depth, emptyPage depth.toUInt16))
      fun pgs w fs ↦ Pending w₀ off w fs ∧ Sound w pgs.1 ∧ Sound w pgs.2 := by
  have hlater : Stable fun w _ ↦ w₀ ++ [.page off] <+: w :=
    fun _ _ e _ _ h ↦ h.trans (List.prefix_append _ [e])
  rw [List.range_eq_range']
  refine (redistributeAll_spec ((pending_stable w₀ off).and hlater) hpg depth bit _
    (Nat.zero_add _) (dealt_start rfl rfl rfl _)).mono (fun _ _ h ↦ h) fun pgs w fs h ↦ ?_
  obtain ⟨⟨hp, t, rfl⟩, hd⟩ := h
  exact ⟨hp, sound_more hd.fst t, sound_more hd.snd t⟩

variable {retry : Noted Rc} (hretry : Triple FreshBlocks Inv retry fun _ ↦ Inv)
include hio halloc hretry

theorem split_spec (pageOff : UInt64) (pg : PagedPage) :
    Triple FreshBlocks (fun w fs ↦ Inv w fs ∧ Holds pg pageOff w)
      (splitNoted env alloc retry pageOff pg) fun _ ↦ Inv := by
  have hstable := inv_stable.and (holds_stable pg pageOff)
  refine .bind FreshBlocks.earlier (hstable.note rfl fun w _ ha ↦ ?_) fun _ ↦ .fix fun w₀ ↦
    .given (p := Holds pg pageOff w₀) (A := fun w fs ↦ w = w₀ ∧ Inv w fs)
      (fun w fs h ↦ ⟨h.1 ▸ h.2.2, h.1, h.2.1⟩) fun hheld ↦
    .bind FreshBlocks.earlier (handOut_page halloc w₀) fun off ↦
      .ite (fun h0 ↦ .pure fun w fs _ h ↦ (h.1 h0).2) fun h0 ↦ ?_
  · rw [Event.Fine, Nat.zero_add]
    exact ha.2.sound.used
  refine .bind FreshBlocks.earlier (Triple.mono
    (deal_spec w₀ off (sound_more hheld.sound [.page off]) _ _) (fun w fs h ↦ ?_)
    fun _ _ _ h ↦ h) fun pgs ↦ ?_
  · exact ⟨(h.2 h0).2, (h.2 h0).1 ▸ List.prefix_rfl⟩
  refine .bind FreshBlocks.earlier
    (B := fun _ w fs ↦ Pending w₀ off w fs ∧ Sound w pgs.1 ∧ Sound w pgs.2)
    (.lift fun w fs _ fs' _ h hrun ↦ ⟨?_, h.2⟩) fun _ ↦ ?_
  · obtain ⟨-, rfl⟩ := Prod.mk.inj (Option.some.inj hrun)
    have hp := h.1
    refine ⟨⟨hp.under.fine, hp.under.copies.congr rfl fun _ _ _ _ ↦ rfl, fun o ho ↦ ?_⟩, hp.pages⟩
    obtain ⟨i, hi, rfl⟩ := List.mem_mapIdx.mp ho
    split
    · exact .inr hp.page
    · exact hp.under.dir _ (List.getElem_mem hi)
  refine .bind FreshBlocks.earlier (.discard FreshBlocks.earlier
    (C := fun w fs ↦ Inv w fs ∧ Page w pageOff ∧ Sound w pgs.1)
    (.lift fun w fs _ fs' hF h hrun ↦ ?_)) fun _ ↦ ?_
  · obtain ⟨-, hinv, -⟩ := h.1.store hio hF h.2.2 hrun
    exact ⟨hinv, h.1.pages ▸ .inl hheld.page, h.2.1⟩
  refine .bind FreshBlocks.earlier (B := fun _ w fs ↦ Inv w fs ∧ Page w pageOff ∧ Sound w pgs.1)
    (.lift fun w fs _ fs' hF h hrun ↦ ⟨(h.1.invalidate hio hF hrun).1, h.2⟩) fun _ ↦
    .bind FreshBlocks.earlier (B := fun _ ↦ Inv)
      (.lift fun w fs _ fs' hF h hrun ↦ h.1.writeback hio hF h.2.1 h.2.2 hrun) fun _ ↦ hretry

omit halloc hretry hio in
theorem dirDouble_spec (env : Env) (off : UInt64) :
    Triple FreshBlocks (fun w fs ↦ Inv w fs ∧ Page w off) (liftM (pagedDirDouble env))
      fun _ w fs ↦ Inv w fs ∧ Page w off := by
  refine .lift fun w fs ok fs' _ h hrun ↦ ⟨?_, h.2⟩
  simp only [pagedDirDouble, osAlloc, bind_apply, tick_apply, Option.bind_some, if_apply,
    modify_apply, pure_apply] at hrun
  split at hrun
  · obtain ⟨-, rfl⟩ := Prod.mk.inj (Option.some.inj hrun)
    refine ⟨h.1.fine, h.1.copies.congr rfl fun _ _ _ _ ↦ rfl, fun o ho ↦ h.1.dir o ?_⟩
    exact (List.mem_append.mp ho).elim id id
  · obtain ⟨-, rfl⟩ := Prod.mk.inj (Option.some.inj hrun)
    exact h.1.same rfl rfl rfl

theorem pageSplitAndRetry_spec (pageOff : UInt64) :
    Triple FreshBlocks (fun w fs ↦ Inv w fs ∧ Page w pageOff)
      (pageSplitAndRetryNoted env alloc retry pageOff) fun _ ↦ Inv := by
  refine .bind FreshBlocks.earlier (loadPage_spec hio pageOff) fun r ↦ ?_
  cases r with
  | none => exact .pure fun _ _ _ h ↦ h.1
  | some pg =>
    have hsplit (pg : PagedPage) := split_spec hio halloc hretry pageOff pg
    refine .bind FreshBlocks.earlier get_spec fun fs₀ ↦ .ite (fun _ ↦ .ite
      (fun _ ↦ .pure fun _ _ _ h ↦ h.1.1) fun _ ↦ ?_) fun _ ↦
      (hsplit pg).mono (fun _ _ h ↦ ⟨h.1.1, h.1.2.2 pg rfl⟩) fun _ _ _ h ↦ h
    refine .bind FreshBlocks.earlier ((dirDouble_spec env pageOff).mono
      (fun _ _ h ↦ ⟨h.1.1, h.1.2.1⟩) fun _ _ _ h ↦ h) fun ok ↦ .ite (fun _ ↦ ?_)
      fun _ ↦ .pure fun _ _ _ h ↦ h.1
    refine .bind FreshBlocks.earlier (loadPage_spec hio pageOff) fun r ↦ ?_
    cases r with
    | none => exact .pure fun _ _ _ h ↦ h.1
    | some pg => exact (hsplit pg).mono (fun _ _ h ↦ ⟨h.1, h.2.2 pg rfl⟩) fun _ _ _ h ↦ h

end split

end steps

end Xxfs.PageNotes

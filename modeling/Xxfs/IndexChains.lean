import Xxfs.IndexAlloc

namespace Xxfs.IndexAlloc

open Xxfs.DiskFormat Xxfs.Machine Xxfs.Allocator Xxfs.PageCache Xxfs.PagedIndex Xxfs.PageStore
open Xxfs.Hash Xxfs.Frames Xxfs.IndexRep Xxfs.Lib.Computation Xxfs.Lib.Computation.Comp

/-- The pages met from `o` on, up to the end of the chain. A chain that comes back to one of its
pages has no such list. -/
inductive ChainFrom (fs : Fs) : UInt64 → List UInt64 → Prop
  | stop : ChainFrom fs 0 []
  | page {o : UInt64} {l : List UInt64} (h0 : o ≠ 0)
      (h : ChainFrom fs (pageAt fs o).overflowNext l) : ChainFrom fs o (o :: l)

section chain

variable {fs : Fs} {o : UInt64} {l l' : List UInt64}

theorem ChainFrom.unique (h : ChainFrom fs o l) (h' : ChainFrom fs o l') : l = l' := by
  induction h generalizing l' with
  | stop =>
    cases h' with
    | stop => rfl
    | page h0 _ => exact absurd rfl h0
  | page h0 _ ih =>
    cases h' with
    | stop => exact absurd rfl h0
    | page _ h' => rw [ih h']

theorem ChainFrom.suffix {p : UInt64} {a b : List UInt64} (h : ChainFrom fs o (a ++ p :: b)) :
    ChainFrom fs p (p :: b) := by
  induction a generalizing o with
  | nil => cases h with | page h0 h => exact .page h0 h
  | cons x a ih => cases h with | page _ h => exact ih h

theorem ChainFrom.nodup (h : ChainFrom fs o l) : l.Nodup := by
  induction h with
  | stop => exact List.nodup_nil
  | @page o l h0 h ih =>
    refine List.nodup_cons.mpr ⟨fun hmem ↦ ?_, ih⟩
    -- a second visit of `o` would have two different lists behind it
    obtain ⟨a, b, rfl⟩ := List.append_of_mem hmem
    have hlist := h.suffix.unique (.page h0 h)
    have hlen := congrArg List.length hlist
    simp only [List.length_cons, List.length_append] at hlen
    omega

theorem ChainFrom.eq_zero (h : ChainFrom fs o []) : o = 0 := by
  cases h
  rfl

theorem ChainFrom.last {p : UInt64} (h : ChainFrom fs o l) (hp : l.getLast? = some p) :
    (pageAt fs p).overflowNext = 0 := by
  induction h with
  | stop => cases hp
  | @page o l h0 h ih =>
    cases l with
    | nil =>
      obtain rfl : o = p := by simpa using hp
      exact h.eq_zero
    | cons x l =>
      refine ih ?_
      rwa [List.getLast?_cons_cons] at hp

theorem ChainFrom.congr {fs' : Fs} (h : ChainFrom fs o l)
    (hp : ∀ x ∈ l, (pageAt fs' x).overflowNext = (pageAt fs x).overflowNext) :
    ChainFrom fs' o l := by
  induction h with
  | stop => exact .stop
  | page h0 _ ih =>
    refine .page h0 ?_
    rw [hp _ List.mem_cons_self]
    exact ih fun x hx ↦ hp x (List.mem_cons_of_mem _ hx)

end chain

/-- A page that a chain of the directory goes through. -/
def Used (fs : Fs) (o : UInt64) : Prop := ∃ h ∈ fs.pdir.pageOff, ∃ l, ChainFrom fs h l ∧ o ∈ l

/-- What an allocator leaves alone. -/
structure Kept (fs fs' : Fs) : Prop where
  pdir : fs'.pdir = fs.pdir
  pcache : fs'.pcache = fs.pcache
  data : fs'.img.data = fs.img.data

/-- Each call of the allocator fails or returns a fresh block, in whatever pattern. -/
def Fresh (alloc : FsM UInt64) : Prop := ∀ fs, ∃ off fs', alloc fs = some (off, fs') ∧ Kept fs fs' ∧
  (off ≠ 0 → Usable off ∧ ¬ Used fs off ∧ holds fs off = false)

section total

variable {env : Env} {alloc : FsM UInt64}

theorem Fresh.total (ha : Fresh alloc) : Total alloc := fun fs ↦
  let ⟨off, fs', h, _⟩ := ha fs
  ⟨off, fs', h⟩

theorem writeRecordBy_total (ha : Fresh alloc) (key : Path) (val : List UInt8) :
    Total (writeRecordBy env alloc key val) := by
  refine .bind ha.total fun _ ↦ .ite (.pure _) (.bind (.bind .get fun _ ↦ ?_) fun r ↦ ?_)
  · exact .ite (.pure _) (.bind (.bind tick_total fun _ ↦ .pure _) fun _ ↦ .ite (.pure _) (.pure _))
  · cases r with
    | none => exact .pure _
    | some _ => exact .bind (osPwrite_total env _ _ _) fun _ ↦ .ite (.pure _) (.pure _)

theorem appendSlotBy_total (ha : Fresh alloc) (pg : PagedPage) (off h : UInt64) (key : Path)
    (val : List UInt8) : Total (appendSlotBy env alloc pg off h key val) := by
  refine .ite (.bind (pageWriteback_total env _ _) fun _ ↦ .pure _)
    (.bind (writeRecordBy_total ha _ _) fun r ↦ ?_)
  cases r with
  | error rc => exact .bind (.bind .get fun _ ↦ .ite (.modify _) (.pure _)) fun _ ↦ .pure _
  | ok off => exact .bind (pageWriteback_total env _ _) fun _ ↦ .pure _

theorem updateSlotBy_total (ha : Fresh alloc) (pg : PagedPage) (off : UInt64) (i : ℕ) (key : Path)
    (val : List UInt8) : Total (updateSlotBy env alloc pg off i key val) := by
  refine .ite (.bind (pageWriteback_total env _ _) fun _ ↦ .pure _) (.ite ?_ ?_)
  · exact .bind (.bind (osPwrite_total env _ _ _) fun _ ↦ .pure _)
      fun _ ↦ .bind (pageWriteback_total env _ _) fun _ ↦ .pure _
  · refine .bind (writeRecordBy_total ha _ _) fun r ↦ ?_
    cases r with
    | error rc => exact .pure _
    | ok off => exact .bind (pageWriteback_total env _ _) fun _ ↦ .pure _

end total

/-- The directory and the pages of `ps` look the same. -/
structure Calm (ps : List UInt64) (fs fs' : Fs) : Prop where
  pdir : fs'.pdir = fs.pdir
  pages : ∀ o ∈ ps, pageAt fs' o = pageAt fs o

section calm

variable {ps : List UInt64} {fs fs₁ fs₂ : Fs}

theorem Calm.trans (h : Calm ps fs fs₁) (h' : Calm ps fs₁ fs₂) : Calm ps fs fs₂ :=
  ⟨h'.pdir.trans h.pdir, fun o ho ↦ (h'.pages o ho).trans (h.pages o ho)⟩

theorem calm_of_quiet (h : Quiet ps fs fs₁) : Calm ps fs fs₁ := ⟨h.pdir, h.pages⟩

theorem Kept.pageAt_eq (h : Kept fs fs₁) (o : UInt64) : pageAt fs₁ o = pageAt fs o :=
  pageAt_of_data h.pcache (fun _ _ i _ ↦ congrFun h.data i) (List.mem_singleton.mpr rfl)

theorem Kept.calm (h : Kept fs fs₁) (ps : List UInt64) : Calm ps fs fs₁ :=
  ⟨h.pdir, fun o _ ↦ h.pageAt_eq o⟩

theorem Kept.pagesOk (h : Kept fs fs₁) (hk : PagesOk fs ps) : PagesOk fs₁ ps :=
  hk.of_data h.pcache fun _ _ i _ ↦ congrFun h.data i

theorem Calm.chain (h : Calm ps fs fs₁) {o : UInt64} {l : List UInt64} (hc : ChainFrom fs o l)
    (hl : ∀ x ∈ l, x ∈ ps) : ChainFrom fs₁ o l :=
  hc.congr fun x hx ↦ by rw [h.pages x (hl x hx)]

theorem PagesOk.without {off : UInt64} (hk : PagesOk fs ps) (hf : holds fs off = false) :
    PagesOk fs (ps.filter (· ≠ off)) := by
  refine ⟨fun o ho ↦ hk.usable o (List.mem_of_mem_filter ho), fun i pg hp ↦ ?_, hk.slot, hk.clean⟩
  refine List.mem_filter.mpr ⟨hk.mem i pg hp, decide_eq_true fun hoff ↦ ?_⟩
  have hidx := hk.slot i pg hp
  rw [hoff] at hidx
  subst hidx
  simp [holds, hoff, hp] at hf

end calm

theorem not_mem_chain {fs : Fs} {head off : UInt64} {l : List UInt64}
    (hd : head ∈ fs.pdir.pageOff) (hw : ChainFrom fs head l) (hf : ¬ Used fs off) : off ∉ l :=
  fun hmem ↦ hf ⟨head, hd, l, hw, hmem⟩

section walk

variable {env : Env} (he : Healthy env) {alloc : FsM UInt64} (ha : Fresh alloc)
include he

theorem newPage_parts {fs : Fs} {ps : List UInt64} {off : UInt64} (hk : PagesOk fs ps)
    (hu : Usable off) (ho : off ∉ ps) (pg : PagedPage) : ∃ fs₁ fs',
      osPwrite env pg.encode pageSize off fs = some (true, fs₁) ∧
      pageCacheInvalidate env off fs₁ = some ((), fs') ∧ PagesOk fs' (ps ++ [off]) ∧
      Stored ps off pg fs fs' := by
  obtain ⟨fs', hrun, hk', hs⟩ := newPage_apply he hk hu ho pg
  have hb := hu.bound
  have hw := he.osPwrite_apply fs pg.encode pageSize (show off.toNat < 2 ^ 63 by omega)
  rw [bind_apply, hw, Option.bind_some] at hrun
  obtain ⟨u, fs₂, hi, hret⟩ := of_bind hrun
  obtain ⟨-, rfl⟩ := Prod.mk.inj (Option.some.inj hret)
  exact ⟨_, fs₂, hw, hi, hk', hs⟩

include ha

theorem putWalkBy_empty {fs : Fs} {ps : List UInt64} {o : UInt64} {depth : UInt16}
    (hk : PagesOk fs ps) (ho : o ∈ ps) (h0 : o ≠ 0) (hpg : pageAt fs o = emptyPage depth)
    (h : UInt64) (key : Path) (val : List UInt8) (n : ℕ) :
    ∃ r, ∀ split, putWalkBy env alloc split h key val (n + 1) o fs = some r := by
  obtain ⟨fs₁, hload, -, -⟩ := pageLoad_apply he hk ho
  obtain ⟨rc, fs₂, happ⟩ := @appendSlotBy_total env _ ha (emptyPage depth) o h key val fs₁
  refine ⟨(rc, fs₂), fun split ↦ ?_⟩
  have hfind : findSlot (emptyPage depth) h key = none := rfl
  rw [putWalkBy, if_neg h0, bind_apply, hload, Option.bind_some, hpg]
  dsimp only
  rw [hfind]
  exact happ

/-- `addOverflowBy` on a full page: no block, or an empty page behind it. -/
theorem addOverflowBy_apply {fs : Fs} {ps : List UInt64} {head o : UInt64} {l : List UInt64}
    (hk : PagesOk fs ps) (hd : head ∈ fs.pdir.pageOff) (hw : ChainFrom fs head l) (ho : o ∈ l)
    (hl : ∀ x ∈ l, x ∈ ps) (pg : PagedPage) :
    (∃ fs₁, addOverflowBy env alloc pg o fs = some (none, fs₁) ∧ PagesOk fs₁ ps ∧
      Calm ps fs fs₁) ∨
    ∃ off fs₁ qs, addOverflowBy env alloc pg o fs = some (some (.ok off), fs₁) ∧ off ≠ 0 ∧
      PagesOk fs₁ qs ∧ off ∈ qs ∧ pageAt fs₁ off = emptyPage pg.localDepth := by
  obtain ⟨off, fs₁, halloc, hkept, hfresh⟩ := ha fs
  by_cases h0 : off = 0
  · refine .inl ⟨fs₁, ?_, hkept.pagesOk hk, hkept.calm ps⟩
    rw [addOverflowBy, bind_apply, halloc, Option.bind_some, if_pos h0]
    rfl
  · obtain ⟨husable, hunused, hcold⟩ := hfresh h0
    have hmem : o ∈ ps.filter (· ≠ off) := by
      refine List.mem_filter.mpr ⟨hl o ho, decide_eq_true ?_⟩
      rintro rfl
      exact not_mem_chain hd hw hunused ho
    obtain ⟨fs₂, hback, hk₂, -⟩ := pageWriteback_apply he
      (hkept.pagesOk (PagesOk.without hk hcold)) hmem { pg with overflowNext := off }
    obtain ⟨fs₃, fs₄, hwrite, hinv, hk₄, hs₄⟩ := newPage_parts he hk₂ husable
      (fun hc ↦ by simp at hc) (emptyPage pg.localDepth)
    refine .inr ⟨off, fs₄, _, ?_, h0, hk₄, List.mem_append_right _ List.mem_cons_self, hs₄.page⟩
    rw [addOverflowBy, bind_apply, halloc, Option.bind_some, if_neg h0, bind_apply, hback,
      Option.bind_some, bind_apply, hwrite, Option.bind_some, if_pos rfl, bind_apply, hinv]
    rfl

/-- What the walk does at a page; `next` is the rest of the walk. -/
def putPageBy (env : Env) (alloc : FsM UInt64) (split : UInt64 → FsM Rc) (h : UInt64) (key : Path)
    (val : List UInt8) (next : UInt64 → FsM Rc) (pg : PagedPage) (o : UInt64) : FsM Rc :=
  match findSlot pg h key with
  | some i => updateSlotBy env alloc pg o i key val
  | none =>
    if pg.count.toNat ≥ slotsPerPage then
      if pg.overflowNext = 0 then do
        match ← addOverflowBy env alloc pg o with
        | none => split o
        | some (.error rc) => return rc
        | some (.ok off) => next off
      else next pg.overflowNext
    else appendSlotBy env alloc pg o h key val

/-- The walk along a chain ends, or it calls the split on the last page, which is full. -/
theorem putWalkBy_chain {ps : List UInt64} {head : UInt64} (h : UInt64) (key : Path)
    (val : List UInt8) (pre l : List UInt64) {o : UInt64} {fs : Fs} {n : ℕ}
    (hd : head ∈ fs.pdir.pageOff) (hw : ChainFrom fs head (pre ++ l)) (hc : ChainFrom fs o l)
    (hk : PagesOk fs ps) (hl : ∀ x ∈ pre ++ l, x ∈ ps) (hn : l.length + 1 < n) :
    (∃ r, ∀ split, putWalkBy env alloc split h key val n o fs = some r) ∨
    ∃ p fs₁, l.getLast? = some p ∧ PagesOk fs₁ ps ∧ Calm ps fs fs₁ ∧
      slotsPerPage ≤ (pageAt fs p).count.toNat ∧
      ∀ split, putWalkBy env alloc split h key val n o fs = split p fs₁ := by
  induction l generalizing pre o fs n with
  | nil =>
    cases hc
    obtain ⟨n, rfl⟩ : ∃ m, n = m + 1 := ⟨n - 1, by omega⟩
    exact .inl ⟨(.enospc, fs), fun split ↦ by rw [putWalkBy, if_pos rfl]; rfl⟩
  | cons o' l ih =>
    obtain ⟨n, rfl⟩ : ∃ m, n = m + 2 := ⟨n - 2, by simp only [List.length_cons] at hn; omega⟩
    obtain ⟨h0, hnext⟩ : o ≠ 0 ∧ ChainFrom fs (pageAt fs o).overflowNext l := by
      cases hc with | page h0 hc => exact ⟨h0, hc⟩
    obtain rfl : o = o' := by cases hc; rfl
    have ho : o ∈ pre ++ o :: l := List.mem_append_right _ List.mem_cons_self
    obtain ⟨fs₁, hload, hk₁, hq₁⟩ := pageLoad_apply he hk (hl o ho)
    have hcalm := calm_of_quiet hq₁
    have hd₁ : head ∈ fs₁.pdir.pageOff := by rwa [hcalm.pdir]
    have hw₁ := hcalm.chain hw hl
    have hstep (split : UInt64 → FsM Rc) :
        putWalkBy env alloc split h key val (n + 2) o fs =
          putPageBy env alloc split h key val (putWalkBy env alloc split h key val (n + 1))
            (pageAt fs o) o fs₁ := by
      rewrite [putWalkBy, if_neg h0, bind_apply, hload, Option.bind_some]
      rfl
    cases hfind : findSlot (pageAt fs o) h key with
    | some i =>
      obtain ⟨rc, fs₂, hup⟩ := @updateSlotBy_total env _ ha (pageAt fs o) o i key val fs₁
      exact .inl ⟨(rc, fs₂), fun split ↦ by rw [hstep, putPageBy, hfind]; exact hup⟩
    | none =>
      by_cases hfull : (pageAt fs o).count.toNat ≥ slotsPerPage
      · by_cases hlast : (pageAt fs o).overflowNext = 0
        · -- the last page: a page behind it, or the split
          rw [hlast] at hnext
          obtain rfl : l = [] := by
            cases hnext with
            | stop => rfl
            | page h0 _ => exact absurd rfl h0
          rcases addOverflowBy_apply he ha hk₁ hd₁ hw₁ ho hl (pageAt fs o) with
            ⟨fs₂, hadd, hk₂, hcalm₂⟩ | ⟨off, fs₂, qs, hadd, hoff, hk₂, hmem, hpage⟩
          · refine .inr ⟨o, fs₂, rfl, hk₂, hcalm.trans hcalm₂, hfull, fun split ↦ ?_⟩
            rw [hstep, putPageBy, hfind]
            simp only [if_pos hfull, if_pos hlast, bind_apply, hadd, Option.bind_some]
          · obtain ⟨r, hr⟩ := putWalkBy_empty he ha hk₂ hmem hoff hpage h key val n
            refine .inl ⟨r, fun split ↦ ?_⟩
            rw [hstep, putPageBy, hfind]
            simp only [if_pos hfull, if_pos hlast, bind_apply, hadd, Option.bind_some]
            exact hr split
        · have happ : pre ++ o :: l = (pre ++ [o]) ++ l := by simp
          rw [happ] at hw₁ hl
          have hsub (x : UInt64) (hx : x ∈ l) : x ∈ ps := hl x (List.mem_append_right _ hx)
          rcases ih (pre ++ [o]) hd₁ hw₁ (hcalm.chain hnext hsub) hk₁ hl
            (n := n + 1) (by simp only [List.length_cons] at hn; omega) with
            ⟨r, hr⟩ | ⟨p, fs₂, hp, hk₂, hcalm₂, hcount, hr⟩
          · exact .inl ⟨r, fun split ↦ by
              rw [hstep, putPageBy, hfind]
              simp only [if_pos hfull, if_neg hlast]
              exact hr split⟩
          · have hpl : p ∈ l := List.mem_of_getLast? hp
            rw [hcalm.pages p (hsub p hpl)] at hcount
            refine .inr ⟨p, fs₂, ?_, hk₂, hcalm.trans hcalm₂, hcount, fun split ↦ ?_⟩
            · rw [List.getLast?_cons, hp]
              rfl
            · rw [hstep, putPageBy, hfind]
              simp only [if_pos hfull, if_neg hlast]
              exact hr split
      · obtain ⟨rc, fs₂, happ⟩ := @appendSlotBy_total env _ ha (pageAt fs o) o h key val fs₁
        refine .inl ⟨(rc, fs₂), fun split ↦ ?_⟩
        rw [hstep, putPageBy, hfind]
        simp only [if_neg hfull]
        exact happ

end walk

end Xxfs.IndexAlloc

import Xxfs.DirDoubling
import Xxfs.FreshIndex
import Xxfs.IndexChains

namespace Xxfs.IndexAlloc

open Xxfs.DiskFormat Xxfs.Machine Xxfs.Allocator Xxfs.PageCache Xxfs.PagedIndex Xxfs.PageStore
open Xxfs.Hash Xxfs.Frames Xxfs.IndexRep Xxfs.Volume Xxfs.FreshVolume Xxfs.FreshIndex
open Xxfs.DirDoubling
open Xxfs.Lib.Computation Xxfs.Lib.Computation.Comp

section halves

theorem redistribute_shape (depth : UInt8) (bit : ℕ) (old : PagedPage) (l : List ℕ)
    (pgs : PagedPage × PagedPage) :
    (l.foldl (redistribute depth bit old) pgs).1.localDepth = pgs.1.localDepth ∧
    (l.foldl (redistribute depth bit old) pgs).1.overflowNext = pgs.1.overflowNext ∧
    (l.foldl (redistribute depth bit old) pgs).2.localDepth = pgs.2.localDepth ∧
    (l.foldl (redistribute depth bit old) pgs).2.overflowNext = pgs.2.overflowNext := by
  induction l generalizing pgs with
  | nil => exact ⟨rfl, rfl, rfl, rfl⟩
  | cons i l ih =>
    rw [List.foldl_cons]
    obtain ⟨h₁, h₂, h₃, h₄⟩ := ih (redistribute depth bit old pgs i)
    rw [h₁, h₂, h₃, h₄]
    unfold redistribute
    dsimp only
    split <;> split <;> exact ⟨rfl, rfl, rfl, rfl⟩

variable {pg : PagedPage} (hd : pg.localDepth.toNat < 20)
include hd

theorem depth_succ : (pg.localDepth + 1).toUInt8.toNat = pg.localDepth.toNat + 1 := by
  rw [UInt16.toNat_toUInt8, UInt16.toNat_add]
  have h1 : (1 : UInt16).toNat = 1 := rfl
  rw [h1]
  omega

theorem halves_fst : (halves pg).1.localDepth.toNat = pg.localDepth.toNat + 1 ∧
    (halves pg).1.overflowNext = 0 := by
  obtain ⟨h₁, h₂, -, -⟩ := redistribute_shape (pg.localDepth + 1).toUInt8
    (2 ^ ((pg.localDepth + 1).toUInt8.toNat - 1)) pg (List.range pg.count.toNat) _
  refine ⟨?_, h₂⟩
  rw [halves, h₁]
  exact (UInt8.toNat_toUInt16 _).trans (depth_succ hd)

theorem halves_snd : (halves pg).2.localDepth.toNat = pg.localDepth.toNat + 1 ∧
    (halves pg).2.overflowNext = 0 := by
  obtain ⟨-, -, h₃, h₄⟩ := redistribute_shape (pg.localDepth + 1).toUInt8
    (2 ^ ((pg.localDepth + 1).toUInt8.toNat - 1)) pg (List.range pg.count.toNat) _
  refine ⟨?_, h₄⟩
  rw [halves, h₃]
  exact (UInt8.toNat_toUInt16 _).trans (depth_succ hd)

end halves

/-- What the recursion needs of the index: the chain `l` of the directory slot `idx` among the
pages `ps`. -/
structure Bucket (fs : Fs) (ps : List UInt64) (idx : ℕ) (l : List UInt64) : Prop where
  size : fs.pdir.pageOff.length = 2 ^ fs.pdir.globalDepth.toNat
  depth : fs.pdir.globalDepth.toNat ≤ 20
  inside : idx < fs.pdir.pageOff.length
  pages : PagesOk fs ps
  chain : ChainFrom fs (fs.pdir.pageOff.getD idx 0) l
  sub : ∀ x ∈ l, x ∈ ps
  shallow : ∀ x ∈ l, (pageAt fs x).localDepth.toNat ≤ fs.pdir.globalDepth.toNat

section bucket

variable {fs : Fs} {ps : List UInt64} {idx : ℕ} {l : List UInt64}

theorem Bucket.calm {fs' : Fs} (h : Bucket fs ps idx l) (hk : PagesOk fs' ps)
    (hc : Calm ps fs fs') : Bucket fs' ps idx l := by
  refine ⟨by rw [hc.pdir, h.size], by rw [hc.pdir]; exact h.depth, by rw [hc.pdir]; exact h.inside,
    hk, ?_, h.sub, fun x hx ↦ ?_⟩
  · rw [hc.pdir]
    exact hc.chain h.chain h.sub
  · rw [hc.pages x (h.sub x hx), hc.pdir]
    exact h.shallow x hx

theorem Bucket.head_mem (h : Bucket fs ps idx l) :
    fs.pdir.pageOff.getD idx 0 ∈ fs.pdir.pageOff := by
  rw [List.getD_eq_getElem _ _ h.inside]
  exact List.getElem_mem _

theorem Bucket.length_lt (h : Bucket fs ps idx l) : l.length + 1 < walkFuel := by
  have hle := length_le_of_nodup h.chain.nodup (n := 2 ^ 63) fun o ho ↦ by
    have := (h.pages.usable o (h.sub o ho)).bound
    omega
  have hpow : (2 : ℕ) ^ 63 + 1 < 2 ^ 64 := by decide
  rw [walkFuel]
  omega

variable {env : Env} (he : Healthy env) {alloc : FsM UInt64} (ha : Fresh alloc)
include he ha

/-- The split of the last page of the chain: no block is left, or the retry finds a chain whose
last page is one bit deeper. -/
theorem splitBy_apply (hb : Bucket fs ps idx l) {p : UInt64} (hp : l.getLast? = some p)
    (hd : (pageAt fs p).localDepth.toNat < fs.pdir.globalDepth.toNat) :
    (∃ r, ∀ retry, splitBy env alloc retry p (pageAt fs p) fs = some r) ∨
    ∃ fs' ps' l' p', Bucket fs' ps' idx l' ∧ l'.getLast? = some p' ∧
      (pageAt fs' p').localDepth.toNat = (pageAt fs p).localDepth.toNat + 1 ∧
      fs'.pdir.globalDepth = fs.pdir.globalDepth ∧
      ∀ retry, splitBy env alloc retry p (pageAt fs p) fs = retry fs' := by
  have hmax := hb.depth
  obtain ⟨off, fs₁, halloc, hkept, hfresh⟩ := ha fs
  by_cases h0 : off = 0
  · refine .inl ⟨(.enospc, fs₁), fun retry ↦ ?_⟩
    rw [splitBy, bind_apply, halloc, Option.bind_some, if_pos h0]
    rfl
  obtain ⟨husable, hunused, hcold⟩ := hfresh h0
  have hpl : p ∈ l := List.mem_of_getLast? hp
  have hoff : off ∉ l := not_mem_chain hb.head_mem hb.chain hunused
  have hmem (x : UInt64) (hx : x ∈ l) : x ∈ ps.filter (· ≠ off) :=
    List.mem_filter.mpr ⟨hb.sub x hx, decide_eq_true fun hxo ↦ hoff (hxo ▸ hx)⟩
  have hk₁ := hkept.pagesOk (PagesOk.without hb.pages hcold)
  -- the directory, the new page, the old page
  obtain ⟨fs₂, hfs₂⟩ : ∃ fs₂ : Fs, fs₂ = { fs₁ with
    pdir.pageOff := fs₁.pdir.pageOff.mapIdx fun i x ↦
      if x = p ∧ i &&& 2 ^ (((pageAt fs p).localDepth + 1).toUInt8.toNat - 1) ≠ 0 then off
      else x } := ⟨_, rfl⟩
  have hk₂ : PagesOk fs₂ (ps.filter (· ≠ off)) :=
    hk₁.of_data (by rw [hfs₂]) fun _ _ _ _ ↦ by rw [hfs₂]
  obtain ⟨fs₃, fs₄, hwrite, hinv, hk₄, hs₄⟩ := newPage_parts he hk₂ husable
    (fun hc ↦ by simp at hc) (halves (pageAt fs p)).2
  obtain ⟨fs₅, hback, hk₅, hs₅⟩ := pageWriteback_apply he hk₄
    (List.mem_append_left _ (hmem p hpl)) (halves (pageAt fs p)).1
  have hpage (x : UInt64) (hx : x ∈ l) (hxp : x ≠ p) : pageAt fs₅ x = pageAt fs x := by
    rw [hs₅.pages x (List.mem_append_left _ (hmem x hx)) hxp,
      hs₄.pages x (hmem x hx) fun hxo ↦ hoff (hxo ▸ hx), ← hkept.pageAt_eq x, hfs₂]
    rfl
  have hnew : pageAt fs₅ off = (halves (pageAt fs p)).2 := by
    rw [hs₅.pages off (List.mem_append_right _ List.mem_cons_self) fun hop ↦ hoff (hop ▸ hpl),
      hs₄.page]
  have hdir : fs₅.pdir = fs₂.pdir := hs₅.pdir.trans hs₄.pdir
  have hdepth : fs₅.pdir.globalDepth = fs.pdir.globalDepth := by
    rw [hdir, hfs₂, ← hkept.pdir]
  have hlen : fs₅.pdir.pageOff.length = fs.pdir.pageOff.length := by
    rw [hdir, hfs₂, ← hkept.pdir]
    simp
  have hslot : fs₅.pdir.pageOff.getD idx 0 =
      if fs.pdir.pageOff.getD idx 0 = p ∧
        idx &&& 2 ^ (((pageAt fs p).localDepth + 1).toUInt8.toNat - 1) ≠ 0 then off
      else fs.pdir.pageOff.getD idx 0 := by
    have hin := hb.inside
    rw [hdir, hfs₂, hkept.pdir, List.getD_eq_getElem _ _ (by simpa using hin),
      List.getD_eq_getElem _ _ hin]
    simp
  have hrun (retry : FsM Rc) : splitBy env alloc retry p (pageAt fs p) fs = retry fs₅ := by
    rw [splitBy, bind_apply, halloc, Option.bind_some, if_neg h0, bind_apply]
    simp only [modify_apply, Option.bind_some]
    rw [← hfs₂, bind_apply, discard_apply, hwrite, Option.bind_some, Option.bind_some, bind_apply,
      hinv, Option.bind_some, bind_apply, hback, Option.bind_some]
  obtain ⟨hfst, hfst0⟩ := halves_fst (show (pageAt fs p).localDepth.toNat < 20 by omega)
  obtain ⟨hsnd, hsnd0⟩ := halves_snd (show (pageAt fs p).localDepth.toNat < 20 by omega)
  refine .inr ?_
  by_cases hmove : fs.pdir.pageOff.getD idx 0 = p ∧
      idx &&& 2 ^ (((pageAt fs p).localDepth + 1).toUInt8.toNat - 1) ≠ 0
  · rw [if_pos hmove] at hslot
    refine ⟨fs₅, _, [off], off, ⟨?_, ?_, ?_, hk₅, ?_, ?_, ?_⟩, rfl, ?_, hdepth, hrun⟩
    · rw [hlen, hdepth, hb.size]
    · rw [hdepth]
      exact hmax
    · rw [hlen]
      exact hb.inside
    · rw [hslot]
      refine .page h0 ?_
      rw [hnew, hsnd0]
      exact .stop
    · intro x hx
      rw [List.mem_singleton.mp hx]
      exact List.mem_append_right _ List.mem_cons_self
    · intro x hx
      rw [List.mem_singleton.mp hx, hnew, hdepth]
      omega
    · rw [hnew, hsnd]
  · rw [if_neg hmove] at hslot
    refine ⟨fs₅, _, l, p, ⟨?_, ?_, ?_, hk₅, ?_, ?_, ?_⟩, hp, ?_, hdepth, hrun⟩
    · rw [hlen, hdepth, hb.size]
    · rw [hdepth]
      exact hmax
    · rw [hlen]
      exact hb.inside
    · rw [hslot]
      refine hb.chain.congr fun x hx ↦ ?_
      by_cases hxp : x = p
      · rw [hxp, hs₅.page, hfst0, hb.chain.last hp]
      · rw [hpage x hx hxp]
    · exact fun x hx ↦ List.mem_append_left _ (hmem x hx)
    · intro x hx
      rw [hdepth]
      by_cases hxp : x = p
      · rw [hxp, hs₅.page]
        omega
      · rw [hpage x hx hxp]
        exact hb.shallow x hx
    · rw [hs₅.page, hfst]

end bucket

section recursion

variable {fs : Fs} {ps : List UInt64} {l : List UInt64} {env : Env} (he : Healthy env)
variable {alloc : FsM UInt64} (ha : Fresh alloc) (key : Path) (val : List UInt8)

/-- The bucket of the key in the directory of `fs`. -/
abbrev KeyBucket (fs : Fs) (ps : List UInt64) (key : Path) (l : List UInt64) : Prop :=
  Bucket fs ps (dirIndex (xxh64 key) fs.pdir.globalDepth) l

include he in
theorem pagedDirDouble_apply : pagedDirDouble env fs = some (true, { fs with
    pdir := ⟨fs.pdir.pageOff ++ fs.pdir.pageOff, fs.pdir.globalDepth + 1⟩
    clock := fs.clock + 1 }) := by
  rw [pagedDirDouble, bind_apply, he.osAlloc_apply, Option.bind_some, if_pos rfl]
  rfl

variable {key} in
theorem Bucket.doubled (hb : KeyBucket fs ps key l) (hg : fs.pdir.globalDepth.toNat < 20) (c : ℕ) :
    KeyBucket { fs with
      pdir := ⟨fs.pdir.pageOff ++ fs.pdir.pageOff, fs.pdir.globalDepth + 1⟩, clock := c } ps key l := by
  have hg' : (fs.pdir.globalDepth + 1).toNat = fs.pdir.globalDepth.toNat + 1 := by
    have h1 : (1 : UInt8).toNat = 1 := rfl
    rw [UInt8.toNat_add, h1]
    omega
  have hidx := dirIndex_eq (xxh64 key)
    (show (fs.pdir.globalDepth + 1).toNat ≤ 32 by omega)
  rw [hg'] at hidx
  have hsize := hb.size
  refine ⟨?_, ?_, ?_, hb.pages.of_data rfl fun _ _ _ _ ↦ rfl, ?_, hb.sub, fun x hx ↦ ?_⟩
  · dsimp only
    rw [List.length_append, hsize, hg', Nat.pow_succ]
    omega
  · dsimp only
    omega
  · dsimp only
    rw [hidx, List.length_append, hsize, ← Nat.two_mul, ← Nat.pow_succ']
    exact Nat.mod_lt _ (Nat.two_pow_pos _)
  · dsimp only
    rw [hidx, List.getD_eq_getElem?_getD, getElem?_doubled _ hsize, ← List.getD_eq_getElem?_getD,
      ← dirIndex_eq _ (hb.depth.trans (by decide))]
    exact hb.chain.congr fun _ _ ↦ rfl
  · dsimp only
    rw [hg']
    exact (hb.shallow x hx).trans (Nat.le_succ _)

include he ha

/-- One call of `page_split_and_retry` on the last page of the key's chain. -/
theorem pageSplitAndRetryBy_apply (hb : KeyBucket fs ps key l) {p : UInt64}
    (hp : l.getLast? = some p) :
    (∃ r, ∀ retry, pageSplitAndRetryBy env alloc retry p fs = some r) ∨
    (pageAt fs p).localDepth.toNat < 20 ∧
      ∃ fs' ps' l' p', KeyBucket fs' ps' key l' ∧ l'.getLast? = some p' ∧
        (pageAt fs' p').localDepth.toNat = (pageAt fs p).localDepth.toNat + 1 ∧
        ∀ retry, pageSplitAndRetryBy env alloc retry p fs = retry fs' := by
  have hps := hb.sub p (List.mem_of_getLast? hp)
  obtain ⟨fs₁, hload, hk₁, hq₁⟩ := pageLoad_apply he hb.pages hps
  have hc₁ := calm_of_quiet hq₁
  have hb₁ : KeyBucket fs₁ ps key l := by
    have h := hb.calm hk₁ hc₁
    rwa [← hc₁.pdir] at h
  have hpage₁ : pageAt fs₁ p = pageAt fs p := hc₁.pages p hps
  -- both ways into the split end alike
  have hfinish {fs₂ : Fs} (hb₂ : KeyBucket fs₂ ps key l) (hpage : pageAt fs₂ p = pageAt fs p)
      (hlt : (pageAt fs p).localDepth.toNat < fs₂.pdir.globalDepth.toNat)
      (hrun : ∀ retry, pageSplitAndRetryBy env alloc retry p fs =
        splitBy env alloc retry p (pageAt fs p) fs₂) :
      (∃ r, ∀ retry, pageSplitAndRetryBy env alloc retry p fs = some r) ∨
      (pageAt fs p).localDepth.toNat < 20 ∧
        ∃ fs' ps' l' p', KeyBucket fs' ps' key l' ∧ l'.getLast? = some p' ∧
          (pageAt fs' p').localDepth.toNat = (pageAt fs p).localDepth.toNat + 1 ∧
          ∀ retry, pageSplitAndRetryBy env alloc retry p fs = retry fs' := by
    rcases splitBy_apply he ha hb₂ hp (by rwa [hpage]) with
      ⟨r, hr⟩ | ⟨fs', ps', l', p', hb', hp', hdepth', hg', hr⟩
    · rw [hpage] at hr
      exact .inl ⟨r, fun retry ↦ (hrun retry).trans (hr retry)⟩
    · rw [hpage] at hr hdepth'
      rw [← hg'] at hb'
      exact .inr ⟨hlt.trans_le hb₂.depth, fs', ps', l', p', hb', hp', hdepth',
        fun retry ↦ (hrun retry).trans (hr retry)⟩
  by_cases hd : (pageAt fs p).localDepth.toNat ≥ fs₁.pdir.globalDepth.toNat
  · by_cases hg : fs₁.pdir.globalDepth.toNat ≥ 20
    · refine .inl ⟨(.enospc, fs₁), fun retry ↦ ?_⟩
      rw [pageSplitAndRetryBy, bind_apply, hload, Option.bind_some]
      simp only [bind_apply, get_apply, Option.bind_some, if_pos hd, if_pos hg]
      rfl
    · have hb₂ := Bucket.doubled hb₁ (Nat.lt_of_not_le hg) (fs₁.clock + 1)
      obtain ⟨fs₃, hload₃, hk₃, hq₃⟩ := pageLoad_apply he hb₂.pages hps
      have hc₃ := calm_of_quiet hq₃
      have hb₃ : KeyBucket fs₃ ps key l := by
        have h := hb₂.calm hk₃ hc₃
        rwa [← hc₃.pdir] at h
      have hpage₃ : pageAt fs₃ p = pageAt fs p := (hc₃.pages p hps).trans hpage₁
      have hpage₂ : pageAt { fs₁ with
          pdir := ⟨fs₁.pdir.pageOff ++ fs₁.pdir.pageOff, fs₁.pdir.globalDepth + 1⟩
          clock := fs₁.clock + 1 } p = pageAt fs p := hpage₁
      rw [hpage₂] at hload₃
      have hrun (retry : FsM Rc) : pageSplitAndRetryBy env alloc retry p fs =
          splitBy env alloc retry p (pageAt fs p) fs₃ := by
        rw [pageSplitAndRetryBy, bind_apply, hload, Option.bind_some]
        simp only [bind_apply, get_apply, Option.bind_some, if_pos hd, if_neg hg,
          pagedDirDouble_apply he, if_pos, hload₃]
      refine hfinish hb₃ hpage₃ ?_ hrun
      have hshallow := hb₁.shallow p (List.mem_of_getLast? hp)
      have h1 : (1 : UInt8).toNat = 1 := rfl
      rw [hpage₁] at hshallow
      rw [hc₃.pdir, UInt8.toNat_add, h1]
      omega
  · have hrun (retry : FsM Rc) : pageSplitAndRetryBy env alloc retry p fs =
        splitBy env alloc retry p (pageAt fs p) fs₁ := by
      rw [pageSplitAndRetryBy, bind_apply, hload, Option.bind_some]
      simp only [bind_apply, get_apply, Option.bind_some, if_neg hd]
    exact hfinish hb₁ hpage₁ (Nat.lt_of_not_le hd) hrun

omit he ha in
theorem ensureBucketBy_used (hb : KeyBucket fs ps key l) :
    ensureBucketBy env alloc (dirIndex (xxh64 key) fs.pdir.globalDepth) fs = some (.ok, fs) := by
  have hne : fs.pdir.pageOff.getD (dirIndex (xxh64 key) fs.pdir.globalDepth) 0 ≠
      0xFFFFFFFFFFFFFFFF := by
    intro heq
    have hc := hb.chain
    rw [heq] at hc
    cases hc with
    | page h0 hc =>
      have hbound := (hb.pages.usable _ (hb.sub _ List.mem_cons_self)).bound
      exact absurd hbound (by decide)
  simp only [ensureBucketBy, bind_apply, get_apply, Option.bind_some, if_neg hne]
  rfl

/-- One call of `paged_put`: it returns, or calls the split on the last page of the chain. -/
theorem putOnce_apply (hb : KeyBucket fs ps key l) :
    (∃ r, ∀ split, putOnce env alloc split key val fs = some r) ∨
    ∃ p fs₁, l.getLast? = some p ∧ KeyBucket fs₁ ps key l ∧ pageAt fs₁ p = pageAt fs p ∧
      ∀ split, putOnce env alloc split key val fs = split p fs₁ := by
  obtain ⟨fs₀, hfs₀⟩ : ∃ fs₀ : Fs, fs₀ = { fs with passed := val :: fs.passed } := ⟨_, rfl⟩
  have hc₀ : Calm ps fs fs₀ := by
    rw [hfs₀]
    exact ⟨rfl, fun _ _ ↦ rfl⟩
  have hk₀ : PagesOk fs₀ ps := by
    rw [hfs₀]
    exact hb.pages.of_data rfl fun _ _ _ _ ↦ rfl
  have hb₀ : KeyBucket fs₀ ps key l := by
    have h := hb.calm hk₀ hc₀
    rwa [← hc₀.pdir] at h
  have hrun (split : UInt64 → FsM Rc) : putOnce env alloc split key val fs =
      putWalkBy env alloc split (xxh64 key) key val walkFuel
        (fs₀.pdir.pageOff.getD (dirIndex (xxh64 key) fs₀.pdir.globalDepth) 0) fs₀ := by
    rw [putOnce, bind_apply, notePassed_apply, Option.bind_some, ← hfs₀]
    simp only [bind_apply, get_apply, Option.bind_some, ensureBucketBy_used key hb₀]
  rcases putWalkBy_chain he ha (xxh64 key) key val [] l hb₀.head_mem hb₀.chain hb₀.chain hk₀
    hb₀.sub hb₀.length_lt with ⟨r, hr⟩ | ⟨p, fs₁, hp, hk₁, hc₁, -, hr⟩
  · exact .inl ⟨r, fun split ↦ (hrun split).trans (hr split)⟩
  · have hb₁ : KeyBucket fs₁ ps key l := by
      have h := hb₀.calm hk₁ hc₁
      rwa [← hc₁.pdir] at h
    have hpage := (hc₀.trans hc₁).pages p (hb.sub p (List.mem_of_getLast? hp))
    exact .inr ⟨p, fs₁, hp, hb₁, hpage, fun split ↦ (hrun split).trans (hr split)⟩

/-- With `k` bits left above the depth of the last page, `k + 1` splits are enough. -/
theorem putWithin_bucket (k : ℕ) (hb : KeyBucket fs ps key l)
    (hlast : ∀ p, l.getLast? = some p → 20 ≤ (pageAt fs p).localDepth.toNat + k) :
    ∃ r, putWithin env alloc key val (k + 1) fs = some r ∧
      ∀ n, k + 1 < n → pagedPutBy env alloc key val n fs = some r := by
  induction k generalizing fs ps l with
  | zero =>
    rcases putOnce_apply he ha key val hb with ⟨r, hr⟩ | ⟨p, fs₁, hp, hb₁, hpage, hr⟩
    · refine ⟨r, hr _, fun n hn ↦ ?_⟩
      obtain ⟨n, rfl⟩ : ∃ m, n = m + 1 := ⟨n - 1, by omega⟩
      exact hr _
    · have hdeep := hlast p hp
      rcases pageSplitAndRetryBy_apply he ha key hb₁ hp with ⟨r, hs⟩ | ⟨hlt, -⟩
      · refine ⟨r, (hr _).trans (hs _), fun n hn ↦ ?_⟩
        obtain ⟨n, rfl⟩ : ∃ m, n = m + 1 := ⟨n - 1, by omega⟩
        exact (hr _).trans (hs _)
      · rw [hpage] at hlt
        omega
  | succ k ih =>
    rcases putOnce_apply he ha key val hb with ⟨r, hr⟩ | ⟨p, fs₁, hp, hb₁, hpage, hr⟩
    · refine ⟨r, hr _, fun n hn ↦ ?_⟩
      obtain ⟨n, rfl⟩ : ∃ m, n = m + 1 := ⟨n - 1, by omega⟩
      exact hr _
    · have hdeep := hlast p hp
      rcases pageSplitAndRetryBy_apply he ha key hb₁ hp with
        ⟨r, hs⟩ | ⟨-, fs₂, ps₂, l₂, p₂, hb₂, hp₂, hdepth₂, hs⟩
      · refine ⟨r, (hr _).trans (hs _), fun n hn ↦ ?_⟩
        obtain ⟨n, rfl⟩ : ∃ m, n = m + 1 := ⟨n - 1, by omega⟩
        exact (hr _).trans (hs _)
      · rw [hpage] at hdepth₂
        obtain ⟨r, hwithin, hby⟩ := ih hb₂ fun q hq ↦ by
          rw [hp₂, Option.some_inj] at hq
          rw [← hq, hdepth₂]
          omega
        refine ⟨r, ((hr _).trans (hs _)).trans hwithin, fun n hn ↦ ?_⟩
        obtain ⟨n, rfl⟩ : ∃ m, n = m + 1 := ⟨n - 1, by omega⟩
        exact ((hr _).trans (hs _)).trans (hby n (by omega))

theorem putOnce_unused (hk : PagesOk fs ps)
    (hidx : dirIndex (xxh64 key) fs.pdir.globalDepth < fs.pdir.pageOff.length)
    (hslot : fs.pdir.pageOff.getD (dirIndex (xxh64 key) fs.pdir.globalDepth) 0 =
      0xFFFFFFFFFFFFFFFF) :
    ∃ r, ∀ split, putOnce env alloc split key val fs = some r := by
  obtain ⟨fs₀, hfs₀⟩ : ∃ fs₀ : Fs, fs₀ = { fs with passed := val :: fs.passed } := ⟨_, rfl⟩
  have hdir₀ : fs₀.pdir = fs.pdir := by rw [hfs₀]
  have hk₀ : PagesOk fs₀ ps := by
    rw [hfs₀]
    exact hk.of_data rfl fun _ _ _ _ ↦ rfl
  rw [← hdir₀] at hslot hidx
  obtain ⟨off, fs₁, halloc, hkept, hfresh⟩ := ha fs₀
  by_cases h0 : off = 0
  · refine ⟨(.enospc, fs₁), fun split ↦ ?_⟩
    have hens : ensureBucketBy env alloc (dirIndex (xxh64 key) fs₀.pdir.globalDepth) fs₀ =
        some (.enospc, fs₁) := by
      simp only [ensureBucketBy, bind_apply, get_apply, Option.bind_some, if_pos hslot, halloc,
        if_pos h0]
      rfl
    rw [putOnce, bind_apply, notePassed_apply, Option.bind_some, ← hfs₀]
    simp only [bind_apply, get_apply, Option.bind_some, hens]
    rfl
  · obtain ⟨husable, -, hcold⟩ := hfresh h0
    have hk₁ := hkept.pagesOk (PagesOk.without hk₀ hcold)
    obtain ⟨fs₂, hfs₂⟩ : ∃ fs₂ : Fs, fs₂ = { fs₁ with
      pdir.pageOff := fs₁.pdir.pageOff.set (dirIndex (xxh64 key) fs₀.pdir.globalDepth) off } :=
      ⟨_, rfl⟩
    have hk₂ : PagesOk fs₂ (ps.filter (· ≠ off)) :=
      hk₁.of_data (by rw [hfs₂]) fun _ _ _ _ ↦ by rw [hfs₂]
    obtain ⟨fs₃, fs₄, hwrite, hinv, hk₄, hs₄⟩ := newPage_parts he hk₂ husable
      (fun hc ↦ by simp at hc) (emptyPage fs₀.pdir.globalDepth.toUInt16)
    have hens : ensureBucketBy env alloc (dirIndex (xxh64 key) fs₀.pdir.globalDepth) fs₀ =
        some (.ok, fs₄) := by
      simp only [ensureBucketBy, bind_apply, get_apply, Option.bind_some, if_pos hslot, halloc,
        if_neg h0, modify_apply]
      rw [← hfs₂, hwrite, Option.bind_some, if_pos rfl, bind_apply, hinv]
      rfl
    have hslot₄ : fs₄.pdir.pageOff.getD (dirIndex (xxh64 key) fs₀.pdir.globalDepth) 0 = off := by
      rw [hs₄.pdir, hfs₂, hkept.pdir, List.getD_eq_getElem _ _ (by simpa using hidx)]
      simp
    obtain ⟨r, hr⟩ := putWalkBy_empty he ha hk₄ (List.mem_append_right _ List.mem_cons_self) h0
      hs₄.page (xxh64 key) key val (walkFuel - 1)
    refine ⟨r, fun split ↦ ?_⟩
    rw [putOnce, bind_apply, notePassed_apply, Option.bind_some, ← hfs₀]
    simp only [bind_apply, get_apply, Option.bind_some, hens, hslot₄]
    exact hr split

end recursion

/-- An index whose pages are the blocks `ps`: a directory of `2 ^ global_depth` slots, each
without a page or at the head of an acyclic chain, and no page deeper than the directory. -/
structure Index (fs : Fs) (ps : List UInt64) : Prop where
  size : fs.pdir.pageOff.length = 2 ^ fs.pdir.globalDepth.toNat
  depth : fs.pdir.globalDepth.toNat ≤ 20
  pages : PagesOk fs ps
  chains : ∀ o ∈ fs.pdir.pageOff, o = 0xFFFFFFFFFFFFFFFF ∨ ∃ l, ChainFrom fs o l ∧
    ∀ x ∈ l, x ∈ ps ∧ (pageAt fs x).localDepth.toNat ≤ fs.pdir.globalDepth.toNat

/-- Whatever the allocator answers, `paged_put` returns within 21 calls of
`page_split_and_retry`. -/
theorem put_splits_bounded {env : Env} (he : Healthy env) {alloc : FsM UInt64} (ha : Fresh alloc)
    {fs : Fs} {ps : List UInt64} (hi : Index fs ps) (key : Path) (val : List UInt8) :
    ∃ r, putWithin env alloc key val 21 fs = some r ∧
      pagedPutBy env alloc key val walkFuel fs = some r := by
  have hidx : dirIndex (xxh64 key) fs.pdir.globalDepth < fs.pdir.pageOff.length := by
    rw [dirIndex_eq _ (hi.depth.trans (by decide)), hi.size]
    exact Nat.mod_lt _ (Nat.two_pow_pos _)
  have hmem : fs.pdir.pageOff.getD (dirIndex (xxh64 key) fs.pdir.globalDepth) 0 ∈
      fs.pdir.pageOff := by
    rw [List.getD_eq_getElem _ _ hidx]
    exact List.getElem_mem _
  rcases hi.chains _ hmem with hslot | ⟨l, hc, hl⟩
  · obtain ⟨r, hr⟩ := putOnce_unused he ha key val hi.pages hidx hslot
    exact ⟨r, hr _, hr _⟩
  · have hb : KeyBucket fs ps key l :=
      ⟨hi.size, hi.depth, hidx, hi.pages, hc, fun x hx ↦ (hl x hx).1, fun x hx ↦ (hl x hx).2⟩
    obtain ⟨r, hw, hby⟩ := putWithin_bucket he ha key val 20 hb fun p _ ↦ by omega
    exact ⟨r, hw, hby walkFuel (by rw [walkFuel]; decide)⟩

section cautious

variable (env : Env)

instance : Std.Refl Kept where
  refl _ := ⟨rfl, rfl, rfl⟩

instance : IsTrans Fs Kept where
  trans _ _ _ h h' := ⟨h'.pdir.trans h.pdir, h'.pcache.trans h.pcache, h'.data.trans h.data⟩

theorem osFileExtend_kept (size : UInt64) : Within Kept (osFileExtend env size) := by
  have htick : Within Kept tick := .bind .get fun _ ↦ .bind (.modify fun _ ↦ ⟨rfl, rfl, rfl⟩)
    fun _ ↦ .pure _
  refine .bind (.bind htick fun _ ↦ .bind .get fun _ ↦ .pure _) fun r ↦ ?_
  cases r with
  | none => exact .pure _
  | some cur =>
    exact .ite (fun _ ↦ .pure _) fun _ ↦ .bind htick fun _ ↦ .ite
      (fun _ ↦ .bind (.modify fun _ ↦ ⟨rfl, rfl, rfl⟩) fun _ ↦ .pure _) fun _ ↦ .pure _

theorem pageAlloc_kept : Within Kept (pageAlloc env) :=
  .bind .get fun _ ↦ .ite
    (fun _ ↦ .bind (osFileExtend_kept env _) fun _ ↦ .ite
      (fun _ ↦ .bind (.modify fun _ ↦ ⟨rfl, rfl, rfl⟩) fun _ ↦ .pure _) fun _ ↦ .pure _)
    fun _ ↦ .bind (.modify fun _ ↦ ⟨rfl, rfl, rfl⟩) fun _ ↦ .pure _

open Classical in
/-- `page_alloc` where the block it returns is fresh, and a failure elsewhere. -/
noncomputable def cautious : FsM UInt64 := fun fs ↦
  match pageAlloc env fs with
  | none => none
  | some (off, fs') =>
    if off ≠ 0 → Usable off ∧ ¬ Used fs off ∧ holds fs off = false then some (off, fs')
    else some (0, fs)

theorem cautious_fresh : Fresh (cautious env) := by
  intro fs
  obtain ⟨off, fs', h⟩ := pageAlloc_total env fs
  by_cases hf : off ≠ 0 → Usable off ∧ ¬ Used fs off ∧ holds fs off = false
  · refine ⟨off, fs', ?_, pageAlloc_kept env _ _ _ h, hf⟩
    rw [cautious, h]
    exact if_pos hf
  · refine ⟨0, fs, ?_, ⟨rfl, rfl, rfl⟩, fun h0 ↦ absurd rfl h0⟩
    rw [cautious, h]
    exact if_neg hf

end cautious

theorem fresh_pageIndex (env : Env) {sizeMb : UInt64} (hg : GoodSize sizeMb) (flags : UInt64) :
    Index (freshFs env sizeMb flags) [dataStart (totalBlocks sizeMb) + 4096] := by
  have hR := fresh_represents env hg flags
  have hpage := fresh_page env sizeMb flags
  have hdir : (freshFs env sizeMb flags).pdir = ⟨[dataStart (totalBlocks sizeMb) + 4096], 0⟩ := rfl
  have h0 : dataStart (totalBlocks sizeMb) + 4096 ≠ 0 := hR.ne_zero (offs_subset_blocks hR.headOff_mem)
  refine ⟨by rw [hdir]; rfl, by rw [hdir]; exact Nat.zero_le _, hR.pages, fun o ho ↦ .inr ?_⟩
  rw [hdir] at ho
  obtain rfl := List.mem_singleton.mp ho
  refine ⟨[dataStart (totalBlocks sizeMb) + 4096], .page h0 ?_, fun x hx ↦ ⟨hx, ?_⟩⟩
  · rw [hpage]
    exact .stop
  · rw [List.mem_singleton.mp hx, hpage]
    exact Nat.zero_le _

section crowded

/-- The block of the only page on a fresh image of one megabyte. -/
def onlyPage : UInt64 := dataStart (totalBlocks 1) + 4096

def fullPage : PagedPage := { PagedPage.zero with count := 56 }

/-- A fresh file system but for its only page, which is full. -/
def crowded : Fs := { freshFs steady 1 0 with
  pcache := fun i ↦ if i = pcIndex onlyPage then ⟨onlyPage, some fullPage, true⟩
    else (freshFs steady 1 0).pcache i }

/-- No block as long as the directory has one slot only. -/
noncomputable def scarce (env : Env) : FsM UInt64 := fun fs ↦
  if fs.pdir.globalDepth = 0 then some (0, fs) else cautious env fs

theorem scarce_fresh (env : Env) : Fresh (scarce env) := by
  intro fs
  by_cases h : fs.pdir.globalDepth = 0
  · exact ⟨0, fs, if_pos h, ⟨rfl, rfl, rfl⟩, fun h0 ↦ absurd rfl h0⟩
  · rw [scarce, if_neg h]
    exact cautious_fresh env fs

theorem crowded_cached {i : ℕ} {pg : PagedPage} (h : (crowded.pcache i).page = some pg) :
    i = pcIndex onlyPage := by
  by_contra hne
  rw [crowded] at h
  simp only [hne, ↓reduceIte] at h
  cases h

theorem crowded_slot : crowded.pcache (pcIndex onlyPage) = ⟨onlyPage, some fullPage, true⟩ := by
  simp only [crowded, ↓reduceIte]

theorem crowded_page : pageAt crowded onlyPage = fullPage := by
  rw [pageAt, crowded_slot]
  exact if_pos rfl

theorem onlyPage_used : onlyPage ≠ 0 ∧ onlyPage ≠ 0xFFFFFFFFFFFFFFFF := firstPage_used _

theorem crowded_index : Index crowded [onlyPage] := by
  have hi : Index (freshFs steady 1 0) [onlyPage] := fresh_pageIndex steady goodSize_one 0
  refine ⟨hi.size, hi.depth, ⟨hi.pages.usable, fun i pg h ↦ ?_, fun i pg h ↦ ?_, fun i pg h hd ↦ ?_⟩,
    fun o ho ↦ .inr ⟨[onlyPage], ?_, fun x hx ↦ ⟨hx, ?_⟩⟩⟩
  · rw [crowded_cached h, crowded_slot]
    exact List.mem_singleton_self _
  · rw [crowded_cached h, crowded_slot]
  · rw [crowded_cached h, crowded_slot] at hd
    cases hd
  · have ho : o = onlyPage := List.mem_singleton.mp ho
    rw [ho]
    refine .page onlyPage_used.1 ?_
    rw [crowded_page]
    exact .stop
  · rw [List.mem_singleton.mp hx, crowded_page]
    exact Nat.zero_le _

theorem findSlot_full {h : UInt64} (h0 : h ≠ 0) (key : Path) : findSlot fullPage h key = none := by
  rw [findSlot, List.find?_eq_none]
  intro i hi
  have hzero : (fullPage.slot i).hash = 0 := by
    have hlt : i < 56 := List.mem_range.mp hi
    rw [PagedPage.slot, dif_pos hlt]
    rfl
  rw [slotMatches, hzero]
  simp [h0.symm]

/-- The put into the full page does not come through without a split, and returns with one or more. -/
theorem put_splits_bounded_crowded :
    putWithin steady (scarce steady) [47, 97] [1] 0 crowded = none ∧
      ∃ r, putWithin steady (scarce steady) [47, 97] [1] 21 crowded = some r ∧
        pagedPutBy steady (scarce steady) [47, 97] [1] walkFuel crowded = some r := by
  refine ⟨?_, put_splits_bounded steady_healthy (scarce_fresh steady) crowded_index [47, 97] [1]⟩
  obtain ⟨k, hk⟩ : ∃ k, walkFuel = k + 1 := ⟨walkFuel - 1, by decide⟩
  obtain ⟨fs, hfs⟩ : ∃ fs : Fs, fs = { crowded with passed := [1] :: crowded.passed } := ⟨_, rfl⟩
  have hdir : fs.pdir = ⟨[onlyPage], 0⟩ := by rw [hfs]; rfl
  have hpc : fs.pcache (pcIndex onlyPage) = ⟨onlyPage, some fullPage, true⟩ := by
    rw [hfs]
    exact crowded_slot
  have hidx : dirIndex (xxh64 [47, 97]) fs.pdir.globalDepth = 0 := by rw [hdir]; rfl
  have hoff : fs.pdir.pageOff.getD 0 0 = onlyPage := by rw [hdir]; rfl
  obtain ⟨h0, hused⟩ := onlyPage_used
  have hbucket : ensureBucketBy steady (scarce steady) 0 fs = some (.ok, fs) := by
    simp only [ensureBucketBy, bind_apply, get_apply, Option.bind_some, hoff, hused, ↓reduceIte,
      pure_apply]
  have hload : pageLoad steady onlyPage fs = some (some fullPage, fs) := by
    simp only [pageLoad, bind_apply, get_apply, Option.bind_some, hpc, ↓reduceIte, pure_apply]
  have hscarce : scarce steady fs = some (0, fs) := if_pos (by rw [hdir])
  have hover : addOverflowBy steady (scarce steady) fullPage onlyPage fs = some (none, fs) := by
    simp only [addOverflowBy, bind_apply, hscarce, Option.bind_some, ↓reduceIte, pure_apply]
  have hfull : fullPage.count.toNat ≥ slotsPerPage := by decide
  have hlast : fullPage.overflowNext = 0 := rfl
  rw [putWithin, putOnce, bind_apply, notePassed_apply, Option.bind_some, ← hfs]
  simp only [bind_apply, get_apply, Option.bind_some, hidx, hbucket, hoff, hk, putWalkBy, h0,
    ↓reduceIte, hload, findSlot_full (by decide : xxh64 [47, 97] ≠ 0), hfull, hlast, hover,
    diverge_apply]

end crowded

end Xxfs.IndexAlloc

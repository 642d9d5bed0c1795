import Xxfs.Soundness

namespace Xxfs.Soundness

open Function
open Xxfs.DiskFormat Xxfs.Machine Xxfs.Allocator Xxfs.PagedIndex Xxfs.PageStore Xxfs.InodeCache
open Xxfs.DirCache Xxfs.Volume Xxfs.Operations Xxfs.Hash Xxfs.PathName Xxfs.IndexRep Xxfs.CacheMap
open Xxfs.IndexState Xxfs.OperationFrames Xxfs.Checksum
open Xxfs.Lib Xxfs.Lib.Computation Xxfs.Lib.Computation.Comp

section lookups

variable {env : Env} (he : Healthy env) {K : Path → Prop} (hK : Names K) {m : Inodes} {S : Set ℕ}
  {fs : Fs} (h : Sound K m S fs) {p : Path}
include h

theorem Sound.same {fs' : Fs} (himg : fs'.img = fs.img) (hpd : fs'.pdir = fs.pdir)
    (hpc : fs'.pcache = fs.pcache) (hi : fs'.icache = fs.icache) (hd : fs'.dcache = fs.dcache)
    (hsb : fs'.sb.sDataOff = fs.sb.sDataOff ∧ fs'.sb.sBlockCount = fs.sb.sBlockCount ∧
      fs'.sb.sFreeBlocks = fs.sb.sFreeBlocks ∧ fs'.sb.sPdirOff = fs.sb.sPdirOff ∧
      fs'.sb.sMagic = fs.sb.sMagic) : Sound K m S fs' := by
  obtain ⟨hD, hB, hF, hP, hM⟩ := hsb
  obtain ⟨L, hb⟩ := h.backed
  have hfront : front fs'.sb = front fs.sb := by rw [front, front, hD, hB, hF]
  have hpool : PoolOk fs'.sb := by
    obtain ⟨h₁, h₂, h₃, h₄⟩ := hb.rep.pool
    refine ⟨by rwa [hD], by rwa [hD], by rwa [hF, hB], ?_⟩
    rwa [poolEnd, hD, hB]
  refine ⟨by rw [hi]; exact h.settled, ⟨L, ?_⟩, by rw [hi]; exact h.coherent, ?_, h.tree, ?_,
    hM.trans h.magic, fun i hx ↦ by rw [himg]; exact h.zero i (hfront ▸ hx)⟩
  · rw [ground_congr hi hP]
    refine hb.outside hpd hpc hpool hD hfront.ge (hfront ▸ hb.rep.bound) (fun i _ _ ↦ by rw [himg])
      (by rw [himg]) fun i hx ↦ ⟨hfront ▸ hb.below i hx, .inl hx⟩
  · rw [seen_congr hi, hP, himg]
    exact h.owned
  · rw [hd, himg]
    exact h.listings

theorem Sound.names (hp : m p ≠ none) : K p := by
  obtain ⟨L, hb⟩ := h.backed
  exact hb.names hp

include he

theorem Sound.indexGet (hp : p.length < 2 ^ 32) : ∃ fs',
    inodePagedGet env p fs = some (answered (m p), fs') ∧ Sound K m S fs' ∧
      Kept (ground m S fs) fs fs' ∧ fs'.sb = fs.sb ∧ ∀ k, Single fs k → Single fs' k := by
  obtain ⟨L, hb⟩ := h.backed
  obtain ⟨fs', hget, hb', hk, hsb⟩ := hb.inodePagedGet he hp
  exact ⟨fs', hget, h.kept hk hb', hk, hsb, fun k hs ↦ hs.of_represents hb.rep hb'.rep⟩

omit he in
theorem Sound.cacheGet (hp : Untwinned K p) :
    icacheInode fs.icache (xxh64 p) = (cell fs.icache p).map Prod.fst :=
  h.settled.icacheInode hp

include hK

omit he in
theorem Sound.lookup_isSome (hp : K p) :
    (icacheLookup fs.icache (xxh64 p)).isSome = (cell fs.icache p).isSome := by
  rcases h.settled.lookup (hK.untwinned hp) with ⟨i, e, hl, -, -, hcell⟩ | ⟨hl, hcell⟩
  · rw [hl, hcell]
    rfl
  · rw [hl, hcell]
    rfl

theorem Sound.current (hp : K p) : ∃ fs',
    currentInode env p fs = some (answered (seen m fs p), fs') ∧ Sound K m S fs' ∧
      Kept (ground m S fs) fs fs' ∧ fs'.sb = fs.sb := by
  have hcache := h.cacheGet (hK.untwinned hp)
  cases hc : cell fs.icache p with
  | none =>
    rw [hc, Option.map_none] at hcache
    obtain ⟨fs', hget, hs, hk, hsb, -⟩ := h.indexGet he (hK.length_lt hp)
    refine ⟨fs', ?_, hs, hk, hsb⟩
    rw [seen, cur, hc]
    simp only [currentInode, bind_apply, get_apply, Option.bind_some, hcache]
    exact hget
  | some x =>
    rw [hc, Option.map_some] at hcache
    refine ⟨fs, ?_, h, .refl _ _, rfl⟩
    rw [seen, cur, hc]
    simp only [currentInode, bind_apply, get_apply, Option.bind_some, hcache]
    rfl

end lookups

section cache

variable {env : Env} (he : Healthy env) {K : Path → Prop} (hK : Names K) {m : Inodes}
  {S S' : Set ℕ} {fs : Fs} (h : Sound K m S fs) {p : Path} (hp : K p)
include he hK h hp

theorem Sound.cachePut {n : Inode} (hcoh : CoherentAt (some (n, true)) (m p))
    (hsub : extent n ∪ S' ⊆ extentOf (seen m fs p) ∪ S) (hdis : Disjoint (extent n) S')
    (hshape : Shape fs.img.size n) : ∃ c t,
    icachePut env (xxh64 p) p n fs = some ((), { fs with icache := c, clock := t }) ∧
      cell c = update (cell fs.icache) p (some (n, true)) ∧
      Sound K m S' { fs with icache := c, clock := t } ∧ Filled (· = p) fs.icache c := by
  obtain ⟨c, t, hput, hset, hcell, hfill⟩ := icachePut_apply he hK.distinct h.settled hp n
  obtain ⟨L, hb⟩ := h.backed
  have hnow : seen m { fs with icache := c, clock := t } p = some n := by
    rw [seen, cur, hcell, update_self]
    rfl
  refine ⟨c, t, hput, hcell, h.change (p := p) hset (fun q hq ↦ ?_) (fun _ _ ↦ rfl) rfl rfl
    ⟨L, hb.same rfl rfl rfl rfl⟩ ?_ ?_ ?_ (fun x hx ↦ ?_) le_rfl h.tree h.listings h.zero, hfill⟩
  · exact (congrFun hcell q).trans (update_of_ne hq _ _)
  · dsimp only
    rw [hcell, update_self]
    exact hcoh
  · rw [hnow, extentOf_some]
    exact hsub
  · rw [hnow, extentOf_some]
    exact hdis
  · rw [hnow] at hx
    obtain rfl := Option.some.inj hx
    exact hshape

theorem Sound.fill {n : Inode} (hc : cell fs.icache p = none) (hn : m p = some n) : ∃ c t,
    icachePut env (xxh64 p) p n fs = some ((), { fs with icache := c, clock := t }) ∧
      cell c = update (cell fs.icache) p (some (n, true)) ∧
      Sound K m S { fs with icache := c, clock := t } ∧ Filled (· = p) fs.icache c := by
  have hseen : seen m fs p = some n := by
    rw [seen, cur, hc, hn]
    rfl
  refine h.cachePut he hK hp (hn ▸ coherentAt_same n true) ?_ ?_ (h.owned.shape p n hseen)
  · rw [hseen, extentOf_some]
  · have := h.owned.apart (i := .path p) (j := .hand) (by simp)
    rw [onFun_apply, share, share, hseen, extentOf_some] at this
    exact this

end cache

/-- The index has a path in one page only, and the cache can let go of it. -/
structure Loose (K : Path → Prop) (fs : Fs) (p : Path) : Prop where
  single : Single fs p
  frees : Frees K fs.icache p

/-- What `fetchInode` leaves as it was: all but the cached copy of one path. -/
structure Fetched (p : Path) (m : Inodes) (F : Set ℕ) (fs fs' : Fs) : Prop where
  moves : Moves F fs fs'
  sb : fs'.sb = fs.sb
  dcache : fs'.dcache = fs.dcache
  others : ∀ q, q ≠ p → cell fs'.icache q = cell fs.icache q
  seen : seen m fs' = seen m fs
  single : ∀ k, Single fs k → Single fs' k
  filled : Filled (· = p) fs.icache fs'.icache

section fetch

variable {env : Env} (he : Healthy env) {K : Path → Prop} (hK : Names K) {m : Inodes}
  {S : Set ℕ} {fs : Fs} (h : Sound K m S fs) {p : Path} (hp : Untwinned K p) (hlen : p.length < 2 ^ 32)
include he hK h hp hlen

theorem Sound.fetch : ∃ fs', fetchInode env p fs = some (seen m fs p, fs') ∧ Sound K m S fs' ∧
    Fetched p m (ground m S fs) fs fs' := by
  have hcache := h.cacheGet hp
  cases hc : cell fs.icache p with
  | some x =>
    rw [hc, Option.map_some] at hcache
    refine ⟨fs, ?_, h, .refl _ _, rfl, rfl, fun _ _ ↦ rfl, rfl, fun _ ↦ id, .refl⟩
    rw [seen, cur, hc]
    simp only [fetchInode, bind_apply, get_apply, Option.bind_some, hcache]
    rfl
  | none =>
    rw [hc, Option.map_none] at hcache
    obtain ⟨fs₁, hget, hs, hk, hsb, hone⟩ := h.indexGet he hlen
    have hcell : cell fs₁.icache = cell fs.icache := by rw [hk.only.icache]
    cases hn : m p with
    | none =>
      rw [hn] at hget
      refine ⟨fs₁, ?_, hs, .of_kept hk, hsb, hk.only.dcache, fun _ _ ↦ by rw [hcell],
        seen_congr hk.only.icache, hone, hk.only.icache ▸ .refl⟩
      rw [seen, cur, hc, hn]
      simp only [fetchInode, bind_apply, get_apply, Option.bind_some, hcache, hget, answered,
        pure_apply, Option.map_none, Option.none_or]
    | some n =>
      rw [hn] at hget
      obtain ⟨c, t, hput, hcell', hs', hfill⟩ := hs.fill he hK (h.names (by rw [hn]; exact Option.some_ne_none n))
        (by rw [hcell, hc]) hn
      rw [hk.only.icache] at hfill
      refine ⟨_, ?_, hs', (Moves.of_kept hk).trans (.caches _ fs₁ c _ t), hsb, hk.only.dcache,
        fun q hq ↦ ?_, ?_, fun k hk' ↦ ?_, hfill⟩
      · rw [seen, cur, hc, hn]
        simp only [fetchInode, bind_apply, get_apply, Option.bind_some, hcache, hget, answered,
          hput, pure_apply, Option.map_none, Option.none_or]
      · dsimp only
        rw [hcell', update_of_ne hq, hcell]
      · funext q
        rw [seen, seen, cur, cur, hcell', hcell]
        by_cases hq : q = p
        · rw [hq, update_self, hc, hn]
          rfl
        · rw [update_of_ne hq]
      · obtain ⟨L, hb⟩ := hs.backed
        exact (hone k hk').of_represents hb.rep (hb.rep.same rfl rfl rfl rfl)

end fetch

section both

variable {K : Path → Prop} {m : Inodes} {S S' : Set ℕ} {fs fs' : Fs} {p : Path}

/-- What a new inode of a path has to satisfy to take the place of the old one. -/
structure Fits (m : Inodes) (S S' : Set ℕ) (fs : Fs) (p : Path) (n : Inode) : Prop where
  sub : extent n ∪ S' ⊆ extentOf (seen m fs p) ∪ S
  dis : Disjoint (extent n) S'
  shape : Shape fs.img.size n
  tree : Tree (kind (update m p (some n)))
  listed : ∀ i, (fs.dcache i).valid = true → (fs.dcache i).path = p → n.iFileType = ftDir ∧
    ((fs.dcache i).dirty = false → (fs.dcache i).children = diskChildren fs.img n)

theorem Fits.subset {n : Inode} (hn : Fits m S S' fs p n) : extent n ⊆ ground m S fs := by
  intro i hi
  rcases hn.sub (.inl hi) with hi | hi
  · exact Shares.subset_owned (share (seen m fs) fs.sb.sPdirOff S) (.path p) hi
  · exact Shares.subset_owned (share (seen m fs) fs.sb.sPdirOff S) .hand hi

theorem Sound.both (h : Sound K m S fs) {n : Inode} {d : Bool} {L : Chain}
    (hn : Fits m S S' fs p n) (hset : Settled K fs'.icache)
    (hcell : cell fs'.icache = update (cell fs.icache) p (some (n, d)))
    (hd : fs'.dcache = fs.dcache) (hM : Moves (ground m S fs) fs fs')
    (hb : Backed K (update m p (some n)) (ground m S fs) fs' L) :
    Sound K (update m p (some n)) S' fs' := by
  have hnow : seen (update m p (some n)) fs' p = some n := by
    rw [seen, cur, hcell, update_self]
    rfl
  refine h.change (p := p) hset (fun q hq ↦ by rw [hcell, update_of_ne hq])
    (fun q hq ↦ update_of_ne hq _ _) hM.pdirOff hM.magic ⟨L, hb⟩ ?_ ?_ ?_ (fun x hx ↦ ?_) hM.size
    hn.tree ?_ (hM.zero h)
  · rw [hcell, update_self, update_self]
    exact coherentAt_same n d
  · rw [hnow, extentOf_some]
    exact hn.sub
  · rw [hnow, extentOf_some]
    exact hn.dis
  · rw [hnow] at hx
    obtain rfl := Option.some.inj hx
    exact hn.shape.mono hM.size
  · rw [hd]
    refine h.listings_change (p := p) (fun q hq ↦ update_of_ne hq _ _)
      (fun q x _ hx ht i hi ↦ hM.data i (extent_subset (cur_dir (h.coherent q) hx ht) hi))
      fun i x hv hpath hx ↦ ?_
    rw [update_self] at hx
    obtain rfl := Option.some.inj hx
    obtain ⟨ht, hc⟩ := hn.listed i hv hpath
    refine ⟨ht, fun hdirty ↦ ?_⟩
    rw [hc hdirty]
    exact (diskChildren_congr (hn.shape.dir ht) fun i hi ↦ hM.data i (hn.subset hi)).symm

theorem Sound.removed (h : Sound K m S fs) {L : Chain} (hset : Settled K fs'.icache)
    (hcell : cell fs'.icache = update (cell fs.icache) p none) (hd : fs'.dcache = fs.dcache)
    (hM : Moves (ground m S fs) fs fs') (hb : Backed K (update m p none) (ground m S fs) fs' L)
    (htree : Tree (kind (update m p none))) (hS : S' ⊆ extentOf (seen m fs p) ∪ S) :
    Sound K (update m p none) S' fs' := by
  have hnow : seen (update m p none) fs' p = none := by
    rw [seen, cur, hcell, update_self, update_self]
    rfl
  refine h.change (p := p) hset (fun q hq ↦ by rw [hcell, update_of_ne hq])
    (fun q hq ↦ update_of_ne hq _ _) hM.pdirOff hM.magic ⟨L, hb⟩ ?_ ?_ ?_ (fun x hx ↦ ?_) hM.size
    htree ?_ (hM.zero h)
  · rw [hcell, update_self]
    exact coherentAt_none _
  · rw [hnow, extentOf_none, Set.empty_union]
    exact hS
  · rw [hnow, extentOf_none]
    exact Set.empty_disjoint _
  · rw [hnow] at hx
    cases hx
  · rw [hd]
    refine h.listings_change (p := p) (fun q hq ↦ update_of_ne hq _ _)
      (fun q x _ hx ht i hi ↦ hM.data i (extent_subset (cur_dir (h.coherent q) hx ht) hi))
      fun i x hv hpath hx ↦ ?_
    rw [update_self] at hx
    cases hx

/-- What follows when a path gets a new inode in the index and in the cache. -/
structure Renewed (K : Path → Prop) (m : Inodes) (S S' : Set ℕ) (p : Path) (n : Inode)
    (fs fs' : Fs) : Prop where
  cells : cell fs'.icache = update (cell fs.icache) p (some (n, true))
  dcache : fs'.dcache = fs.dcache
  moves : Moves (ground m S fs) fs fs'
  sound : Sound K (update m p (some n)) S' fs'

section renew

variable {env : Env} (he : Healthy env) (hK : Names K) (h : Sound K m S fs) (hp : K p) {n : Inode}
  (hn : Fits m S S' fs p n)
include he hK h hp hn

theorem Sound.afterPut {fs₁ : Fs} {L : Chain} (hk : Kept (ground m S fs) fs fs₁)
    (hb : Backed K (update m p (some n)) (ground m S fs) fs₁ L) : ∃ fs₂,
    icachePut env (xxh64 p) p n fs₁ = some ((), fs₂) ∧ fs₂.sb = fs₁.sb ∧
      Renewed K m S S' p n fs fs₂ := by
  have hset : Settled K fs₁.icache := by rw [hk.only.icache]; exact h.settled
  obtain ⟨c, t, hput, hset', hcell, -⟩ := icachePut_apply he hK.distinct hset hp n
  have hM : Moves (ground m S fs) fs { fs₁ with icache := c, clock := t } :=
    (Moves.of_kept hk).trans (.caches _ fs₁ c _ t)
  rw [hk.only.icache] at hcell
  exact ⟨_, hput, rfl, hcell, hk.only.dcache, hM,
    h.both hn hset' hcell hk.only.dcache hM (hb.same rfl rfl rfl rfl)⟩

theorem Sound.storeBoth (hs : Sealed n) (hl : Live fs) : ∃ rc fs₁,
    pagedPut env p (inodeToVal n) fs = some (rc, fs₁) ∧ (Live fs₁ → rc = .ok ∧ ∃ fs₂,
      icachePut env (xxh64 p) p n fs₁ = some ((), fs₂) ∧ fs₂.sb = fs₁.sb ∧
        Renewed K m S S' p n fs fs₂) := by
  obtain ⟨L, hb⟩ := h.backed
  obtain ⟨rc, fs₁, hput, hgood⟩ := hb.pagedPut he hK hp hs hl
  refine ⟨rc, fs₁, hput, fun hl₁ ↦ ?_⟩
  obtain ⟨hrc, hk, L₁, hb₁⟩ := hgood hl₁
  exact ⟨hrc, h.afterPut he hK hp hn hk hb₁⟩

theorem Sound.insertBoth (hs : Sealed n) (hl : Live fs) (hnew : m p = none) : ∃ rc fs₁,
    pagedInsert env p (inodeToVal n) fs = some (rc, fs₁) ∧ (Live fs₁ → rc = .ok ∧ ∃ fs₂,
      icachePut env (xxh64 p) p n fs₁ = some ((), fs₂) ∧ fs₂.sb = fs₁.sb ∧
        Renewed K m S S' p n fs fs₂) := by
  obtain ⟨L, hb⟩ := h.backed
  obtain ⟨rc, fs₁, hput, hgood⟩ := hb.pagedInsert he hK hp hs hl hnew
  refine ⟨rc, fs₁, hput, fun hl₁ ↦ ?_⟩
  obtain ⟨hrc, hk, L₁, hb₁⟩ := hgood hl₁
  exact ⟨hrc, h.afterPut he hK hp hn hk hb₁⟩

end renew

end both

section image

variable {K : Path → Prop} {m : Inodes} {S : Set ℕ} {fs : Fs} (h : Sound K m S fs)
include h

theorem Sound.take {n : UInt64} (hn : n ≤ fs.sb.sFreeBlocks)
    (hlt : front (taken fs.sb n) < 2 ^ 63) :
    Sound K m (S ∪ nextBytes fs n.toNat) { fs with sb := taken fs.sb n } := by
  obtain ⟨L, hb⟩ := h.backed
  have hnew : Disjoint (ground m S fs) (nextBytes fs n.toNat) :=
    Set.disjoint_left.mpr fun i hi hi' ↦ by
      have := hb.below i hi
      have := hi'.1
      omega
  have hothers (x : Owner) (hx : x ≠ .hand) :
      share (seen m fs) fs.sb.sPdirOff (S ∪ nextBytes fs n.toNat) x ⊆
        share (seen m fs) fs.sb.sPdirOff S x := by
    cases x with
    | hand => exact (hx rfl).elim
    | super => exact subset_rfl
    | table => exact subset_rfl
    | path p => exact subset_rfl
  refine ⟨h.settled, ⟨L, ?_⟩, h.coherent, ⟨?_, h.owned.shape⟩, h.tree, h.listings, h.magic,
    fun i hi ↦ h.zero i ((front_le_taken hn).trans hi)⟩
  · exact (hb.take hn hlt).mono (Shares.owned_grow (a := .hand) subset_rfl hothers)
  · exact h.owned.apart.grow (a := .hand) hnew subset_rfl hothers

/-- A write past the index that spares the directories whose listings are cached clean. -/
theorem Sound.write (src : ℕ → UInt8) {len off : ℕ} (t : ℕ)
    (hin : ∀ i, off ≤ i → i < off + len → i ∈ ground m S fs)
    (hdirs : ∀ j n, (fs.dcache j).valid = true → (fs.dcache j).dirty = false →
      m (fs.dcache j).path = some n → ∀ i ∈ extent n, i < off ∨ off + len ≤ i) :
    Sound K m S { fs with img := fs.img.write src len off, clock := t } := by
  obtain ⟨L, hb⟩ := h.backed
  refine ⟨h.settled, ⟨L, hb.write src t hin⟩, h.coherent,
    ⟨h.owned.apart, fun p n hn ↦ (h.owned.shape p n hn).mono (Image.write_size _ _ _ _)⟩, h.tree,
    ⟨h.listings.named, h.listings.few, h.listings.typed, fun j n hv hd hn ↦ ?_⟩, h.magic,
    fun i hi ↦ ?_⟩
  · rw [h.listings.clean j n hv hd hn]
    exact (diskChildren_congr (h.listed_dir hv hn).2
      fun i hi ↦ Image.write_out _ _ (hdirs j n hv hd hn i hi)).symm
  · refine (Image.write_out _ _ ?_).trans (h.zero i hi)
    by_contra hc
    have := hb.below i (hin i (by omega) (by omega))
    dsimp only at hi
    omega

theorem Sound.setListing {idx : ℕ} {e : DirCacheEntry}
    (hnamed : e.valid = true → K e.path ∧ dcIndex e.path = idx) (hfew : e.children.length ≤ 15)
    (htyped : ∀ n, e.valid = true → m e.path = some n → n.iFileType = ftDir)
    (hclean : ∀ n, e.valid = true → e.dirty = false → m e.path = some n →
      e.children = diskChildren fs.img n) :
    Sound K m S { fs with dcache := fun i ↦ if i = idx then e else fs.dcache i } := by
  obtain ⟨L, hb⟩ := h.backed
  refine ⟨h.settled, ⟨L, hb.same rfl rfl rfl rfl⟩, h.coherent, h.owned, h.tree,
    ⟨fun i hv ↦ ?_, fun i hv ↦ ?_, fun i n hv hn ↦ ?_, fun i n hv hd hn ↦ ?_⟩, h.magic,
    h.zero⟩ <;> by_cases hi : i = idx
  · simp only [hi, ↓reduceIte] at hv ⊢
    exact hnamed hv
  · simp only [hi, ↓reduceIte] at hv ⊢
    exact h.listings.named i hv
  · simp only [hi, ↓reduceIte]
    exact hfew
  · simp only [hi, ↓reduceIte] at hv ⊢
    exact h.listings.few i hv
  · simp only [hi, ↓reduceIte] at hv hn
    exact htyped n hv hn
  · simp only [hi, ↓reduceIte] at hv hn
    exact h.listings.typed i n hv hn
  · simp only [hi, ↓reduceIte] at hv hd hn ⊢
    exact hclean n hv hd hn
  · simp only [hi, ↓reduceIte] at hv hd hn ⊢
    exact h.listings.clean i n hv hd hn

end image

section body

/-- The fields that say what an inode is and where its content lies. -/
structure SameBody (n n' : Inode) : Prop where
  type : n'.iFileType = n.iFileType
  size : n'.iSize = n.iSize
  blocks : n'.iBlocks = n.iBlocks
  content : n'.iUnion = n.iUnion

variable {n n' : Inode}

theorem SameBody.refl (n : Inode) : SameBody n n := ⟨rfl, rfl, rfl, rfl⟩

theorem SameBody.symm (h : SameBody n n') : SameBody n' n :=
  ⟨h.type.symm, h.size.symm, h.blocks.symm, h.content.symm⟩

theorem SameBody.trans {n₁ n₂ n₃ : Inode} (h : SameBody n₁ n₂) (h' : SameBody n₂ n₃) :
    SameBody n₁ n₃ :=
  ⟨h'.type.trans h.type, h'.size.trans h.size, h'.blocks.trans h.blocks,
    h'.content.trans h.content⟩

theorem sameBody_of_eq {o o' : Option Inode} (h : o = o') :
    ∀ x y, o = some x → o' = some y → SameBody x y := by
  rintro x y rfl hy
  obtain rfl := Option.some.inj (h.trans hy)
  exact .refl x

theorem SameBody.extentOff (h : SameBody n n') : n'.iExtentOff = n.iExtentOff := by
  rw [Inode.iExtentOff, Inode.iExtentOff, h.content]

theorem SameBody.extent (h : SameBody n n') : extent n' = extent n := by
  rw [Soundness.extent, Soundness.extent, h.extentOff, h.blocks]

theorem SameBody.shape (h : SameBody n n') {size : ℕ} (hs : Shape size n) : Shape size n' := by
  obtain ⟨hd, hf, hfill, hal⟩ := hs
  refine ⟨?_, ?_, ?_, ?_⟩
  · rw [DirShape, h.type, h.blocks, h.extentOff, h.size]
    exact hd
  · rw [FileShape, h.type, h.blocks, h.size]
    exact hf
  · rw [h.blocks, h.extentOff, h.size]
    exact hfill
  · rw [h.blocks, h.extentOff]
    exact hal

theorem SameBody.diskChildren (h : SameBody n n') (img : Image) :
    diskChildren img n' = diskChildren img n := by
  rw [Soundness.diskChildren, Soundness.diskChildren, h.size, h.extentOff]

theorem sameBody_sealed (n : Inode) : SameBody n (inodeSetChecksumEcc n) := by
  obtain ⟨c, e, -, he⟩ := inodeSetChecksumEcc_eq n
  rw [he]
  exact ⟨rfl, rfl, rfl, rfl⟩

theorem sameBody_writeback (n : Inode) (now : UInt64) : SameBody n (writebackInode n now) := by
  have h := sameBody_sealed { n with iMtime := now, iCtime := now }
  exact ⟨h.type, h.size, h.blocks, h.content⟩

theorem sealed_writeback (n : Inode) (now : UInt64) : Sealed (writebackInode n now) :=
  sealed_inodeSetChecksumEcc _

theorem setExtent_extentOff (n : Inode) (off : UInt64) (len : UInt32) :
    (n.setExtent off len).iExtentOff = off := by
  have hbytes (j : ℕ) (hj : j < 8) : (arr (n.setExtent off len).iUnion).2 (0 + j) =
      LittleEndian.leByte off.toNat (0 + j) := by
    simp only [arr, Inode.setExtent, arrCopy]
    rw [dif_pos (by omega), if_neg (by simp; omega), if_pos (by simp; omega)]
    rfl
  have hle := LittleEndian.getLE_congr hbytes
  rw [Inode.iExtentOff, LittleEndian.getU64, hle]
  exact LittleEndian.getU64_leByte off

end body

end Xxfs.Soundness

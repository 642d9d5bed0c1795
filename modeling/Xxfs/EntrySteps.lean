import Xxfs.ChildSteps

namespace Xxfs.Soundness

open Function
open Xxfs.DiskFormat Xxfs.Machine Xxfs.Allocator Xxfs.PagedIndex Xxfs.PageStore Xxfs.InodeCache
open Xxfs.DirCache Xxfs.Volume Xxfs.Operations Xxfs.Hash Xxfs.PathName Xxfs.IndexRep Xxfs.CacheMap
open Xxfs.IndexState Xxfs.OperationFrames Xxfs.Checksum Xxfs.CacheKeys Xxfs.Frames
open Xxfs.Lib Xxfs.Lib.Computation Xxfs.Lib.Computation.Comp

section locks

variable {α : Type} {kind : Lock} {fs fs' : Fs} {a b : α}

theorem locked_cases {m : FsM α} (hx : (fsLock kind >>= fun _ ↦ m) fs = some (a, fs')) :
    ∃ l, m { fs with lock := l } = some (a, fs') := by
  simp only [fsLock, bind_apply, modify_apply, Option.bind_some] at hx
  split at hx
  · exact ⟨fs.lock, hx⟩
  · exact ⟨_, hx⟩

theorem unlocked_cases (hx : (fsUnlock kind >>= fun _ ↦ (pure a : FsM α)) fs = some (b, fs')) :
    b = a ∧ ∃ l, fs' = { fs with lock := l } := by
  simp only [fsUnlock, bind_apply, modify_apply, Option.bind_some, pure_apply, Option.some.injEq,
    Prod.mk.injEq] at hx
  obtain ⟨rfl, hfs⟩ := hx
  refine ⟨rfl, ?_⟩
  split at hfs
  · exact ⟨fs.lock, hfs.symm⟩
  · exact ⟨_, hfs.symm⟩

def Spends (fs fs' : Fs) : Prop := Spent fs.sb fs'.sb

instance : Std.Refl Spends := ⟨fun _ ↦ Spent.rfl⟩

instance : IsTrans Fs Spends := ⟨fun _ _ _ h h' ↦ Spent.trans h h'⟩

theorem spends_of_inside {m : FsM α} (hm : Within Inside m) : Within Spends m :=
  hm.mono fun _ _ h ↦ h.spent

theorem spends_of_index {m : FsM α} (hm : Within (IndexOnly fun _ ↦ True) m) : Within Spends m :=
  hm.mono fun _ _ h ↦ h.spent

theorem wreturn_spends (a : α) : Within Spends (wreturn a) := by
  intro fs b fs' hx
  obtain ⟨-, l, rfl⟩ := unlocked_cases hx
  exact Spent.rfl

theorem live_before {m : FsM α} (hm : Within Spends m) (hx : m fs = some (a, fs'))
    (hl : Live fs') : Live fs :=
  hl.of_spent (hm _ _ _ hx)

theorem live_of_relock {l : Lock} (hl : Live { fs with lock := l }) : Live fs := ⟨hl.pool, hl.addr⟩

end locks

section tree

variable {m : Inodes} {p : Path} (h : Tree (kind m))
include h

theorem Tree.root_some : m rootPath ≠ none := by
  have := h.root
  intro hnone
  rw [kind, hnone] at this
  cases this

theorem Tree.add (hp : m p = none) (hd : kind m (getParentPath p) = some ftDir) (n : Inode) :
    Tree (kind (update m p (some n))) := by
  have hroot : rootPath ≠ p := fun hc ↦ h.root_some (hc ▸ hp)
  have hother {q : Path} (hq : kind m q = some ftDir) :
      kind (update m p (some n)) q = some ftDir := by
    have hqp : q ≠ p := by
      rintro rfl
      rw [kind, hp] at hq
      cases hq
    rwa [kind, update_of_ne hqp]
  refine ⟨hother h.root, fun q hq hk ↦ ?_⟩
  by_cases hqp : q = p
  · rw [hqp]
    exact hother hd
  · rw [kind, update_of_ne hqp] at hk
    exact hother (h.parent q hq hk)

theorem Tree.remove (hp : p ≠ rootPath) (hd : ∀ q, q ≠ rootPath → m q ≠ none → getParentPath q ≠ p) :
    Tree (kind (update m p none)) := by
  refine ⟨?_, fun q hq hk ↦ ?_⟩
  · rw [kind, update_of_ne hp.symm]
    exact h.root
  · by_cases hqp : q = p
    · rw [kind, hqp, update_self] at hk
      exact (hk rfl).elim
    · rw [kind, update_of_ne hqp] at hk
      have hm : m q ≠ none := fun hnone ↦ hk (by rw [hnone]; rfl)
      rw [kind, update_of_ne (hd q hq hm)]
      exact h.parent q hq hk

end tree

/-- A path under which an entry can be made: it is free, no listing is cached for it, and its
parent is a directory with room. -/
structure Vacant (m : Inodes) (fs : Fs) (p : Path) : Prop where
  absent : m p = none
  unlisted : dcacheFind fs p = none
  parent : kind m (getParentPath p) = some ftDir
  room : ∀ cs, listing m fs (getParentPath p) = some cs → cs.length < 15

/-- An inode without content. -/
structure Hollow (n : Inode) : Prop where
  whole : Sealed n
  blocks : n.iBlocks = 0
  off : n.iExtentOff = 0
  size : n.iSize = 0

/-- What follows when a new entry has been made. -/
structure Added (p : Path) (n : Inode) (type : UInt8) (m m' : Inodes) (fs fs' : Fs) : Prop
    extends Effect {p} {getParentPath p} (rivals fs (getParentPath p)) m m' fs fs' where
  stored : m' p = some n
  fresh : Soundness.seen m' fs' p = some n
  own : Soundness.listing m' fs' p = some []
  now : ∃ cs, Soundness.listing m fs (getParentPath p) = some cs ∧
    Soundness.listing m' fs' (getParentPath p) = some (cs ++ [newChild (getBasename p) type])
  cached : ∀ q, dcacheFind fs' q ≠ none → q = getParentPath p ∨ dcacheFind fs q ≠ none

section add

variable {env : Env} (he : Healthy env) {K : Path → Prop} (hK : Names K) {m : Inodes} {fs fs' : Fs}
  (h : Sound K m ∅ fs) {p : Path} {n : Inode}
include h

omit h in
theorem Hollow.shape (hn : Hollow n) (size : ℕ) : Shape size n := by
  refine ⟨fun _ ↦ .inl ⟨hn.blocks, hn.off, hn.size⟩, fun _ ↦ .inl ⟨hn.blocks, ?_⟩, fun hb ↦ ?_,
    fun hb ↦ ?_⟩
  · rw [hn.size]
    decide
  · rw [hn.blocks] at hb
    cases hb
  · rw [hn.blocks] at hb
    cases hb

omit h in
theorem Sound.fits_new {S : Set ℕ} (h : Sound K m S fs) (hm : m p = none)
    (hu : dcacheFind fs p = none) (hd : kind m (getParentPath p) = some ftDir)
    (hsub : extent n ⊆ S) (hshape : Shape fs.img.size n) : Fits m S ∅ fs p n := by
  refine ⟨?_, Set.disjoint_empty _, hshape, h.tree.add hm hd n, fun i hvi hpi ↦ ?_⟩
  · rw [Set.union_empty]
    exact hsub.trans Set.subset_union_right
  · obtain ⟨-, hidx⟩ := h.listings.named i hvi
    rw [dcacheFind, ← hpi, hidx, if_pos ⟨hvi, rfl⟩] at hu
    cases hu

theorem Vacant.fits (hv : Vacant m fs p) (hn : Hollow n) : Fits m ∅ ∅ fs p n :=
  h.fits_new hv.absent hv.unlisted hv.parent (extent_empty hn.blocks).subset (hn.shape _)

omit h in
theorem listing_some (fs : Fs) {d : Path} {x : Inode} (hx : m d = some x) : ∃ cs, listing m fs d = some cs := by
  rw [listing, hx]
  split
  · exact ⟨_, rfl⟩
  · exact ⟨_, rfl⟩

omit h in
theorem kind_some {d : Path} {t : UInt16} (hd : kind m d = some t) :
    ∃ x, m d = some x ∧ x.iFileType = t :=
  Option.map_eq_some_iff.mp hd

theorem Sound.stored_some (hn : seen m fs p = some n) : ∃ x, m p = some x ∧ x.iFileType = n.iFileType := by
  have hk : (seen m fs p).map Inode.iFileType = kind m p := cur_kind (h.coherent p)
  rw [hn, Option.map_some] at hk
  exact kind_some hk.symm

theorem Sound.not_rival (hp : dcacheFind fs p = none) (d : Path) : p ∉ rivals fs d := by
  rintro ⟨⟨hv, -, hpath⟩, -⟩
  obtain ⟨-, hidx⟩ := h.listings.named _ hv
  rw [hpath] at hidx
  rw [dcacheFind, hidx, if_pos ⟨hv, hpath⟩] at hp
  cases hp

include he hK

theorem Sound.added (hp : K p) (hv : Vacant m fs p) (hn : Hollow n) {type : UInt8} {rc rc' : Rc}
    {fs₁ fs₂ : Fs} (hins : pagedInsert env p (inodeToVal n) fs = some (rc, fs₁))
    (hput : icachePut env (xxh64 p) p n fs₁ = some ((), fs₂))
    (hadd : dirAddChild env (getParentPath p) (getBasename p) type fs₂ = some (rc', fs'))
    (hl : Live fs') :
    ∃ m', Sound K m' ∅ fs' ∧ Added p n type m m' fs fs' ∧ Moves ∅ fs fs' := by
  have hl₂ : Live fs₂ := hl.of_spent (dirAddChild_inside env _ _ _ _ _ _ hadd).spent
  have hl₁ : Live fs₁ := hl₂.of_spent (icachePut_inside env p n _ _ _ hput).spent
  have hl₀ : Live fs :=
    hl₁.of_spent (pagedInsert_indexOnly (P := fun _ ↦ True) env p trivial _ _ _ hins).spent
  obtain ⟨rc₁, fs₃, hins', hgood⟩ :=
    h.insertBoth he hK hp (hv.fits h hn) hn.whole hl₀ hv.absent
  obtain ⟨rfl, rfl⟩ := Prod.mk.inj (Option.some.inj (hins.symm.trans hins'))
  obtain ⟨-, fs₄, hput', -, hR⟩ := hgood hl₁
  obtain ⟨-, rfl⟩ := Prod.mk.inj (Option.some.inj (hput.symm.trans hput'))
  obtain ⟨x, hx, htx⟩ := kind_some hv.parent
  obtain ⟨cs, hcs⟩ := listing_some fs hx
  have hne : getParentPath p ≠ p := by
    intro hc
    rw [hc, hv.absent] at hx
    cases hx
  have hE₁ := h.effect_renewed hR
  have hlist := hE₁.listing _ x hne (Set.notMem_empty _) hx htx
  obtain ⟨-, m', hs, hL⟩ := hR.sound.childAdded he hK (hK.parent p hp)
    ((update_of_ne hne _ _).trans hx) htx (hlist.trans hcs) (hv.room cs hcs) hadd hl
  have hrivals : rivals fs₂ (getParentPath p) = rivals fs (getParentPath p) := by
    rw [rivals, rivals, dirtyAt, dirtyAt, hR.dcache]
  have hE₂ := hL.toEffect
  rw [hrivals] at hE₂
  have hunlisted : dcacheFind fs₂ p = none := (dcacheFind_congr hR.dcache p).trans hv.unlisted
  have hstay : m' p = some n ∧ seen m' fs' p = some n := by
    rcases hE₂.inodes p (Set.notMem_empty _) with ⟨hm, hseen⟩ | ⟨hriv, -⟩
    · refine ⟨hm.trans (update_self _ _ _), hseen.trans ?_⟩
      rw [seen, cur, hR.cells, update_self]
      rfl
    · exact (h.not_rival hv.unlisted _ hriv).elim
  refine ⟨m', hs, ⟨?_, hstay.1, hstay.2, ?_, ⟨cs, hcs, hL.now⟩, fun q hq ↦ ?_⟩,
    (hR.moves.mono (Set.empty_subset _)).trans hL.moves⟩
  · exact (hE₁.mono subset_rfl (Set.empty_subset _) (Set.empty_subset _)).trans
      (hE₂.mono (Set.empty_subset _) subset_rfl subset_rfl) h.coherent
  · have hfind : dcacheFind fs' p = none := by
      by_contra hc
      rcases hL.cached hc with hd | hc'
      · exact hne hd.symm
      · exact hc' hunlisted
    rw [listing, hfind, hstay.1]
    exact congrArg some (by rw [diskChildren, if_pos (.inl hn.size)])
  · rcases hL.cached hq with hd | hc
    · exact .inl hd
    · exact .inr (by rwa [dcacheFind_congr hR.dcache] at hc)

end add

/-- A change of the counters of inodes, by `g` for those in use. -/
structure Counts (g : UInt64 → UInt64) (f : Super → Super) : Prop where
  inodes : ∀ sb, (f sb).sInodesCount = g sb.sInodesCount
  pool : ∀ sb, (f sb).sDataOff = sb.sDataOff ∧ (f sb).sBlockCount = sb.sBlockCount ∧
    (f sb).sFreeBlocks = sb.sFreeBlocks ∧ (f sb).sPdirOff = sb.sPdirOff ∧
    (f sb).sMagic = sb.sMagic

section counts

variable {g : UInt64 → UInt64} {f : Super → Super} {fs : Fs}

theorem Counts.sound {K : Path → Prop} {m : Inodes} (hf : Counts g f) (h : Sound K m ∅ fs)
    (l : Lock) : Sound K m ∅ { fs with sb := f fs.sb, lock := l } :=
  h.same rfl rfl rfl rfl rfl (hf.pool fs.sb)

theorem Counts.live (hf : Counts g f) {l : Lock} (hl : Live { fs with sb := f fs.sb, lock := l }) :
    Live fs := by
  obtain ⟨hD, hB, hF, -⟩ := hf.pool fs.sb
  obtain ⟨hpool, haddr⟩ := hl
  rw [front] at haddr
  dsimp only at hpool haddr
  rw [hF] at hpool haddr
  rw [hD, hB] at haddr
  exact ⟨hpool, haddr⟩

end counts

/-- The part of `xxfs_create` and `xxfs_mkdir` behind the look into the inode cache. -/
def makeEntry (env : Env) (p : Path) (n : Inode) (type : UInt8) (count : Super → Super) :
    FsM Rc := do
  let rc ← pagedInsert env p (inodeToVal n)
  if rc = .ok then
    icachePut env (xxh64 p) p n
    discard (dirAddChild env (getParentPath p) (getBasename p) type)
    FsM.modify fun fs ↦ { fs with sb := count fs.sb }
  wreturn rc

section make

variable {env : Env} (he : Healthy env) {K : Path → Prop} (hK : Names K) {m : Inodes} {fs fs' : Fs}
  (h : Sound K m ∅ fs) {p : Path} {n : Inode}

theorem Added.same {type : UInt8} {m' : Inodes} (hA : Added p n type m m' fs fs') {fs₁ : Fs}
    (hc : fs₁.icache = fs'.icache) (hd : fs₁.dcache = fs'.dcache) (hi : fs₁.img = fs'.img)
    (hcoh : ∀ q, CoherentAt (cell fs.icache q) (m q)) : Added p n type m m' fs fs₁ := by
  refine ⟨hA.toEffect.trans (effect_same _ _ _ m' hc hd hi) hcoh, hA.stored, ?_, ?_, ?_,
    fun q hq ↦ hA.cached q ?_⟩
  · rw [seen_congr hc]
    exact hA.fresh
  · rw [listing_congr hd hi]
    exact hA.own
  · simp only [listing_congr hd hi]
    exact hA.now
  · rwa [dcacheFind_congr hd] at hq

theorem Added.relock {type : UInt8} {m' : Inodes} {l : Lock}
    (hA : Added p n type m m' { fs with lock := l } fs') : Added p n type m m' fs fs' := by
  have hnow := hA.now
  rw [listing_relock] at hnow
  exact ⟨hA.toEffect.start rfl rfl rfl, hA.stored, hA.fresh, hA.own, hnow, hA.cached⟩

theorem Vacant.relock (hv : Vacant m fs p) (l : Lock) : Vacant m { fs with lock := l } p := by
  refine ⟨hv.absent, hv.unlisted, hv.parent, fun cs hcs ↦ hv.room cs ?_⟩
  rwa [listing_relock] at hcs

include he hK h

theorem Sound.made (hp : K p) (hv : Vacant m fs p) (hn : Hollow n) {type : UInt8}
    {count : Super → Super} (hcount : Counts (· + 1) count) {rc : Rc}
    (hx : makeEntry env p n type count fs = some (rc, fs')) (hl : Live fs') :
    rc = .ok ∧ fs'.sb.sInodesCount = fs.sb.sInodesCount + 1 ∧ ∃ m', Sound K m' ∅ fs' ∧
      Added p n type m m' fs fs' := by
  obtain ⟨rc₁, fs₁, hins, hrest⟩ := of_bind hx
  by_cases hrc : rc₁ = .ok
  · rw [if_pos hrc] at hrest
    obtain ⟨_, fs₂, hput, hrest⟩ := of_bind hrest
    obtain ⟨_, fs₃, hadd, hrest⟩ := of_bind hrest
    obtain ⟨rfl, l, rfl⟩ := unlocked_cases hrest
    rw [discard_apply] at hadd
    obtain ⟨⟨rc', fs₄⟩, hadd', hfs⟩ := Option.bind_eq_some_iff.mp hadd
    obtain ⟨-, rfl⟩ := Prod.mk.inj (Option.some.inj hfs)
    obtain ⟨m', hs, hA, hM⟩ := h.added he hK hp hv hn hins hput hadd' (hcount.live hl)
    refine ⟨hrc, ?_, m', hcount.sound hs l, hA.same rfl rfl rfl h.coherent⟩
    dsimp only
    rw [hcount.inodes, hM.inodes]
  · rw [if_neg hrc] at hrest
    obtain ⟨rfl, l, rfl⟩ := unlocked_cases hrest
    have hl₁ := live_of_relock hl
    have hl₀ : Live fs :=
      hl₁.of_spent (pagedInsert_indexOnly (P := fun _ ↦ True) env p trivial _ _ _ hins).spent
    obtain ⟨rc', fs₃, hins', hgood⟩ :=
      h.insertBoth he hK hp (hv.fits h hn) hn.whole hl₀ hv.absent
    obtain ⟨rfl, rfl⟩ := Prod.mk.inj (Option.some.inj (hins.symm.trans hins'))
    exact (hrc (hgood hl₁).1).elim

omit he hK h in
theorem hollow_sealed (hb : n.iBlocks = 0) (hs : n.iSize = 0) (hu : n.iUnion = Inode.zero.iUnion) :
    Hollow (inodeSetChecksumEcc n) := by
  have hbody := sameBody_sealed n
  refine ⟨sealed_inodeSetChecksumEcc n, hbody.blocks.trans hb, ?_, hbody.size.trans hs⟩
  rw [hbody.extentOff, Inode.iExtentOff, hu]
  rfl

/-- The outcome of `xxfs_create` and of `xxfs_mkdir`: a path in the inode cache is refused. -/
def Made (K : Path → Prop) (p : Path) (n : Inode) (type : UInt8) (m : Inodes) (fs : Fs) (rc : Rc)
    (fs' : Fs) : Prop :=
  (cell fs.icache p ≠ none ∧ rc = .eexist ∧ ∃ l, fs' = { fs with lock := l }) ∨
  (cell fs.icache p = none ∧ rc = .ok ∧ fs'.sb.sInodesCount = fs.sb.sInodesCount + 1 ∧
    ∃ m', Sound K m' ∅ fs' ∧ Added p n type m m' fs fs')

/-- `xxfs_create` and `xxfs_mkdir` differ in the inode and in what they count. -/
theorem Sound.makes {g : UInt64 → Inode} {type : UInt8} {count : Super → Super} {rc : Rc}
    (hp : K p) (hv : cell fs.icache p = none → Vacant m fs p) (hn : ∀ gen, Hollow (g gen))
    (hcount : Counts (· + 1) count)
    (hx : (do
      fsWlock
      let fs ← FsM.get
      if (icacheLookup fs.icache (xxh64 p)).isSome then wreturn .eexist
      else makeEntry env p (g fs.cowGen) type count : FsM Rc) fs = some (rc, fs'))
    (hl : Live fs') : Made K p (g fs.cowGen) type m fs rc fs' := by
  obtain ⟨l, hx⟩ := locked_cases hx
  have hlook := h.lookup_isSome hK hp
  cases hc : cell fs.icache p with
  | some e =>
    rw [hc] at hlook
    simp only [bind_apply, get_apply, Option.bind_some, hlook, Option.isSome_some, ↓reduceIte] at hx
    obtain ⟨rfl, l', rfl⟩ := unlocked_cases hx
    exact .inl ⟨by rw [hc]; simp, rfl, l', rfl⟩
  | none =>
    rw [hc] at hlook
    simp only [bind_apply, get_apply, Option.bind_some, hlook, Option.isSome_none,
      Bool.false_eq_true, ↓reduceIte] at hx
    obtain ⟨hrc, hnum, m', hs, hA⟩ :=
      (h.relock l).sound.made he hK hp ((hv hc).relock l) (hn _) hcount hx hl
    exact .inr ⟨hc, hrc, hnum, m', hs, hA.relock⟩

omit he hK h in
theorem counts_file : Counts (· + 1) fun sb ↦ { sb with
    sInodesCount := sb.sInodesCount + 1, sFreeInodes := sb.sFreeInodes - 1 } :=
  ⟨fun _ ↦ rfl, fun _ ↦ ⟨rfl, rfl, rfl, rfl, rfl⟩⟩

omit he hK h in
theorem counts_dir : Counts (· + 1) fun sb ↦ { sb with sInodesCount := sb.sInodesCount + 1 } :=
  ⟨fun _ ↦ rfl, fun _ ↦ ⟨rfl, rfl, rfl, rfl, rfl⟩⟩

theorem Sound.create {path : Path} {mode uid gid : UInt16} {rc : Rc} (hp : K (pathNormalize path))
    (hv : cell fs.icache (pathNormalize path) = none → Vacant m fs (pathNormalize path))
    (hx : xxfsCreate env path mode uid gid fs = some (rc, fs')) (hl : Live fs') :
    Made K (pathNormalize path) (createdInode (pathNormalize path) mode uid gid fs.cowGen)
      ftReg.toUInt8 m fs rc fs' :=
  h.makes he hK (g := createdInode (pathNormalize path) mode uid gid) hp hv
    (fun _ ↦ hollow_sealed rfl rfl rfl) counts_file hx hl

theorem Sound.mkdir {path : Path} {mode uid gid : UInt16} {rc : Rc} (hp : K (pathNormalize path))
    (hv : cell fs.icache (pathNormalize path) = none → Vacant m fs (pathNormalize path))
    (hx : xxfsMkdir env path mode uid gid fs = some (rc, fs')) (hl : Live fs') :
    Made K (pathNormalize path) (madeDirInode (pathNormalize path) mode uid gid fs.cowGen)
      ftDir.toUInt8 m fs rc fs' :=
  h.makes he hK (g := madeDirInode (pathNormalize path) mode uid gid) hp hv
    (fun _ ↦ hollow_sealed rfl rfl rfl) counts_dir hx hl

end make

end Xxfs.Soundness

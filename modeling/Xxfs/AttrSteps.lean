import Xxfs.RemovalSteps
import Xxfs.WriteSteps

namespace Xxfs.Soundness

open Function
open Xxfs.DiskFormat Xxfs.Machine Xxfs.Allocator Xxfs.PagedIndex Xxfs.PageStore Xxfs.InodeCache
open Xxfs.DirCache Xxfs.Volume Xxfs.Operations Xxfs.Hash Xxfs.PathName Xxfs.IndexRep Xxfs.CacheMap
open Xxfs.IndexState Xxfs.OperationFrames Xxfs.Checksum Xxfs.CacheKeys Xxfs.Frames
open Xxfs.Lib Xxfs.Lib.Computation Xxfs.Lib.Computation.Comp

/-- What follows when the inode `n` has been stored for a path, in the cache and in the index. -/
structure Restored (p : Path) (n : Inode) (m m' : Inodes) (fs fs' : Fs) : Prop
    extends Effect {p} ∅ ∅ m m' fs fs' where
  stored : m' p = some n
  now : Soundness.seen m' fs' p = some n
  bytes : ∀ x, Soundness.seen m fs p = some x → ∀ i ∈ extent x, fs'.img.data i = fs.img.data i
  dcache : fs'.dcache = fs.dcache
  count : fs'.sb.sInodesCount = fs.sb.sInodesCount

section restored

variable {K : Path → Prop} {m m' : Inodes} {fs fs₁ fs₂ : Fs} {p : Path} {n n' : Inode}

theorem Restored.after (hR : Restored p n m m' fs₁ fs₂) (hL : Looked K m fs fs₁)
    (hc : ∀ q, CoherentAt (cell fs.icache q) (m q)) : Restored p n m m' fs fs₂ := by
  refine ⟨(hL.effect.mono (Set.empty_subset _) subset_rfl subset_rfl).trans hR.toEffect hc,
    hR.stored, hR.now, fun x hx i hi ↦ ?_, hR.dcache.trans hL.dcache, hR.count.trans hL.count⟩
  rw [hR.bytes x (by rw [hL.seen]; exact hx) i hi]
  exact hL.effect.data p x (Set.notMem_empty _) hx (fun _ ↦ Set.notMem_empty _) i hi

theorem Restored.relock (hR : Restored p n m m' fs fs₁)
    (hc : ∀ q, CoherentAt (cell fs.icache q) (m q)) (l : Lock) :
    Restored p n m m' fs { fs₁ with lock := l } :=
  ⟨hR.toEffect.trans (effect_same _ _ _ m' rfl rfl rfl) hc, hR.stored, hR.now, hR.bytes, hR.dcache,
    hR.count⟩

theorem Sound.restoredAs (h : Sound K m ∅ fs) {d : Bool}
    (hcell : cell fs₁.icache = update (cell fs.icache) p (some (n, d)))
    (hd : fs₁.dcache = fs.dcache) (hM : Moves (ground m ∅ fs) fs fs₁) :
    Restored p n m (update m p (some n)) fs fs₁ := by
  refine ⟨h.effect_ground {p} ∅ (fun q hq ↦ update_of_ne hq _ _) (fun q hq ↦ ?_) hd hM,
    update_self _ _ _, ?_, fun x hx i hi ↦ hM.data i (extent_subset hx hi), hd, hM.inodes⟩
  · rw [seen, seen, cur, cur, hcell, update_of_ne hq, update_of_ne hq]
  · rw [seen, cur, hcell, update_self]
    rfl

theorem Sound.restored (h : Sound K m ∅ fs) {S' : Set ℕ} (hR : Renewed K m ∅ S' p n fs fs₁) :
    Restored p n m (update m p (some n)) fs fs₁ :=
  h.restoredAs hR.cells hR.dcache hR.moves

theorem Restored.ownListing (hR : Restored p n' m m' fs fs₁) (h : Sound K m ∅ fs)
    (hn : m p = some n) (ht : n.iFileType = ftDir) (hb : SameBody n n') :
    Soundness.listing m' fs₁ p = Soundness.listing m fs p := by
  have hdisk : diskChildren fs₁.img n' = diskChildren fs.img n := by
    rw [hb.diskChildren]
    exact h.diskChildren_eq hn ht (hR.bytes n (cur_dir (h.coherent p) hn ht))
  rw [Soundness.listing, Soundness.listing, dcacheFind_congr hR.dcache, hR.stored, hn,
    Option.map_some, Option.map_some, hdisk]

theorem Sound.fits_same (h : Sound K m ∅ fs) (hn : seen m fs p = some n) (hb : SameBody n n') :
    Fits m ∅ ∅ fs p n' := by
  obtain ⟨x, hx, htx⟩ := h.stored_some hn
  refine ⟨?_, Set.disjoint_empty _, hb.shape (h.owned.shape p n hn), ?_, fun i hv hpath ↦ ?_⟩
  · rw [hn, extentOf_some, hb.extent]
  · rw [kind_update (by rw [kind, hx, Option.map_some, htx, hb.type])]
    exact h.tree
  · have hxp : m (fs.dcache i).path = some x := by rw [hpath, hx]
    have ht := h.listings.typed i x hv hxp
    have hsame : x = n := by
      rw [seen, cur_dir (h.coherent p) hx ht] at hn
      exact Option.some.inj hn
    subst hsame
    refine ⟨hb.type.trans ht, fun hd ↦ ?_⟩
    rw [hb.diskChildren]
    exact h.listings.clean i x hv hd hxp

end restored

section store

variable {env : Env} (he : Healthy env) {K : Path → Prop} (hK : Names K) {m : Inodes}
  {S S' : Set ℕ} {fs fs' : Fs} {p : Path} {n : Inode} {rc : Rc}

def storeTail (env : Env) (p : Path) (n : Inode) : FsM Rc := do
  let rc ← pagedPut env p (inodeToVal n)
  if rc = .ok then icachePut env (xxh64 p) p n
  wreturn rc

include he hK

theorem Sound.stores (h : Sound K m S fs) (hp : K p) (hn : Fits m S S' fs p n) (hs : Sealed n)
    (hx : pagedPut env p (inodeToVal n) fs = some (rc, fs')) (hl : Live fs') :
    rc = .ok ∧ ∃ fs₁, icachePut env (xxh64 p) p n fs' = some ((), fs₁) ∧
      Renewed K m S S' p n fs fs₁ := by
  have hl₀ : Live fs :=
    hl.of_spent (pagedPut_indexOnly (P := fun _ ↦ True) env p trivial _ _ _ hx).spent
  obtain ⟨rc₂, fs₂, hput, hgood⟩ := h.storeBoth he hK hp hn hs hl₀
  obtain ⟨rfl, rfl⟩ := Prod.mk.inj (Option.some.inj (hx.symm.trans hput))
  obtain ⟨hrc, fs₃, hcache, -, hR⟩ := hgood hl
  exact ⟨hrc, fs₃, hcache, hR⟩

theorem Sound.storesTail (h : Sound K m S fs) (hp : K p) (hn : Fits m S S' fs p n) (hs : Sealed n)
    (hx : storeTail env p n fs = some (rc, fs')) (hl : Live fs') :
    rc = .ok ∧ ∃ fs₁ l, fs' = { fs₁ with lock := l } ∧ Renewed K m S S' p n fs fs₁ := by
  obtain ⟨rc₁, fs₁, hput, hrest⟩ := of_bind hx
  have hspends : Within Spends
      (if rc₁ = .ok then icachePut env (xxh64 p) p n >>= fun _ ↦ wreturn rc₁ else wreturn rc₁) :=
    .ite (fun _ ↦ .bind (spends_of_inside (icachePut_inside env p n)) fun _ ↦ wreturn_spends _)
      fun _ ↦ wreturn_spends _
  have hl₁ : Live fs₁ := live_before hspends hrest hl
  obtain ⟨rfl, fs₃, hcache, hR⟩ := h.stores he hK hp hn hs hput hl₁
  rw [if_pos rfl, bind_apply, hcache, Option.bind_some] at hrest
  obtain ⟨rfl, l, rfl⟩ := unlocked_cases hrest
  exact ⟨rfl, fs₃, l, rfl, hR⟩

end store

section attributes

variable {env : Env} (he : Healthy env) {K : Path → Prop} (hK : Names K) {m : Inodes} {fs fs' : Fs}
  (h : Sound K m ∅ fs) {path : Path} {rc : Rc}
include he hK h

/-- The inode that `xxfs_chmod`, `xxfs_chown` or `xxfs_utime` stores. -/
def attrInode (set : Inode → Inode) (n : Inode) (now : UInt64) : Inode :=
  inodeSetChecksumEcc { set n with iCtime := now }

omit he hK h in
theorem sameBody_attr {set : Inode → Inode} (hset : ∀ n, SameBody n (set n)) (n : Inode)
    (now : UInt64) : SameBody n (attrInode set n now) := by
  have hs := sameBody_sealed { set n with iCtime := now }
  have hb := hset n
  exact ⟨hs.type.trans hb.type, hs.size.trans hb.size, hs.blocks.trans hb.blocks,
    hs.content.trans hb.content⟩

/-- Setting attributes of a path whose cached inode has the body of the indexed one. -/
theorem Sound.setAttr {set : Inode → Inode} (hset : ∀ n, SameBody n (set n))
    (hp : K (pathNormalize path))
    (hsame : ∀ x y, seen m fs (pathNormalize path) = some x → m (pathNormalize path) = some y →
      SameBody x y)
    (hx : setAttr env set path fs = some (rc, fs')) (hl : Live fs') :
    match m (pathNormalize path) with
    | none => rc = .enoent ∧ Looked K m fs fs'
    | some n => rc = .ok ∧ ∃ now m', Sound K m' ∅ fs' ∧
        Restored (pathNormalize path) (attrInode set n now) m m' fs fs' := by
  rw [Operations.setAttr] at hx
  obtain ⟨l, hx⟩ := locked_cases hx
  generalize pathNormalize path = p at *
  have hL₀ := h.relock l
  obtain ⟨fs₁, hget, hs₁, hk₁, -, -⟩ := hL₀.sound.indexGet he (hK.length_lt hp)
  have hL₁ := hL₀.trans (hL₀.sound.looked_kept hk₁ hs₁) h.coherent
  rw [bind_apply, hget, Option.bind_some] at hx
  cases hm : m p with
  | none =>
    rw [hm] at hx
    obtain ⟨rfl, l', rfl⟩ := unlocked_cases hx
    exact ⟨rfl, hL₁.trans (hs₁.relock l') h.coherent⟩
  | some n =>
    rw [hm] at hx
    obtain ⟨x, hseen⟩ : ∃ x, seen m fs p = some x := by
      refine Option.ne_none_iff_exists'.mp fun hnone ↦ ?_
      rw [cur_none (h.coherent p), hm] at hnone
      cases hnone
    have hL₂ := hL₁.trans (hs₁.atClock (fs₁.clock + 1)) h.coherent
    change storeTail env p (attrInode set n (env.time fs₁.clock))
      { fs₁ with clock := fs₁.clock + 1 } = some (rc, fs') at hx
    have hfits := hL₂.sound.fits_same (by rw [hL₂.seen]; exact hseen)
      ((hsame x n hseen hm).trans (sameBody_attr hset n (env.time fs₁.clock)))
    obtain ⟨hrc, fs₂, l', rfl, hR⟩ := hL₂.sound.storesTail he hK hp hfits
      (sealed_inodeSetChecksumEcc _) hx hl
    exact ⟨hrc, _, _, (hR.sound.relock l').sound,
      ((hL₂.sound.restored hR).after hL₂ h.coherent).relock h.coherent l'⟩

end attributes

/-- A free path under a directory, of which no listing is cached. -/
structure Spot (m : Inodes) (fs : Fs) (p : Path) : Prop where
  absent : m p = none
  unlisted : dcacheFind fs p = none
  parent : kind m (getParentPath p) = some ftDir

section symlink

variable {env : Env} (he : Healthy env) {K : Path → Prop} (hK : Names K) {m : Inodes} {fs fs' : Fs}
  (h : Sound K m ∅ fs) {rc : Rc}

theorem linkInode_shape {target : Path} (ht : target.length ≤ inlineMax) (now : UInt64) (size : ℕ) :
    Shape size (linkInode target now) ∧ (linkInode target now).iBlocks = 0 := by
  have hbody := sameBody_sealed { Inode.zero with
    iFileType := ftLnk
    iNlinks := 1
    iSize := UInt64.ofNat target.length
    iAtime := now
    iMtime := now
    iCtime := now
    iBtime := now
    iUnion := arrCopy (fun _ ↦ 0) 0 target.length (bytesAt target) }
  have hb : (linkInode target now).iBlocks = 0 := hbody.blocks
  refine ⟨⟨fun hd ↦ ?_, fun _ ↦ .inl ⟨hb, ?_⟩, fun hpos ↦ ?_, fun hpos ↦ ?_⟩, hb⟩
  · have : ftLnk = ftDir := hbody.type.symm.trans hd
    exact absurd this (by decide)
  · have h128 : inlineMax = 128 := rfl
    have hs : (linkInode target now).iSize = UInt64.ofNat target.length := hbody.size
    rw [hs, UInt64.toNat_ofNat']
    exact (Nat.mod_le _ _).trans ht
  · rw [hb] at hpos
    cases hpos
  · rw [hb] at hpos
    cases hpos

include he hK h

theorem Sound.symlink {target linkpath : Path} (hp : K (pathNormalize linkpath))
    (hspot : m (pathNormalize linkpath) = none → Spot m fs (pathNormalize linkpath))
    (hx : xxfsSymlink env target linkpath fs = some (rc, fs')) (hl : Live fs') :
    if target.length > inlineMax then rc = .enametoolong ∧ fs' = fs
    else match seen m fs (pathNormalize linkpath) with
    | some _ => rc = .eexist ∧ Looked K m fs fs'
    | none => rc = .ok ∧ ∃ now m', Sound K m' ∅ fs' ∧
        Restored (pathNormalize linkpath) (linkInode target now) m m' fs fs' := by
  rw [xxfsSymlink] at hx
  split
  · rename_i hlong
    rw [if_pos hlong] at hx
    obtain ⟨rfl, rfl⟩ := Prod.mk.inj (Option.some.inj hx)
    exact ⟨rfl, rfl⟩
  · rename_i hlong
    rw [if_neg hlong] at hx
    obtain ⟨l, hx⟩ := locked_cases hx
    generalize pathNormalize linkpath = p at *
    obtain ⟨fs₁, hfetch, hL₁, -⟩ := h.fetchLocked he hK (hK.untwinned hp) (hK.length_lt hp) l
    rw [bind_apply, hfetch, Option.bind_some] at hx
    cases hseen : seen m fs p with
    | some n =>
      rw [hseen] at hx
      obtain ⟨rfl, l', rfl⟩ := unlocked_cases hx
      exact ⟨rfl, hL₁.trans (hL₁.sound.relock l') h.coherent⟩
    | none =>
      rw [hseen] at hx
      obtain ⟨habsent, hunlisted, hparent⟩ := hspot ((cur_none (h.coherent p)).mp hseen)
      have hL₂ := hL₁.trans (hL₁.sound.atClock (fs₁.clock + 1)) h.coherent
      change storeTail env p (linkInode target (env.time fs₁.clock))
        { fs₁ with clock := fs₁.clock + 1 } = some (rc, fs') at hx
      obtain ⟨hshape, hb⟩ := linkInode_shape (Nat.le_of_not_lt hlong) (env.time fs₁.clock)
        fs₁.img.size
      have hfits : Fits m ∅ ∅ { fs₁ with clock := fs₁.clock + 1 } p
          (linkInode target (env.time fs₁.clock)) := by
        refine hL₂.sound.fits_new habsent ?_ hparent (extent_empty hb).subset hshape
        rw [dcacheFind_congr hL₂.dcache]
        exact hunlisted
      obtain ⟨hrc, fs₂, l', rfl, hR⟩ := hL₂.sound.storesTail he hK hp hfits
        (sealed_inodeSetChecksumEcc _) hx hl
      exact ⟨hrc, _, _, (hR.sound.relock l').sound,
        ((hL₂.sound.restored hR).after hL₂ h.coherent).relock h.coherent l'⟩

end symlink

/-- What follows when an entry has been moved. -/
structure Renamed (old new : Path) (n n' : Inode) (m m' : Inodes) (fs fs' : Fs) : Prop
    extends Effect {old, new} ∅ ∅ m m' fs fs' where
  gone : m' old = none
  unseen : Soundness.seen m' fs' old = none
  stored : m' new = some n'
  now : Soundness.seen m' fs' new = some n'
  bytes : ∀ i ∈ extent n, fs'.img.data i = fs.img.data i
  dcache : fs'.dcache = fs.dcache
  count : fs'.sb.sInodesCount = fs.sb.sInodesCount

section rename

variable {env : Env} (he : Healthy env) {K : Path → Prop} (hK : Names K) {m : Inodes} {fs fs' : Fs}
  (h : Sound K m ∅ fs) {rc : Rc}

def renamedInode (n : Inode) (new : Path) (now : UInt64) : Inode :=
  inodeSetChecksumEcc { n with iCtime := now, iName := nameTerminated n.iName new }

theorem sameBody_renamed (n : Inode) (new : Path) (now : UInt64) :
    SameBody n (renamedInode n new now) := by
  have hs := sameBody_sealed { n with iCtime := now, iName := nameTerminated n.iName new }
  exact ⟨hs.type, hs.size, hs.blocks, hs.content⟩

include he hK h

theorem Sound.moves {old new : Path} {n n' : Inode} (hold : K old) (hnew : K new)
    (hn : seen m fs old = some n) (hm : m old = some n) (hleaf : Leaf K m fs old)
    (hspot : Spot m fs new) (hnot : getParentPath new ≠ old) (hb : SameBody n n') (hs : Sealed n')
    {fs₁ fs₂ fs₃ : Fs} {rc' : Rc} (hdel : pagedDel env old fs = some (rc', fs₁))
    (hcache : icacheDel (xxh64 old) fs₁ = some ((), fs₂))
    (hput : pagedPut env new (inodeToVal n') fs₂ = some (rc, fs₃)) (hl : Live fs₃) :
    rc = .ok ∧ ∃ fs₄, icachePut env (xxh64 new) new n' fs₃ = some ((), fs₄) ∧
      ∃ m', Sound K m' ∅ fs₄ ∧ Renamed old new n n' m m' fs fs₄ := by
  have hne : new ≠ old := by
    rintro rfl
    rw [hspot.absent] at hm
    cases hm
  obtain ⟨fs₁', fs₂', hdel', hcache', hsound, hE, hd, hM, hsb⟩ := h.deleted he hK hold hm hleaf
  obtain ⟨-, rfl⟩ := Prod.mk.inj (Option.some.inj (hdel.symm.trans hdel'))
  obtain ⟨-, rfl⟩ := Prod.mk.inj (Option.some.inj (hcache.symm.trans hcache'))
  have hs₂ : Sound K (update m old none) (extent n) fs₂ :=
    hsound _ (by rw [hn, extentOf_some])
  have hfits : Fits (update m old none) (extent n) ∅ fs₂ new n' := by
    refine hs₂.fits_new ?_ ?_ ?_ hb.extent.subset (hb.shape ((h.owned.shape old n hn).mono hM.size))
    · rw [update_of_ne hne]
      exact hspot.absent
    · rw [dcacheFind_congr hd]
      exact hspot.unlisted
    · rw [kind, update_of_ne hnot]
      exact hspot.parent
  obtain ⟨hrc, fs₄, hcache₄, hR⟩ := hs₂.stores he hK hnew hfits hs hput hl
  refine ⟨hrc, fs₄, hcache₄, _, hR.sound, ?_, ?_, ?_, update_self _ _ _, ?_, fun i hi ↦ ?_,
    hR.dcache.trans hd, ?_⟩
  · refine (hE.mono (by simp) subset_rfl subset_rfl).trans
      ((hs₂.effect_renewed hR).mono (by simp) subset_rfl subset_rfl) h.coherent
  · rw [update_of_ne hne.symm, update_self]
  · have hgone : cell fs₂.icache old = none := by
      have := hs₂.coherent old
      rw [update_self] at this
      cases hc : cell fs₂.icache old with
      | none => rfl
      | some x =>
        obtain ⟨z, hz, -⟩ := this x.1 x.2 hc
        cases hz
    rw [seen, cur, hR.cells, update_of_ne hne.symm, update_of_ne hne.symm, update_self, hgone]
    rfl
  · rw [seen, cur, hR.cells, update_self]
    rfl
  · have hhand : i ∈ ground (update m old none) (extent n) fs₂ :=
      Shares.subset_owned (share _ _ (extent n)) .hand hi
    rw [hR.moves.data i hhand]
    exact hM.data i (extent_subset hn hi)
  · rw [hR.moves.inodes, hsb]

omit he hK h in
theorem Renamed.after {old new : Path} {n n' : Inode} {m' : Inodes} {fs₁ : Fs}
    (hR : Renamed old new n n' m m' fs₁ fs') (hL : Looked K m fs fs₁)
    (hc : ∀ q, CoherentAt (cell fs.icache q) (m q)) (hn : seen m fs old = some n) :
    Renamed old new n n' m m' fs fs' := by
  refine ⟨(hL.effect.mono (Set.empty_subset _) subset_rfl subset_rfl).trans hR.toEffect hc,
    hR.gone, hR.unseen, hR.stored, hR.now, fun i hi ↦ ?_, hR.dcache.trans hL.dcache,
    hR.count.trans hL.count⟩
  rw [hR.bytes i hi]
  exact hL.effect.data old n (Set.notMem_empty _) hn (fun _ ↦ Set.notMem_empty _) i hi

omit he hK h in
theorem Renamed.relock {old new : Path} {n n' : Inode} {m' : Inodes}
    (hR : Renamed old new n n' m m' fs fs') (hc : ∀ q, CoherentAt (cell fs.icache q) (m q))
    (l : Lock) : Renamed old new n n' m m' fs { fs' with lock := l } :=
  ⟨hR.toEffect.trans (effect_same _ _ _ m' rfl rfl rfl) hc, hR.gone, hR.unseen, hR.stored, hR.now,
    hR.bytes, hR.dcache, hR.count⟩

/-- The move of a path without children whose cached inode is the indexed one. -/
theorem Sound.rename {oldPath newPath : Path} (hold : K (pathNormalize oldPath))
    (hnew : K (pathNormalize newPath))
    (hsame : seen m fs (pathNormalize oldPath) = m (pathNormalize oldPath))
    (hleaf : m (pathNormalize oldPath) ≠ none → Leaf K m fs (pathNormalize oldPath))
    (hspot : m (pathNormalize oldPath) ≠ none → Spot m fs (pathNormalize newPath))
    (hnot : getParentPath (pathNormalize newPath) ≠ pathNormalize oldPath)
    (hx : xxfsRename env oldPath newPath fs = some (rc, fs')) (hl : Live fs') :
    match m (pathNormalize oldPath) with
    | none => rc = .enoent ∧ Looked K m fs fs'
    | some n => rc = .ok ∧ ∃ now m', Sound K m' ∅ fs' ∧
        Renamed (pathNormalize oldPath) (pathNormalize newPath) n
          (renamedInode n (pathNormalize newPath) now) m m' fs fs' := by
  rw [xxfsRename] at hx
  obtain ⟨l, hx⟩ := locked_cases hx
  generalize pathNormalize oldPath = old at *
  generalize pathNormalize newPath = new at *
  have hL₀ := h.relock l
  obtain ⟨fs₁, hget, hs₁, hk₁, -, hone⟩ := hL₀.sound.indexGet he (hK.length_lt hold)
  have hL₁ := hL₀.trans (hL₀.sound.looked_kept hk₁ hs₁) h.coherent
  rw [bind_apply, hget, Option.bind_some] at hx
  cases hm : m old with
  | none =>
    rw [hm] at hx
    obtain ⟨rfl, l', rfl⟩ := unlocked_cases hx
    exact ⟨rfl, hL₁.trans (hs₁.relock l') h.coherent⟩
  | some n =>
    have hsome : m old ≠ none := by rw [hm]; simp
    obtain ⟨hroot, hchildless, hsingle, hfrees⟩ := hleaf hsome
    obtain ⟨habsent, hunlisted, hparent⟩ := hspot hsome
    rw [hm] at hx hsame
    have hL₂ := hL₁.trans (hs₁.atClock (fs₁.clock + 1)) h.coherent
    have hleaf₂ : Leaf K m { fs₁ with clock := fs₁.clock + 1 } old := by
      refine ⟨hroot, hchildless, fun L hL ↦ ?_, ?_⟩
      · exact hone old (h.single_relock hsingle l) L (hL.same rfl rfl rfl rfl)
      · have hio := hk₁.only.icache
        dsimp only at hio ⊢
        rwa [hio]
    have hspot₂ : Spot m { fs₁ with clock := fs₁.clock + 1 } new := by
      refine ⟨habsent, ?_, hparent⟩
      rw [dcacheFind_congr hL₂.dcache]
      exact hunlisted
    have hseen₂ : seen m { fs₁ with clock := fs₁.clock + 1 } old = some n := by
      rw [hL₂.seen, hsame]
    dsimp only [answered] at hx
    obtain ⟨now, _, htime, hx⟩ := of_bind hx
    obtain ⟨rfl, rfl⟩ := Prod.mk.inj (Option.some.inj htime)
    obtain ⟨_, fs₃, hdel, hx⟩ := of_bind hx
    obtain ⟨⟨rc₁, fs₃'⟩, hdel', hfs⟩ := Option.bind_eq_some_iff.mp hdel
    obtain ⟨-, rfl⟩ := Prod.mk.inj (Option.some.inj hfs)
    obtain ⟨_, fs₄, hcache, hx⟩ := of_bind hx
    obtain ⟨rc₂, fs₅, hput, hx⟩ := of_bind hx
    have hspends : Within Spends (if rc₂ = .ok then
        icachePut env (xxh64 new) new (renamedInode n new (env.time fs₁.clock)) >>= fun _ ↦
          wreturn rc₂
        else discard (pagedPut env old
            (inodeToVal (renamedInode n new (env.time fs₁.clock)))) >>= fun _ ↦
          icachePut env (xxh64 old) old (renamedInode n new (env.time fs₁.clock)) >>= fun _ ↦
          wreturn rc₂) :=
      .ite (fun _ ↦ .bind (spends_of_inside (icachePut_inside env new _)) fun _ ↦ wreturn_spends _)
        fun _ ↦ .bind (.bind (spends_of_index (pagedPut_indexOnly env old trivial)) fun _ ↦ .pure _) fun _ ↦
          .bind (spends_of_inside (icachePut_inside env old _)) fun _ ↦ wreturn_spends _
    have hl₅ : Live fs₅ := live_before hspends hx hl
    obtain ⟨rfl, fs₆, hcache₆, m', hs₆, hR⟩ := hL₂.sound.moves he hK hold hnew hseen₂ hm hleaf₂
      hspot₂ hnot (sameBody_renamed n new (env.time fs₁.clock)) (sealed_inodeSetChecksumEcc _)
      hdel' hcache hput hl₅
    change (icachePut env (xxh64 new) new (renamedInode n new (env.time fs₁.clock)) fs₅).bind _ = _
      at hx
    rw [hcache₆, Option.bind_some] at hx
    obtain ⟨rfl, l', rfl⟩ := unlocked_cases hx
    exact ⟨rfl, _, m', (hs₆.relock l').sound, (hR.after hL₂ h.coherent hsame).relock h.coherent l'⟩

end rename

end Xxfs.Soundness

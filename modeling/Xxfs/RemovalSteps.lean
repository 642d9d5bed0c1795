import Xxfs.LookSteps
import Xxfs.WriteBack

namespace Xxfs.Soundness

open Function
open Xxfs.DiskFormat Xxfs.Machine Xxfs.Allocator Xxfs.PagedIndex Xxfs.PageStore Xxfs.InodeCache
open Xxfs.DirCache Xxfs.Volume Xxfs.Operations Xxfs.Hash Xxfs.PathName Xxfs.IndexRep Xxfs.CacheMap
open Xxfs.IndexState Xxfs.OperationFrames Xxfs.Checksum Xxfs.CacheKeys Xxfs.Frames
open Xxfs.Lib Xxfs.Lib.Computation Xxfs.Lib.Computation.Comp

/-- A path that may go: no other one is below it, and index and cache can do without it. -/
structure Leaf (K : Path → Prop) (m : Inodes) (fs : Fs) (p : Path) : Prop where
  ne_root : p ≠ rootPath
  childless : ∀ q, q ≠ rootPath → m q ≠ none → getParentPath q ≠ p
  loose : Loose K fs p

/-- What follows when an entry has been removed. -/
structure Removed (p : Path) (m m' : Inodes) (fs fs' : Fs) : Prop
    extends Effect {p} {getParentPath p} (rivals fs (getParentPath p)) m m' fs fs' where
  gone : m' p = none
  now : ∃ cs, Soundness.listing m fs (getParentPath p) = some cs ∧
    Soundness.listing m' fs' (getParentPath p) = some (without cs (getBasename p))
  cached : ∀ q, dcacheFind fs' q ≠ none → q = getParentPath p ∨ dcacheFind fs q ≠ none

section remove

variable {env : Env} (he : Healthy env) {K : Path → Prop} (hK : Names K) {m : Inodes} {fs fs' : Fs}
  (h : Sound K m ∅ fs) {p : Path} {n : Inode}
include he hK h

theorem Sound.deleted (hp : K p) (hn : m p = some n) (hleaf : Leaf K m fs p) : ∃ fs₁ fs₂,
    pagedDel env p fs = some (.ok, fs₁) ∧ icacheDel (xxh64 p) fs₁ = some ((), fs₂) ∧
      (∀ S ⊆ extentOf (seen m fs p), Sound K (update m p none) S fs₂) ∧
      Effect {p} ∅ ∅ m (update m p none) fs fs₂ ∧ fs₂.dcache = fs.dcache ∧
      Moves (ground m ∅ fs) fs fs₂ ∧ fs₂.sb = fs.sb := by
  obtain ⟨L, hb⟩ := h.backed
  obtain ⟨fs₁, L₁, hdel, hb₁, hk, hsb⟩ := hb.pagedDel he hK hp hleaf.loose.single
  rw [hn, Option.isSome_some, if_pos rfl] at hdel
  have hset : Settled K fs₁.icache := by rw [hk.only.icache]; exact h.settled
  have hroom : Roomy K (dropped fs₁.icache p) := by
    rw [hk.only.icache]
    exact hleaf.loose.frees _ .refl
  obtain ⟨c, hcache, hset', hcell⟩ := icacheDel_apply hK.distinct hset hp hroom
  rw [hk.only.icache] at hcell
  have hM : Moves (ground m ∅ fs) fs { fs₁ with icache := c } :=
    (Moves.of_kept hk).trans (.caches _ fs₁ c _ _)
  refine ⟨fs₁, _, hdel, hcache, fun S hS ↦ ?_, ?_, hk.only.dcache, hM, hsb⟩
  · exact h.removed hset' hcell hk.only.dcache hM (hb₁.same rfl rfl rfl rfl)
      (h.tree.remove hleaf.ne_root hleaf.childless) (hS.trans Set.subset_union_left)
  · refine h.effect_ground {p} ∅ (fun q hq ↦ update_of_ne hq _ _) (fun q hq ↦ ?_) hk.only.dcache hM
    rw [seen, seen, cur, cur, hcell, update_of_ne hq, update_of_ne hq]

theorem Sound.removes (hp : K p) (hn : m p = some n) (hleaf : Leaf K m fs p) {rc : Rc}
    (hx : removeEntry env p fs = some (rc, fs')) (hl : Live fs') :
    rc = .ok ∧ fs'.sb.sInodesCount = fs.sb.sInodesCount - 1 ∧ ∃ m', Sound K m' ∅ fs' ∧
      Removed p m m' fs fs' := by
  obtain ⟨fs₁, fs₂, hdel, hcache, hs, hE₁, hd, hM, -⟩ := h.deleted he hK hp hn hleaf
  rw [removeEntry, bind_apply, hdel, Option.bind_some, if_pos rfl, bind_apply, hcache,
    Option.bind_some] at hx
  obtain ⟨_, fs₃, hrem, hrest⟩ := of_bind hx
  obtain ⟨⟨rc', fs₄⟩, hrem', hfs⟩ := Option.bind_eq_some_iff.mp hrem
  obtain ⟨-, rfl⟩ := Prod.mk.inj (Option.some.inj hfs)
  obtain ⟨rfl, rfl⟩ := Prod.mk.inj (Option.some.inj hrest)
  have hl₃ : Live fs₄ := ⟨hl.pool, hl.addr⟩
  obtain ⟨x, hx, htx⟩ := kind_some (h.tree.parent p hleaf.ne_root (by rw [kind, hn]; simp))
  obtain ⟨cs, hcs⟩ := listing_some fs hx
  have hne : getParentPath p ≠ p := hleaf.childless p hleaf.ne_root (by rw [hn]; simp)
  have hlist := hE₁.listing _ x hne (Set.notMem_empty _) hx htx
  obtain ⟨m', hs', hL⟩ := (hs ∅ (Set.empty_subset _)).childRemoved he hK (hK.parent p hp)
    ((update_of_ne hne _ _).trans hx) htx (hlist.trans hcs) hrem' hl₃
  have hrivals : rivals fs₂ (getParentPath p) = rivals fs (getParentPath p) := by
    rw [rivals, rivals, dirtyAt, dirtyAt, hd]
  have hE₂ := hL.toEffect
  rw [hrivals] at hE₂
  have hE : Effect {p} {getParentPath p} (rivals fs (getParentPath p)) m m' fs fs₄ :=
    (hE₁.mono subset_rfl (Set.empty_subset _) (Set.empty_subset _)).trans
      (hE₂.mono (Set.empty_subset _) subset_rfl subset_rfl) h.coherent
  refine ⟨rfl, ?_, m', hs'.same rfl rfl rfl rfl rfl ⟨rfl, rfl, rfl, rfl, rfl⟩,
    hE.trans (effect_same _ _ _ m' rfl rfl rfl) h.coherent, ?_, ⟨cs, hcs, ?_⟩, fun q hq ↦ ?_⟩
  · dsimp only
    rw [hL.moves.inodes, hM.inodes]
  · rcases hE₂.inodes p (Set.notMem_empty _) with ⟨hm, -⟩ | ⟨-, y, -, hy, -⟩
    · exact hm.trans (update_self _ _ _)
    · rw [update_self] at hy
      cases hy
  · rw [← hL.now]
    exact listing_congr (by rfl) (by rfl) _
  · rcases hL.cached hq with hd' | hc
    · exact .inl hd'
    · exact .inr (by rwa [dcacheFind_congr hd] at hc)

end remove

section unlink

variable {K : Path → Prop} {m m' : Inodes} {fs fs₁ fs' : Fs} {p : Path} {n : Inode}

theorem Removed.after (hR : Removed p m m' fs₁ fs') (hL : Looked K m fs fs₁)
    (hc : ∀ q, CoherentAt (cell fs.icache q) (m q)) (hd : kind m (getParentPath p) = some ftDir) :
    Removed p m m' fs fs' := by
  have hrivals : rivals fs₁ (getParentPath p) = rivals fs (getParentPath p) := by
    rw [rivals, rivals, dirtyAt, dirtyAt, hL.dcache]
  have hE := hR.toEffect
  rw [hrivals] at hE
  obtain ⟨cs, hcs, hnow⟩ := hR.now
  refine ⟨(hL.effect.mono (Set.empty_subset _) (Set.empty_subset _) (Set.empty_subset _)).trans hE hc,
    hR.gone, ⟨cs, (hL.listing hd).symm.trans hcs, hnow⟩, fun q hq ↦ ?_⟩
  rw [← dcacheFind_congr hL.dcache]
  exact hR.cached q hq

theorem Removed.andThen {fs₂ : Fs} (hR : Removed p m m' fs fs') (hL : Looked K m' fs' fs₂)
    (hc : ∀ q, CoherentAt (cell fs.icache q) (m q)) (hd : kind m (getParentPath p) = some ftDir)
    (hne : getParentPath p ≠ p) : Removed p m m' fs fs₂ := by
  obtain ⟨cs, hcs, hnow⟩ := hR.now
  have hd' : kind m' (getParentPath p) = some ftDir := (hR.toEffect.kind hne).trans hd
  refine ⟨hR.toEffect.trans
    (hL.effect.mono (Set.empty_subset _) (Set.empty_subset _) (Set.empty_subset _)) hc, hR.gone,
    ⟨cs, hcs, (hL.listing hd').trans hnow⟩, fun q hq ↦ hR.cached q ?_⟩
  rwa [dcacheFind_congr hL.dcache] at hq

variable (h : Sound K m ∅ fs)
include h

theorem Sound.leaf_file (hn : m p = some n) (ht : n.iFileType ≠ ftDir) (hs : Loose K fs p) :
    Leaf K m fs p := by
  have hkind : kind m p ≠ some ftDir := by
    rw [kind, hn]
    simpa using ht
  refine ⟨fun hp ↦ hkind (hp ▸ h.tree.root), fun q hq hmq hpar ↦ hkind ?_, hs⟩
  rw [← hpar]
  refine h.tree.parent q hq fun hk ↦ hmq ?_
  rwa [kind, Option.map_eq_none_iff] at hk

end unlink

/-- The outcome of `xxfs_unlink` and of `xxfs_rmdir` on a path of the right type. -/
def Unlinked (K : Path → Prop) (p : Path) (m : Inodes) (fs : Fs) (rc : Rc) (fs' : Fs) : Prop :=
  rc = .ok ∧ fs'.sb.sInodesCount = fs.sb.sInodesCount - 1 ∧ ∃ m', Sound K m' ∅ fs' ∧
    Removed p m m' fs fs'

section outcomes

variable {env : Env} (he : Healthy env) {K : Path → Prop} (hK : Names K) {m : Inodes} {fs fs' : Fs}
  (h : Sound K m ∅ fs) {path : Path} {rc : Rc}
include he hK h

theorem Sound.removesFetched {p : Path} {n : Inode} {fs₁ fs₂ : Fs} (hp : K p)
    (hn : seen m fs p = some n) (hleaf : Leaf K m fs p) (hL : Looked K m fs fs₁)
    (hs : Loose K fs₁ p) (hx : removeEntry env p fs₁ = some (rc, fs')) (hl : Live fs')
    (hend : ∀ m', Sound K m' ∅ fs' → Looked K m' fs' fs₂) : Unlinked K p m fs rc fs₂ := by
  obtain ⟨x, hx', -⟩ := h.stored_some hn
  obtain ⟨hrc, hcount, m', hs', hR⟩ := hL.sound.removes he hK hp hx'
    ⟨hleaf.ne_root, hleaf.childless, hs⟩ hx hl
  have hsome : m p ≠ none := by rw [hx']; simp
  have hd := h.tree.parent p hleaf.ne_root fun hk ↦ hsome (Option.map_eq_none_iff.mp hk)
  have hL' := hend m' hs'
  refine ⟨hrc, ?_, m', hL'.sound, (hR.after hL h.coherent hd).andThen hL' h.coherent hd
    (hleaf.childless p hleaf.ne_root hsome)⟩
  rw [hL'.count, hcount, hL.count]

theorem Sound.unlink (hp : K (pathNormalize path))
    (hone : kind m (pathNormalize path) ≠ some ftDir → Loose K fs (pathNormalize path))
    (hx : xxfsUnlink env path fs = some (rc, fs')) (hl : Live fs') :
    match seen m fs (pathNormalize path) with
    | none => rc = .enoent ∧ Looked K m fs fs'
    | some n =>
      if n.iFileType = ftDir then rc = .eisdir ∧ Looked K m fs fs'
      else Unlinked K (pathNormalize path) m fs rc fs' := by
  obtain ⟨l, hx⟩ := locked_cases hx
  generalize pathNormalize path = p at *
  obtain ⟨fs₁, hfetch, hL, hloose⟩ := h.fetchLocked he hK (hK.untwinned hp) (hK.length_lt hp) l
  rw [bind_apply, hfetch, Option.bind_some] at hx
  cases hn : seen m fs p with
  | none =>
    rw [hn] at hx
    obtain ⟨rfl, l', rfl⟩ := unlocked_cases hx
    exact ⟨rfl, hL.trans (hL.sound.relock l') h.coherent⟩
  | some n =>
    rw [hn] at hx
    dsimp only at hx ⊢
    split
    · rename_i ht
      rw [if_pos ht] at hx
      obtain ⟨rfl, l', rfl⟩ := unlocked_cases hx
      exact ⟨rfl, hL.trans (hL.sound.relock l') h.coherent⟩
    · rename_i ht
      rw [if_neg ht] at hx
      obtain ⟨x, hmx, htx⟩ := h.stored_some hn
      obtain ⟨rc', fs₂, hrem, hrest⟩ := of_bind hx
      obtain ⟨rfl, l', rfl⟩ := unlocked_cases hrest
      have hs : Loose K fs p := hone (by rw [kind, hmx]; simpa [htx] using ht)
      exact h.removesFetched he hK hp hn (h.leaf_file hmx (htx ▸ ht) hs) hL (hloose hs) hrem
        (live_of_relock hl) fun m' hs' ↦ hs'.relock l'

omit hK in
theorem Sound.looked_superWrite (hx : Volume.superWrite env fs = some ((), fs')) : Looked K m fs fs' := by
  obtain ⟨fs₁, hx', hs, hE, -, ho⟩ := h.superWrite he
  obtain ⟨-, rfl⟩ := Prod.mk.inj (Option.some.inj (hx.symm.trans hx'))
  exact ⟨hs, hE, ho.only.dcache, ho.only.inodes⟩

theorem Sound.rmdir (hp : K (pathNormalize path))
    (hleaf : kind m (pathNormalize path) = some ftDir → Leaf K m fs (pathNormalize path))
    (hx : xxfsRmdir env path fs = some (rc, fs')) (hl : Live fs') :
    if pathNormalize path = rootPath then rc = .einval ∧ fs' = fs
    else match seen m fs (pathNormalize path) with
    | none => rc = .enoent ∧ Looked K m fs fs'
    | some n =>
      if n.iFileType ≠ ftDir then rc = .enotdir ∧ Looked K m fs fs'
      else Unlinked K (pathNormalize path) m fs rc fs' := by
  rw [xxfsRmdir] at hx
  generalize pathNormalize path = p at *
  by_cases hroot : p = rootPath
  · rw [if_pos hroot] at hx ⊢
    obtain ⟨rfl, rfl⟩ := Prod.mk.inj (Option.some.inj hx)
    exact ⟨rfl, rfl⟩
  rw [if_neg hroot] at hx ⊢
  obtain ⟨l, hx⟩ := locked_cases hx
  obtain ⟨fs₁, hfetch, hL, hloose⟩ := h.fetchLocked he hK (hK.untwinned hp) (hK.length_lt hp) l
  rw [bind_apply, hfetch, Option.bind_some] at hx
  cases hn : seen m fs p with
  | none =>
    rw [hn] at hx
    obtain ⟨rfl, l', rfl⟩ := unlocked_cases hx
    exact ⟨rfl, hL.trans (hL.sound.relock l') h.coherent⟩
  | some n =>
    rw [hn] at hx
    dsimp only at hx ⊢
    split
    · rename_i ht
      rw [if_pos ht] at hx
      obtain ⟨rfl, l', rfl⟩ := unlocked_cases hx
      exact ⟨rfl, hL.trans (hL.sound.relock l') h.coherent⟩
    · rename_i ht
      rw [if_neg ht] at hx
      obtain ⟨x, hmx, htx⟩ := h.stored_some hn
      have hs : Leaf K m fs p := hleaf (by rw [kind, hmx]; simpa [htx] using ht)
      obtain ⟨rc', fs₂, hrem, hrest⟩ := of_bind hx
      simp only [bind_apply, get_apply, Option.bind_some] at hrest
      have hfin (hl₂ : Live fs₂) (hend : ∀ m', Sound K m' ∅ fs₂ → Looked K m' fs₂ fs') :
          Unlinked K p m fs rc' fs' :=
        h.removesFetched he hK hp hn hs hL (hloose hs.loose) hrem hl₂ hend
      split at hrest
      · obtain ⟨_, fs₃, hsup, hrest⟩ := of_bind hrest
        obtain ⟨rfl, l', rfl⟩ := unlocked_cases hrest
        have hspent := (superWrite_indexOnly (P := fun _ ↦ True) env _ _ _ hsup).spent
        refine hfin ((live_of_relock hl).of_spent hspent) fun m' hs' ↦ ?_
        have hw := hs'.looked_superWrite he hsup
        exact hw.trans (hw.sound.relock l') hs'.coherent
      · obtain ⟨rfl, l', rfl⟩ := unlocked_cases hrest
        exact hfin (live_of_relock hl) fun m' hs' ↦ hs'.relock l'

end outcomes

end Xxfs.Soundness

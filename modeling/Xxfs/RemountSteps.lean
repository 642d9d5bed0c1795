import Xxfs.Reach
import Xxfs.SuperDamage
import Xxfs.SyncSteps

namespace Xxfs.Soundness

open Function
open Xxfs.DiskFormat Xxfs.Machine Xxfs.Allocator Xxfs.PageCache Xxfs.PagedIndex Xxfs.PageStore
open Xxfs.InodeCache Xxfs.DirCache Xxfs.Volume Xxfs.Operations Xxfs.Hash Xxfs.PathName
open Xxfs.IndexRep Xxfs.CacheMap Xxfs.IndexState Xxfs.OperationFrames Xxfs.Checksum Xxfs.CacheKeys
open Xxfs.Frames Xxfs.FreshVolume Xxfs.Lib Xxfs.Lib.Computation Xxfs.Lib.Computation.Comp

/-- What a mount makes of the image that `fs` leaves. -/
def mounted (fs : Fs) (flags : UInt64) : Fs :=
  { blank fs.img flags (fs.clock + 3) with
    sb := fs.sb
    cowGen := fs.sb.sCowGeneration
    pdir := fs.pdir
    passed := fs.passed }

section mount

variable {env : Env} (he : Healthy env) {K : Path → Prop} {m : Inodes} {fs : Fs} (flags : UInt64)

theorem settled_init (hK : Names K) : Settled K icacheInit :=
  ⟨⟨0, rfl⟩, fun i e he ↦ (by cases he), hK.roomy⟩

theorem cell_init (p : Path) : cell icacheInit p = none := rfl

theorem cell_mounted (p : Path) : cell (mounted fs flags).icache p = none := cell_init p

theorem seen_mounted : seen m (mounted fs flags) = m := by
  funext p
  rw [seen, cur, cell_mounted]
  rfl

theorem dcacheFind_mounted (p : Path) : dcacheFind (mounted fs flags) p = none := by
  rw [dcacheFind]
  exact if_neg fun h ↦ Bool.false_ne_true h.1

theorem quiet_mounted {ps : List UInt64} (hk : PagesOk fs ps)
    (hclean : ∀ i < pcacheSize, PageClean (fs.pcache i)) : Quiet ps fs (mounted fs flags) := by
  refine ⟨rfl, rfl, fun o _ ↦ ?_, fun _ _ ↦ rfl, le_rfl⟩
  have hdisk : pageAt (mounted fs flags) o = diskPage fs.img o := rfl
  rw [hdisk, pageAt]
  cases hpg : (fs.pcache (pcIndex o)).page with
  | none => rfl
  | some pg =>
    dsimp only
    split
    · rename_i hoff
      have hc : (fs.pcache (pcIndex o)).dirty = false :=
        hclean _ (pcIndex_lt o) (by rw [hpg]; exact Option.some_ne_none pg)
      have hd := hk.clean _ pg hpg hc
      rwa [hoff] at hd
    · rfl

theorem backed_mounted {F : Set ℕ} {L : Chain} (hb : Backed K m F fs L)
    (hclean : ∀ i < pcacheSize, PageClean (fs.pcache i)) :
    Backed K m F (Soundness.mounted fs flags) L := by
  have hq := quiet_mounted flags hb.rep.pages hclean
  have hpages : PagesOk (Soundness.mounted fs flags) (offs L) :=
    ⟨hb.rep.pages.usable, fun i pg hi ↦ (by cases hi), fun i pg hi ↦ (by cases hi),
      fun i pg hi ↦ by cases hi⟩
  exact ⟨hb.rep.quiet hpages hq, hb.keys, hb.nodup, hb.get, hb.whole, hb.off, hb.below⟩

theorem extentOf_level (h : Sound K m ∅ fs)
    (hlevel : ∀ p x y, seen m fs p = some x → m p = some y → SameBody x y) (p : Path) :
    extentOf (m p) = extentOf (seen m fs p) := by
  cases hy : m p with
  | none =>
    have hx : seen m fs p = none := (cur_none (h.coherent p)).mpr hy
    rw [hx]
  | some y =>
    cases hx : seen m fs p with
    | none =>
      rw [(cur_none (h.coherent p)).mp hx] at hy
      cases hy
    | some x => rw [extentOf_some, extentOf_some, (hlevel p x y hx hy).extent]

/-- A state whose cached inodes have the bodies of the stored ones, and whose pages are clean, is
mounted again as it was. -/
theorem Sound.mounted (h : Sound K m ∅ fs) (hK : Names K)
    (hlevel : ∀ p x y, seen m fs p = some x → m p = some y → SameBody x y)
    (hclean : ∀ i < pcacheSize, PageClean (fs.pcache i)) :
    Sound K m ∅ (Soundness.mounted fs flags) := by
  obtain ⟨L, hb⟩ := h.backed
  have hshare : share m fs.sb.sPdirOff ∅ = share (seen m fs) fs.sb.sPdirOff ∅ :=
    share_congr (extentOf_level h hlevel)
  have hground : ground m ∅ (Soundness.mounted fs flags) = ground m ∅ fs := by
    rw [ground, seen_mounted, claimed, ground, claimed, ← hshare]
    rfl
  refine ⟨settled_init hK, ⟨L, ?_⟩, fun p ↦ ?_, ?_, h.tree, ?_, h.magic, h.zero⟩
  · rw [hground]
    exact backed_mounted flags hb hclean
  · rw [cell_mounted]
    exact coherentAt_none _
  · rw [seen_mounted]
    refine ⟨hshare ▸ h.owned.apart, fun p y hy ↦ ?_⟩
    cases hx : seen m fs p with
    | none =>
      rw [(cur_none (h.coherent p)).mp hx] at hy
      cases hy
    | some x => exact (hlevel p x y hx hy).shape (h.owned.shape p x hx)
  · exact ⟨fun i hi ↦ (by cases hi), fun i hi ↦ (by cases hi), fun i n hi ↦ (by cases hi),
      fun i n hi ↦ by cases hi⟩

include he

theorem Sound.xxfsMount_apply (h : Sound K m ∅ fs) (hm : Mountable fs) :
    xxfsMount env { blank fs.img flags fs.clock with passed := fs.passed } =
      some (true, Soundness.mounted fs flags) := by
  obtain ⟨L, hb⟩ := h.backed
  obtain ⟨hlow, hhigh⟩ := h.table_off
  have hbound := h.bound
  have hne : fs.sb.sPdirOff ≠ 0 := fun h0 ↦ by
    rw [h0] at hlow
    exact absurd hlow (by decide)
  have hdir := hb.rep.dir
  have hread := superRead_apply he { blank fs.img flags fs.clock with passed := fs.passed } hm.super
    hm.size hm.sealed h.magic
  have hdata := hm.dir
  rw [hdir] at hdata
  have hload := loadDir_apply he { blank fs.img flags fs.clock with
      sb := fs.sb, cowGen := fs.sb.sCowGeneration, clock := fs.clock + 1, passed := fs.passed }
    hne (by change fs.sb.sPdirOff.toNat < _; omega) hm.dirSize hdata hm.dirEnd
  rw [xxfsMount, bind_apply, hread, Option.bind_some, if_pos rfl, bind_apply]
  simp only [modify_apply, Option.bind_some, bind_apply]
  change (loadDir env { blank fs.img flags fs.clock with
    sb := fs.sb, cowGen := fs.sb.sCowGeneration, clock := fs.clock + 1, passed := fs.passed }).bind
    _ = _
  rw [hload]
  dsimp only
  rw [hm.dirDepth, Soundness.mounted, hdir]
  rfl

end mount

/-- What an unmount followed by a mount does. -/
structure Remounted (m m' : Inodes) (fs fs' : Fs) : Prop
    extends Effect ∅ ∅ (dirtyDirs fs) m m' fs fs' where
  level : ∀ p, Soundness.seen m' fs' p = m' p
  unlisted : ∀ p, dcacheFind fs' p = none
  count : fs'.sb.sInodesCount = fs.sb.sInodesCount

section remount

variable {env : Env} (he : Healthy env) {K : Path → Prop} (hK : Names K) {m m' : Inodes}
  {fs fs₁ fs₂ fs' : Fs} {flags : UInt64}
include he

theorem live_unmounted (hout : writeOut env fs₁ = some ((), fs₂))
    (hx : xxfsMount env { blank fs₂.img flags fs₂.clock with passed := fs₂.passed } =
      some (true, fs')) (hl : Live fs') : Live fs₂ := by
  obtain ⟨_, fs₃, -, hout⟩ := of_bind hout
  obtain ⟨_, fs₄, hsup, hout⟩ := of_bind hout
  obtain ⟨hw, hdata, hsize⟩ := SuperDamage.superWrite_written he hsup
  have hfs₂ : ∃ l t, fs₂ = { fs₄ with lock := l, clock := t } := by
    obtain ⟨_, fs₅, htick, hout⟩ := of_bind hout
    obtain ⟨-, rfl⟩ := Prod.mk.inj (Option.some.inj htick)
    obtain ⟨-, l, rfl⟩ := unlocked_cases (a := ()) hout
    exact ⟨l, _, rfl⟩
  obtain ⟨l, t, rfl⟩ := hfs₂
  have hread := superRead_sealed he { blank fs₄.img flags t with passed := fs₄.passed } hdata hsize
    (hw.crc.trans (SuperDamage.sChecksum_eq _).symm)
  obtain ⟨rc, fs₆, hread', hx⟩ := of_bind hx
  obtain ⟨rfl, rfl⟩ := Prod.mk.inj (Option.some.inj (hread'.symm.trans hread))
  split at hx
  · obtain ⟨_, fs₇, hset, hx⟩ := of_bind hx
    obtain ⟨-, rfl⟩ := Prod.mk.inj (Option.some.inj hset)
    obtain ⟨_, fs₈, hload, hx⟩ := of_bind hx
    obtain ⟨-, rfl⟩ := Prod.mk.inj (Option.some.inj hx)
    have hsp := (Reach.loadDir_indexOnly (P := fun _ ↦ True) env _ _ _ hload).spent
    exact ⟨(hl.of_spent hsp).pool, (hl.of_spent hsp).addr⟩
  · cases hx

omit he in
theorem Sound.listing_mounted (h : Sound K m ∅ fs) (hdone : ∀ q ∈ dirtyDirs fs, m q = none)
    {p : Path} {n : Inode} (hn : m p = some n) :
    listing m (Soundness.mounted fs flags) p = listing m fs p := by
  have hdisk : listing m (Soundness.mounted fs flags) p = some (diskChildren fs.img n) := by
    rw [listing, dcacheFind_mounted, hn]
    rfl
  rw [hdisk, listing]
  cases hf : dcacheFind fs p with
  | none =>
    rw [hn]
    rfl
  | some e =>
    rw [dcacheFind] at hf
    split at hf
    · rename_i hv
      obtain rfl := Option.some.inj hf
      obtain ⟨hv, hpath⟩ := hv
      rw [← hpath] at hn
      have hclean : (fs.dcache (dcIndex p)).dirty = false := by
        by_contra hd
        have hnone := hdone _ ⟨dcIndex p, hv, by simpa using hd, rfl⟩
        rw [hn] at hnone
        cases hnone
      dsimp only
      rw [h.listings.clean _ n hv hclean hn]
    · cases hf

include hK

/-- What an unmount leaves to the next mount. -/
structure Unmounted (env : Env) (K : Path → Prop) (m m' : Inodes) (fs fs' : Fs) : Prop where
  sound : Sound K m' ∅ fs'
  effect : Effect ∅ ∅ (dirtyDirs fs) m m' fs fs'
  stored : ∀ q ∈ dirtyDirs fs, ∀ n, m q = some n →
    ∃ n', m' q = some n' ∧ Rewritten env (fs.dcache (dcIndex q)).children n n'
  done : ∀ q ∈ dirtyDirs fs', m' q = none
  clean : ∀ i < pcacheSize, PageClean (fs'.pcache i)
  count : fs'.sb.sInodesCount = fs.sb.sInodesCount

theorem Sound.unmounted (h : Sound K m ∅ fs) (hx : Volume.remount env flags fs = some (true, fs'))
    (hl : Live fs') : ∃ m' fs₂, Unmounted env K m m' fs fs₂ ∧ fs' = Soundness.mounted fs₂ flags := by
  obtain ⟨⟨_, fs₂⟩, hu, hm⟩ := Option.bind_eq_some_iff.mp hx
  obtain ⟨l, hu⟩ := locked_cases hu
  obtain ⟨_, fs₁, hx₁, hout⟩ := of_bind hu
  have hl₂ : Live fs₂ := live_unmounted he hout hm hl
  have hl₁ : Live fs₁ := live_before (writeOut_spends env) hout hl₂
  obtain ⟨m', hs₁, hR, -, hstored, hdone⟩ := (h.relock l).sound.flushesListings he hK hx₁ hl₁
  obtain ⟨fs₃, hout', hL, -, hmount, hclean⟩ := hs₁.writeOut he
  obtain ⟨-, rfl⟩ := Prod.mk.inj (Option.some.inj (hout.symm.trans hout'))
  obtain ⟨-, rfl⟩ := Prod.mk.inj (Option.some.inj
    (hm.symm.trans (hL.sound.xxfsMount_apply he flags hmount)))
  have hdirs : dirtyDirs fs₂ = dirtyDirs fs₁ := by
    rw [dirtyDirs, dirtyDirs]
    simp only [dirtyAt, hL.dcache]
  have hE₁ : Effect ∅ ∅ (dirtyDirs fs) m m' fs fs₁ := hR.toEffect.start rfl rfl rfl
  have hE₂ := hL.effect.mono subset_rfl subset_rfl (Set.empty_subset (dirtyDirs fs))
  exact ⟨m', fs₂, ⟨hL.sound, hE₁.trans hE₂ h.coherent, hstored, fun q hq ↦ hdone q (hdirs ▸ hq),
    hclean, hL.count.trans hR.moves.inodes⟩, rfl⟩

omit he hK in
/-- After the listings have been written back the cached inodes are still the stored ones. -/
theorem Unmounted.level (h : Unmounted env K m m' fs fs₁) (hlevel : ∀ p, seen m fs p = m p) (p : Path) :
    seen m' fs₁ p = m' p := by
  rcases h.effect.inodes p (Set.notMem_empty p) with ⟨hm, hs'⟩ | ⟨-, -, n, -, -, ht, hn⟩
  · rw [hs', hm, hlevel]
  · rw [hn]
    exact cur_dir (h.sound.coherent p) hn ht

/-- An unmount and a mount, from a state whose cached inodes are the stored ones. -/
theorem Sound.remount (h : Sound K m ∅ fs) (hlevel : ∀ p, seen m fs p = m p)
    (hx : Volume.remount env flags fs = some (true, fs')) (hl : Live fs') :
    ∃ m', Sound K m' ∅ fs' ∧ Remounted m m' fs fs' := by
  obtain ⟨m', fs₂, hU, rfl⟩ := h.unmounted he hK hx hl
  have hlevel₂ := hU.level hlevel
  have hE : Effect ∅ ∅ (dirtyDirs fs) m' m' fs₂ (Soundness.mounted fs₂ flags) := by
    refine ⟨fun p _ ↦ .inl ⟨rfl, ?_⟩, fun p n _ _ hn _ ↦ ?_, fun _ _ _ _ _ _ _ ↦ rfl⟩
    · rw [seen_mounted, hlevel₂]
    · exact hU.sound.listing_mounted hU.done hn
  refine ⟨m', hU.sound.mounted flags hK (fun p ↦ sameBody_of_eq (hlevel₂ p)) hU.clean,
    hU.effect.trans hE h.coherent, fun p ↦ ?_, fun p ↦ dcacheFind_mounted flags p, hU.count⟩
  rw [seen_mounted]

end remount

end Xxfs.Soundness

import Xxfs.MountRuns

namespace Xxfs.PowerLoss

open Function
open Xxfs.DiskFormat Xxfs.Machine Xxfs.PageCache Xxfs.PageStore Xxfs.InodeCache Xxfs.DirCache
open Xxfs.Volume Xxfs.Operations Xxfs.PathName Xxfs.CacheMap Xxfs.CacheKeys Xxfs.IndexState
open Xxfs.OperationFrames Xxfs.Frames Xxfs.FreshVolume Xxfs.FreshIndex Xxfs.NamespaceRuns Xxfs.Runs
open Xxfs.IndexRep Xxfs.Soundness Xxfs.Lib.Computation Xxfs.Lib.Computation.Comp Xxfs.Lib.Credits

/-- The caches are lost, and the image is mounted again as it is. -/
def powerLoss (env : Env) (flags : UInt64) : FsM Bool := fun fs ↦
  xxfsMount env { blank fs.img flags fs.clock with passed := fs.passed }

/-- A state that the image holds in full. -/
structure Durable (m : Inodes) (fs : Fs) : Prop where
  level : ∀ p, seen m fs p = m p
  listed : ∀ q ∈ dirtyDirs fs, m q = none
  pages : ∀ i < pcacheSize, PageClean (fs.pcache i)
  mountable : Mountable fs

section sync

variable {env : Env} (he : Healthy env) {K : Path → Prop} (hK : Names K) {m : Inodes} {fs fs' : Fs}
  {rc : Rc} {flags : UInt64}
include he hK

omit he hK in
theorem draws_mounted (flags : UInt64) : Draws Reserve 0 fs (mounted fs flags) := by
  intro k ha
  rw [Nat.zero_add] at ha
  refine reserve_of_clean (Set.eq_empty_of_forall_notMem ?_) (Set.eq_empty_of_forall_notMem ?_)
    ⟨ha.ample.pool, ha.ample.addr⟩
  · rintro q ⟨n, hn⟩
    cases hn
  · rintro q ⟨i, hv, -⟩
    cases hv

theorem sync_durable (h : Sound K m ∅ fs) (hx : xxfsSync env fs = some (rc, fs')) (hl : Live fs') :
    rc = .ok ∧ ∃ m', Sound K m' ∅ fs' ∧ Synced env m m' fs fs' ∧ Durable m' fs' := by
  obtain ⟨rfl, m', hs, hS⟩ := h.sync he hK hx hl
  obtain ⟨l, hx⟩ := locked_cases hx
  obtain ⟨_, fs₁, hx₁, hx⟩ := of_bind hx
  obtain ⟨_, fs₂, hx₂, hx⟩ := of_bind hx
  have hout : (writeOut env fs₂).bind (fun p ↦ some (Rc.ok, p.2)) = some (.ok, fs') := by
    rw [← hx, writeOut]
    simp only [bind_apply, Option.bind_assoc]
    rfl
  obtain ⟨⟨_, fs₃⟩, hx₃, hrc⟩ := Option.bind_eq_some_iff.mp hout
  obtain ⟨-, rfl⟩ := Prod.mk.inj (Option.some.inj hrc)
  have hl₂ : Live fs₂ := live_before (writeOut_spends env) hx₃ hl
  have hl₁ : Live fs₁ := live_before (spends_of_inside (dcacheFlushAll_inside env)) hx₂ hl₂
  obtain ⟨m₁, hs₁, -, -⟩ := (h.relock l).sound.flushesInodes he hK hx₁ hl₁
  obtain ⟨m₂, hs₂, -⟩ := hs₁.flushesListings he hK hx₂ hl₂
  obtain ⟨fs₄, hx₄, -, -, hmount, hclean⟩ := hs₂.writeOut he
  obtain ⟨-, rfl⟩ := Prod.mk.inj (Option.some.inj (hx₃.symm.trans hx₄))
  exact ⟨rfl, m', hs, hS, hS.level, hS.flushed, hclean, hmount⟩

omit hK in
theorem umount_returns (h : Sound K m ∅ fs) (hlevel : ∀ p, seen m fs p = m p) (hd : dirtyDirs fs = ∅) :
    ∃ fs', xxfsUmount env fs = some ((), fs') ∧ Looked K m fs fs' ∧ (Live fs → Live fs') ∧
      Durable m fs' := by
  obtain ⟨l, hlock⟩ := lock_eq .write fs
  have hL := h.relock l
  obtain ⟨fs', hout, hL', hlive, hmount, hclean⟩ := hL.sound.writeOut he
  have hdirs : dcacheFlushAll env { fs with lock := l } = some ((), { fs with lock := l }) :=
    dcacheFlushAll_clean hd
  have hall := hL.trans hL' h.coherent
  have hnone : dirtyDirs fs' = ∅ := by
    rw [← hd, dirtyDirs, dirtyDirs]
    simp only [dirtyAt, hall.dcache]
  refine ⟨fs', ?_, hall, fun hl ↦ hlive ⟨hl.pool, hl.addr⟩, fun p ↦ ?_, fun q hq ↦ ?_, hclean, hmount⟩
  · rw [xxfsUmount, fsWlock, bind_apply, hlock, Option.bind_some, bind_apply, hdirs, Option.bind_some]
    exact hout
  · rw [hall.seen, hlevel]
  · rw [hnone] at hq
    exact hq.elim

theorem umount_mountable (h : Sound K m ∅ fs) (hx : xxfsUmount env fs = some ((), fs'))
    (hl : Live fs') : powerLoss env flags fs' = some (true, mounted fs' flags) := by
  obtain ⟨l, hx⟩ := locked_cases hx
  obtain ⟨_, fs₁, hx₁, hout⟩ := of_bind hx
  have hl₁ : Live fs₁ := live_before (writeOut_spends env) hout hl
  obtain ⟨m₁, hs₁, -⟩ := (h.relock l).sound.flushesListings he hK hx₁ hl₁
  obtain ⟨fs₂, hout', hL, -, hmount, -⟩ := hs₁.writeOut he
  obtain ⟨-, rfl⟩ := Prod.mk.inj (Option.some.inj (hout.symm.trans hout'))
  exact hL.sound.xxfsMount_apply he flags hmount

theorem loss_mounted (h : Sound K m ∅ fs) (hd : Durable m fs) :
    powerLoss env flags fs = some (true, mounted fs flags) ∧ Sound K m ∅ (mounted fs flags) :=
  ⟨h.xxfsMount_apply he flags hd.mountable,
    h.mounted flags hK (fun p ↦ sameBody_of_eq (hd.level p)) hd.pages⟩

theorem remount_draws (h : Sound K m ∅ fs) (flags : UInt64) (ha : Reserve 0 fs) : ∃ fs',
    Volume.remount env flags fs = some (true, fs') ∧ Draws Reserve 0 fs fs' := by
  obtain ⟨_, fs₁, hx, hdraw⟩ := h.umount_pays he hK ha
  have hmount : powerLoss env flags fs₁ = some (true, _) :=
    umount_mountable he hK h hx (hdraw.left ha).ample.live
  refine ⟨mounted fs₁ flags, ?_, hdraw.trans (draws_mounted flags)⟩
  rw [Volume.remount, hx, Option.bind_some]
  exact hmount

end sync

section answers

variable {env : Env} (he : Healthy env) {K : Path → Prop} (hK : Names K) {m : Inodes} {fs fs' : Fs}
  {rc : Rc} {flags : UInt64} {path : Path}

/-- `xxfs_stat`, `xxfs_read` and `xxfs_readlink` of a path answer the same in both states. -/
structure SameFile (env : Env) (path : Path) (fs fs' : Fs) : Prop where
  stat : result (xxfsStat env path) fs' = result (xxfsStat env path) fs
  reads : SameReads env path fs fs'
  links : ∀ buf len, result (xxfsReadlink env path buf len) fs' =
    result (xxfsReadlink env path buf len) fs

/-- So does `xxfs_readdir`. -/
structure SameAnswers (env : Env) (path : Path) (fs fs' : Fs) : Prop
    extends SameFile env path fs fs' where
  listing : result (xxfsReaddir env path) fs' = result (xxfsReaddir env path) fs

theorem SameAnswers.trans {fs₁ : Fs} (h : SameAnswers env path fs fs₁)
    (h' : SameAnswers env path fs₁ fs') : SameAnswers env path fs fs' :=
  ⟨⟨h'.stat.trans h.stat, fun buf off len ↦ (h'.reads buf off len).trans (h.reads buf off len),
    fun buf len ↦ (h'.links buf len).trans (h.links buf len)⟩, h'.listing.trans h.listing⟩

/-- What `xxfs_readlink` answers is made of what `xxfs_stat` does. -/
theorem readlink_congr (h : result (xxfsStat env path) fs' = result (xxfsStat env path) fs)
    (buf : ℕ → UInt8) (len : UInt32) : result (xxfsReadlink env path buf len) fs' =
      result (xxfsReadlink env path buf len) fs := by
  rw [result, result] at h
  rw [result, result, xxfsReadlink, bind_apply, bind_apply]
  cases hx : xxfsStat env path fs with
  | none =>
    rw [hx, Option.map_none, Option.map_eq_none_iff] at h
    rw [h]
  | some a =>
    rw [hx, Option.map_some] at h
    obtain ⟨a', hx', heq⟩ := Option.map_eq_some_iff.mp h
    rw [hx', Option.bind_some, Option.bind_some, heq]
    cases a.1 with
    | error rc => rfl
    | ok n =>
      dsimp only
      split
      · rfl
      · rfl

theorem powerLoss_unlisted {ok : Bool} (hx : powerLoss env flags fs = some (ok, fs')) (p : Path) :
    dcacheFind fs' p = none := by
  rw [dcacheFind_congr (Reach.xxfsMount_mountFrame env _ _ _ hx).dcache]
  rfl

include he hK

theorem sameFile_of {fs₁ fs₂ : Fs} (h : Sound K m ∅ fs₁) (h' : Sound K m ∅ fs₂)
    (hp : Untwinned K (pathNormalize path))
    (hseen : seen m fs₂ (pathNormalize path) = seen m fs₁ (pathNormalize path))
    (hout : ∀ buf off len, readOut fs₂.img (seen m fs₁ (pathNormalize path)) buf off len =
      readOut fs₁.img (seen m fs₁ (pathNormalize path)) buf off len) : SameFile env path fs₁ fs₂ := by
  have hstat : result (xxfsStat env path) fs₂ = result (xxfsStat env path) fs₁ := by
    rw [h.result_stat he hK hp, h'.result_stat he hK hp, hseen]
  refine ⟨hstat, h.sameReads_of he hK h' hp fun buf off len ↦ ?_, readlink_congr hstat⟩
  rw [hseen]
  exact hout buf off len

theorem loss_sameFile (h : Sound K m ∅ fs) (hd : Durable m fs) (hp : Untwinned K (pathNormalize path)) :
    SameFile env path fs (mounted fs flags) := by
  obtain ⟨-, hs⟩ := loss_mounted he hK h hd
  refine sameFile_of he hK h hs hp ?_ fun _ _ _ ↦ rfl
  rw [seen_mounted, hd.level]

/-- The listing of a path is lost exactly if the path has gone and its listing is still cached. -/
theorem loss_sameListing_iff (h : Sound K m ∅ fs) (hd : Durable m fs)
    (hp : Untwinned K (pathNormalize path)) :
    result (xxfsReaddir env path) (mounted fs flags) = result (xxfsReaddir env path) fs ↔
      (dcacheFind fs (pathNormalize path) ≠ none → ∃ n, result (xxfsStat env path) fs = some (.ok n)) := by
  obtain ⟨-, hs⟩ := loss_mounted he hK h hd
  have hstat (n : Inode) : result (xxfsStat env path) fs = some (.ok n) ↔ m (pathNormalize path) = some n := by
    rw [h.stat_ok_iff he hK hp, hd.level]
  simp only [hstat, ← Option.ne_none_iff_exists']
  have hfresh : dcacheFind (mounted fs flags) (pathNormalize path) = none := dcacheFind_mounted flags _
  rw [h.result_readdir he, hs.result_readdir he]
  constructor
  · intro hsame hf hm
    obtain ⟨e, he⟩ := Option.ne_none_iff_exists'.mp hf
    rw [dirOut, dirOut, hfresh, he, hm] at hsame
    cases hsame
  · intro hstale
    rw [h.dirOut_of hstale, hs.dirOut_of fun hf ↦ (hf hfresh).elim]
    cases hm : m (pathNormalize path) with
    | none => rw [kind, hm, Option.map_none]
    | some n => rw [h.listing_mounted hd.listed hm]

theorem looked_sameAnswers (h : Sound K m ∅ fs) (hL : Looked K m fs fs')
    (hp : Untwinned K (pathNormalize path)) : SameAnswers env path fs fs' := by
  refine ⟨sameFile_of he hK h hL.sound hp (congrFun hL.seen _) (h.readOut_looked hL _), ?_⟩
  exact h.same_listing he hL.sound (by rw [dcacheFind_congr hL.dcache]) rfl fun hd ↦ hL.listing hd

/-- Nothing is lost when the power fails after a sync, but the cached listing of a directory that
has been removed. -/
theorem sync_survives (hr : CarefulRun K env fs) (hx : xxfsSync env fs = some (rc, fs'))
    (hl : Live fs') : ∃ fs₂, powerLoss env flags fs' = some (true, fs₂) ∧
      ∀ path, Untwinned K (pathNormalize path) → SameFile env path fs' fs₂ ∧
        (result (xxfsReaddir env path) fs₂ = result (xxfsReaddir env path) fs' ↔
          (dcacheFind fs' (pathNormalize path) ≠ none →
            ∃ n, result (xxfsStat env path) fs' = some (.ok n))) := by
  obtain ⟨-, m', hs, -, hd⟩ := sync_durable he hK (hr.sound he hK) hx hl
  exact ⟨_, (loss_mounted he hK hs hd).1, fun _ hp ↦
    ⟨loss_sameFile he hK hs hd hp, loss_sameListing_iff he hK hs hd hp⟩⟩

end answers

section first

theorem sync_survives_created : ∃ fs₁ fs fs',
    xxfsCreate steady [slash, 97] 0 0 0 (freshFs steady 1 0) = some (.ok, fs₁) ∧
      xxfsSync steady fs₁ = some (.ok, fs) ∧ powerLoss steady 0 fs = some (true, fs') ∧
        SameFile steady [slash, 97] fs fs' ∧
        result (xxfsReaddir steady rootPath) fs' = result (xxfsReaddir steady rootPath) fs := by
  have hmem : pathNormalize [slash, 97] ∈ fewPaths := by decide
  have hlone : Untwinned (· ∈ fewPaths) (pathNormalize rootPath) := fewPaths_names.untwinned (by decide)
  obtain ⟨m, fs₁, fs, hr, -, hF⟩ := first_synced (C := Careful (· ∈ fewPaths))
    (careful_first fewPaths_names 0 0 0 hmem (by decide) (by decide)) fun _ ↦ trivial
  obtain ⟨fs', hloss, hsame⟩ :=
    sync_survives steady_healthy fewPaths_names hr hF.synced hF.reserve.ample.live
  obtain ⟨n, hn, -⟩ := kind_some hF.sound.tree.root
  have hroot : result (xxfsStat steady rootPath) fs = some (.ok n) := by
    rw [hF.sound.stat_ok_iff steady_healthy fewPaths_names hlone, hF.level]
    exact hn
  exact ⟨fs₁, fs, fs', hF.created, hF.synced, hloss, (hsame _ (fewPaths_names.untwinned hmem)).1,
    (hsame _ hlone).2.mpr fun _ ↦ ⟨n, hroot⟩⟩

end first

end Xxfs.PowerLoss

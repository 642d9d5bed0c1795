import Xxfs.Fsck
import Xxfs.Lib.TreeWalk

namespace Xxfs.Fsck

open Function
open Xxfs.DiskFormat Xxfs.Machine Xxfs.Checksum Xxfs.PageStore Xxfs.InodeCache Xxfs.DirCache
open Xxfs.Volume Xxfs.Operations Xxfs.PathName Xxfs.CacheMap Xxfs.CacheKeys Xxfs.IndexState
open Xxfs.OperationFrames Xxfs.Frames Xxfs.FreshVolume Xxfs.FreshIndex Xxfs.NamespaceRuns Xxfs.Runs
open Xxfs.IndexRep Xxfs.Soundness Xxfs.ListingRuns Xxfs.PowerLoss
open Xxfs.Lib Xxfs.Lib.TreeWalk Xxfs.Lib.Computation Xxfs.Lib.Computation.Comp

/-- The paths that `check_path` goes on to from `d`. -/
def childPaths (m : Inodes) (fs : Fs) (d : Path) : List Path :=
  if kind m d = some ftDir then
    ((listing m fs d).getD []).map fun c ↦ checkPathChild d (childName c)
  else []

/-- A state whose inodes are all stored and whose listings mirror the paths. -/
structure Checkable (K : Path → Prop) (m : Inodes) (fs : Fs) : Prop where
  sound : Sound K m ∅ fs
  mirror : Mirror m fs
  level : ∀ p, seen m fs p = m p

section tree

variable {K : Path → Prop} (hK : Names K) {m : Inodes} {fs fs' : Fs} {p q d : Path}

theorem childPaths_dir {cs : List DirChild} (hd : kind m d = some ftDir)
    (hcs : listing m fs d = some cs) :
    childPaths m fs d = cs.map fun c ↦ checkPathChild d (childName c) := by
  rw [childPaths, if_pos hd, hcs, Option.getD_some]

theorem Checkable.named (h : Checkable K m fs) (hp : kind m p ≠ none) : K p :=
  h.sound.names fun hm ↦ hp (by rw [kind, hm]; rfl)

theorem Checkable.looked (h : Checkable K m fs) (hL : Looked K m fs fs') : Checkable K m fs' := by
  refine ⟨hL.sound, h.mirror.same (fun _ ↦ rfl) (fun d hd ↦ hL.listing hd) fun q hq ↦ ?_, fun p ↦ ?_⟩
  · rwa [dcacheFind_congr hL.dcache] at hq
  · rw [hL.seen, h.level]

theorem childPaths_looked (hL : Looked K m fs fs') : childPaths m fs' = childPaths m fs := by
  funext d
  rw [childPaths, childPaths]
  split
  · rename_i hd
    rw [hL.listing hd]
  · rfl

include hK

theorem Checkable.rejoin (h : Checkable K m fs) (hroot : p ≠ rootPath) (hp : kind m p ≠ none) (t : UInt8) :
    checkPathChild (getParentPath p) (childName (newChild (getBasename p) t)) = p ∧
      (getParentPath p).length < p.length := by
  have hKp := h.named hp
  have hshort := hK.short p hKp
  have h4096 : maxPath = 4096 := rfl
  have hnormal := (hK.clean p hKp).normalForm (by omega)
  obtain ⟨-, -, -, hlt, hjoin, -⟩ := parts_rejoin hnormal hroot
  rw [childName_newChild (h.mirror.fits p hroot hp)]
  exact ⟨hjoin, hlt⟩

theorem Checkable.mem_children (h : Checkable K m fs) : q ∈ childPaths m fs d ↔
    q ≠ rootPath ∧ getParentPath q = d ∧ kind m q ≠ none := by
  constructor
  · intro hq
    rw [childPaths] at hq
    split at hq
    · rename_i hd
      obtain ⟨x, hx, -⟩ := kind_some hd
      obtain ⟨cs, hcs⟩ := listing_some fs hx
      rw [hcs, Option.getD_some, List.mem_map] at hq
      obtain ⟨c, hc, rfl⟩ := hq
      obtain ⟨p, t, hroot, rfl, ht, rfl⟩ := (h.mirror.mem d cs hd hcs c).mp hc
      have hp : kind m p ≠ none := by rw [ht]; exact Option.some_ne_none t
      rw [(h.rejoin hK hroot hp _).1]
      exact ⟨hroot, rfl, hp⟩
    · cases hq
  · rintro ⟨hroot, rfl, hp⟩
    have hd := h.sound.tree.parent q hroot hp
    obtain ⟨t, ht⟩ := Option.ne_none_iff_exists'.mp hp
    obtain ⟨x, hx, -⟩ := kind_some hd
    obtain ⟨cs, hcs⟩ := listing_some fs hx
    rw [childPaths_dir hd hcs, List.mem_map]
    exact ⟨_, (h.mirror.mem _ cs hd hcs _).mpr ⟨q, t, hroot, rfl, ht, rfl⟩, (h.rejoin hK hroot hp _).1⟩

theorem Checkable.children_nodup (h : Checkable K m fs) : (childPaths m fs d).Nodup := by
  rw [childPaths]
  split
  · rename_i hd
    obtain ⟨x, hx, -⟩ := kind_some hd
    obtain ⟨cs, hcs⟩ := listing_some fs hx
    rw [hcs, Option.getD_some]
    refine (h.mirror.nodup d cs hd hcs).map_on fun c hc c' hc' heq ↦ ?_
    obtain ⟨p, t, hp0, rfl, ht, rfl⟩ := (h.mirror.mem d cs hd hcs c).mp hc
    obtain ⟨q, t', hq0, hqd, ht', rfl⟩ := (h.mirror.mem _ cs hd hcs c').mp hc'
    have hp : kind m p ≠ none := by rw [ht]; exact Option.some_ne_none t
    have hq : kind m q ≠ none := by rw [ht']; exact Option.some_ne_none t'
    rw [(h.rejoin hK hp0 hp _).1, ← hqd, (h.rejoin hK hq0 hq _).1] at heq
    subst heq
    rw [Option.some.inj (ht.symm.trans ht')]
  · exact List.nodup_nil

theorem Checkable.ranked (h : Checkable K m fs) :
    Ranked (childPaths m fs) getParentPath List.length := by
  refine ⟨fun d ↦ h.children_nodup hK, fun d q hq ↦ ((h.mem_children hK).mp hq).2.1, fun d q hq ↦ ?_⟩
  obtain ⟨hroot, rfl, hex⟩ := (h.mem_children hK).mp hq
  exact (h.rejoin hK hroot hex 0).2

theorem Checkable.below_root (h : Checkable K m fs) :
    Below (childPaths m fs) rootPath p ↔ kind m p ≠ none := by
  constructor
  · intro hb
    rcases hb.cases_tail with heq | ⟨d, -, hp⟩
    · rw [heq, h.sound.tree.root]
      exact Option.some_ne_none _
    · exact ((h.mem_children hK).mp hp).2.2
  · intro hp
    induction hlen : p.length using Nat.strong_induction_on generalizing p with
    | _ n ih =>
      by_cases hroot : p = rootPath
      · rw [hroot]
      · have hlt := (h.rejoin hK hroot hp 0).2
        have hpar : kind m (getParentPath p) ≠ none := by
          rw [h.sound.tree.parent p hroot hp]
          exact Option.some_ne_none _
        exact (ih _ (hlen ▸ hlt) hpar rfl).tail ((h.mem_children hK).mpr ⟨hroot, rfl, hp⟩)

end tree

section walk

variable {env : Env} (he : Healthy env) {K : Path → Prop} (hK : Names K) {m : Inodes} {fs fs' : Fs}
  {p : Path} {k : ℕ}

/-- A check that finds nothing below any child finds nothing below the children. -/
theorem checkChildren_clean {check : Path → FsM Walk} {C : Path → List Path} {path : Path}
    (hcheck : ∀ {fs} q, Checkable K m fs → childPaths m fs = C → q ∈ C path →
      ∃ fs', check q fs = some (⟨preorder C k q, []⟩, fs') ∧ Looked K m fs fs')
    (cs : List DirChild) (hcs : ∀ c ∈ cs, checkPathChild path (childName c) ∈ C path)
    (h : Checkable K m fs) (hC : childPaths m fs = C) :
    ∃ fs', checkChildren check path cs fs =
      some (⟨(cs.map fun c ↦ checkPathChild path (childName c)).flatMap (preorder C k), []⟩, fs') ∧
        Looked K m fs fs' := by
  induction cs generalizing fs with
  | nil => exact ⟨fs, rfl, h.sound.looked_same rfl rfl rfl rfl rfl rfl⟩
  | cons c cs ih =>
    obtain ⟨fs₁, hx₁, hL₁⟩ := hcheck _ h hC (hcs c List.mem_cons_self)
    obtain ⟨fs₂, hx₂, hL₂⟩ := ih (fun c' hc' ↦ hcs c' (List.mem_cons_of_mem c hc')) (h.looked hL₁)
      ((childPaths_looked hL₁).trans hC)
    refine ⟨fs₂, ?_, hL₁.trans hL₂ h.sound.coherent⟩
    rw [checkChildren, bind_apply, hx₁, Option.bind_some, bind_apply, hx₂, Option.bind_some]
    rfl

include he hK

/-- `xxfs_stat` of a path that exists gives its stored inode, which is whole. -/
theorem Checkable.stat (h : Checkable K m fs) {n : Inode} (hn : m p = some n) : ∃ fs',
    xxfsStat env p fs = some (.ok n, fs') ∧ Looked K m fs fs' ∧ Sealed n := by
  have hp : K p := h.sound.names (by rw [hn]; exact Option.some_ne_none n)
  have hnorm := hK.normalize hp
  obtain ⟨fs', hx, hL⟩ := h.sound.stat he hK (hK.untwinned (by rwa [hnorm] : K (pathNormalize p)))
  rw [hnorm, h.level, hn] at hx
  obtain ⟨L, hb⟩ := h.sound.backed
  exact ⟨fs', hx, hL, hb.whole p n hn⟩

theorem Checkable.readdir (h : Checkable K m fs) (hd : kind m p = some ftDir) : ∃ cs fs',
    xxfsReaddir env p fs = some (.ok cs, fs') ∧ Looked K m fs fs' ∧ listing m fs p = some cs := by
  obtain ⟨x, hx, -⟩ := kind_some hd
  obtain ⟨cs, hcs⟩ := listing_some fs hx
  have hnorm := hK.normalize (h.named (by rw [hd]; exact Option.some_ne_none _))
  obtain ⟨fs', hread, hL⟩ : ∃ fs', xxfsReaddir env p fs =
    some (dirOut m fs (pathNormalize p), fs') ∧ _ := h.sound.readdir he
  rw [hnorm, (dirOut_ok h.mirror).mpr ⟨hd, hcs⟩] at hread
  exact ⟨cs, fs', hread, hL, hcs⟩

/-- `check_path` comes to what is below its argument, and finds nothing. -/
theorem Checkable.checkPath (h : Checkable K m fs) (hp : kind m p ≠ none)
    (hk : maxPath ≤ p.length + k) : ∃ fs', checkPath env k p fs =
      some (⟨preorder (childPaths m fs) k p, []⟩, fs') ∧ Looked K m fs fs' := by
  induction k generalizing p fs with
  | zero =>
    have hshort := hK.short p (h.named hp)
    have h4096 : maxPath = 4096 := rfl
    omega
  | succ k ih =>
    obtain ⟨t, ht⟩ := Option.ne_none_iff_exists'.mp hp
    obtain ⟨n, hn, rfl⟩ := kind_some ht
    obtain ⟨fs₁, hstat, hL₁, hseal⟩ := h.stat he hK hn
    have hseal' : ¬crc32c n.encode inoCrcOff ≠ n.iChecksum := not_not.mpr hseal
    rw [Fsck.checkPath, bind_apply, hstat, Option.bind_some]
    dsimp only
    rw [if_neg hseal', preorder]
    by_cases hd : n.iFileType = ftDir
    · have hdir : kind m p = some ftDir := by rw [ht, hd]
      have h₁ := h.looked hL₁
      obtain ⟨cs, fs₂, hread, hL₂, hcs⟩ := h₁.readdir he hK hdir
      rw [hL₁.listing hdir] at hcs
      have hchildren := childPaths_dir hdir hcs
      have hsame : childPaths m fs₂ = childPaths m fs :=
        (childPaths_looked hL₂).trans (childPaths_looked hL₁)
      obtain ⟨fs₃, hloop, hL₃⟩ := checkChildren_clean (fun q hs hC hq ↦ by
          rw [← hC] at hq ⊢
          obtain ⟨-, hpar, hex⟩ := (hs.mem_children hK).mp hq
          have hdeep := (hs.ranked hK).deeper p q hq
          exact ih hs hex (by omega)) cs
        (fun c hc ↦ by rw [hchildren]; exact List.mem_map_of_mem hc) (h₁.looked hL₂) hsame
      refine ⟨fs₃, ?_, (hL₁.trans hL₂ h.sound.coherent).trans hL₃ h.sound.coherent⟩
      rw [if_pos hd, bind_apply, hread, Option.bind_some]
      dsimp only
      rw [bind_apply, hloop, Option.bind_some, hchildren]
      rfl
    · refine ⟨fs₁, ?_, hL₁⟩
      have hleaf : childPaths m fs p = [] := if_neg fun hc ↦ hd (Option.some.inj (ht.symm.trans hc))
      rw [if_neg hd, hleaf]
      rfl

theorem Checkable.checkRoot (h : Checkable K m fs) : ∃ lines fs',
    Fsck.checkRoot env fs = some (lines, fs') ∧ Looked K m fs fs' ∧ lines.countP Line.isError = 0 := by
  have hdir := h.sound.tree.root
  obtain ⟨n, hn, ht⟩ := kind_some hdir
  obtain ⟨fs₁, hstat, hL₁, -⟩ := h.stat he hK hn
  obtain ⟨cs, fs₂, hread, hL₂, -⟩ := (h.looked hL₁).readdir he hK hdir
  refine ⟨[] ++ .root (n.iFileType == ftDir) n.iMode n.iSize n.iChecksum :: .rootChildren cs.length ::
    cs.map (fun c ↦ .rootChild (c.dcType == ftDir.toUInt8) (childName c)), fs₂, ?_,
    hL₁.trans hL₂ h.sound.coherent, ?_⟩
  · rw [Fsck.checkRoot, bind_apply, hstat, Option.bind_some]
    dsimp only
    rw [if_neg (not_not.mpr ht), bind_apply, hread, Option.bind_some]
    rfl
  · rw [List.nil_append, List.countP_eq_zero]
    intro x hx
    rcases List.mem_cons.mp hx with rfl | hx
    · exact Bool.false_ne_true
    · rcases List.mem_cons.mp hx with rfl | hx
      · exact Bool.false_ne_true
      · obtain ⟨c, -, rfl⟩ := List.mem_map.mp hx
        exact Bool.false_ne_true

end walk

section main

variable {env : Env} (he : Healthy env) {K : Path → Prop} (hK : Names K) {m : Inodes} {fs fs₀ fs₁ : Fs}
  {k : ℕ}

/-- A run of fsck that finds no fault, comes to each of the paths `S` once, and leaves every answer
as it was. -/
structure Passes (env : Env) (K S : Path → Prop) (fs fs' : Fs) (out : Outcome) : Prop where
  exit : out.exit = 0
  quiet : ∀ l ∈ out.lines, l.isError = false
  once : out.visited.Nodup
  visits : ∀ p, p ∈ out.visited ↔ S p
  answers : ∃ a a', powerLoss env 0 fs = some (true, a) ∧ powerLoss env 0 fs' = some (true, a') ∧
    ∀ path, Untwinned K (pathNormalize path) → SameAnswers env path a a'

include he hK

theorem exists_iff (h : Sound K m ∅ fs) {p : Path} :
    (pathNormalize p = p ∧ Untwinned K p ∧ ∃ n, result (xxfsStat env p) fs = some (.ok n)) ↔
      kind m p ≠ none := by
  have hstat (hnorm : pathNormalize p = p) (hp : Untwinned K p) (n : Inode) :
      result (xxfsStat env p) fs = some (.ok n) ↔ seen m fs p = some n := by
    have hiff : _ ↔ seen m fs (pathNormalize p) = some n := h.stat_ok_iff he hK (by rwa [hnorm])
    rwa [hnorm] at hiff
  have hkind : kind m p ≠ none ↔ seen m fs p ≠ none := by
    rw [kind, ne_eq, Option.map_eq_none_iff, ← cur_none (h.coherent p)]
  rw [hkind]
  constructor
  · rintro ⟨hnorm, hp, n, hn⟩
    rw [(hstat hnorm hp n).mp hn]
    exact Option.some_ne_none n
  · intro hex
    have hp : K p := h.names fun hm ↦ hex ((cur_none (h.coherent p)).mpr hm)
    obtain ⟨n, hn⟩ := Option.ne_none_iff_exists'.mp hex
    have hnorm := hK.normalize hp
    exact ⟨hnorm, hK.untwinned hp, n, (hstat hnorm (hK.untwinned hp) n).mpr hn⟩

theorem Checkable.fsckMain (h : Checkable K m fs₀) (hd : dirtyDirs fs₀ = ∅)
    (hx : powerLoss env 0 fs = some (true, fs₀)) (hk : maxPath ≤ k) :
    ∃ out fs', Fsck.fsckMain env k fs = some (out, fs') ∧
      Passes env K (fun p ↦ kind m p ≠ none) fs fs' out := by
  obtain ⟨lines, fs₁, hroot, hL₁, hquiet⟩ := h.checkRoot he hK
  have h₁ := h.looked hL₁
  have hdir : kind m rootPath ≠ none := by
    rw [h.sound.tree.root]
    exact Option.some_ne_none _
  obtain ⟨fs₂, hwalk, hL₂⟩ := h₁.checkPath he hK hdir (hk.trans (Nat.le_add_left k rootPath.length))
  have h₂ := h₁.looked hL₂
  have hL := hL₁.trans hL₂ h.sound.coherent
  have hclean : dirtyDirs fs₂ = ∅ := by
    rw [← hd, dirtyDirs, dirtyDirs]
    simp only [dirtyAt, hL.dcache]
  obtain ⟨fs₃, humount, hL₃, -, hdurable⟩ := umount_returns he h₂.sound h₂.level hclean
  obtain ⟨hmount, -⟩ : powerLoss env 0 fs₃ = some (true, mounted fs₃ 0) ∧ _ :=
    loss_mounted he hK hL₃.sound hdurable
  have hcount : ([Line.info (xxfsInfo fs₀)] ++ lines ++ []).countP Line.isError = 0 := by
    rw [List.append_nil, List.countP_append, hquiet]
    rfl
  refine ⟨⟨0, [.info (xxfsInfo fs₀)] ++ lines ++ [],
    preorder (childPaths m fs₁) k rootPath⟩, fs₃, ?_, rfl, fun l hl ↦ ?_, (h₁.ranked hK).preorder_nodup,
    fun p ↦ ?_, _, _, hx, hmount, fun path hp ↦ ?_⟩
  · rw [Fsck.fsckMain, bind_apply, hx, Option.bind_some]
    dsimp only
    rw [if_pos rfl, bind_apply]
    change ((some ([Line.info (xxfsInfo fs₀)], fs₀)).bind _) = _
    rw [Option.bind_some, bind_apply, hroot, Option.bind_some, bind_apply, hwalk, Option.bind_some,
      bind_apply, humount, Option.bind_some]
    dsimp only
    rw [if_neg (by rw [hcount]; exact lt_irrefl 0)]
    rfl
  · exact Bool.eq_false_iff.mpr (List.countP_eq_zero.mp hcount l hl)
  · rw [(h₁.ranked hK).mem_preorder fun q hq ↦ ?_, h₁.below_root hK]
    have hshort := hK.short q (h₁.named ((h₁.below_root hK).mp hq))
    have h4096 : maxPath = 4096 := rfl
    omega
  · have hunlisted : dcacheFind fs₃ (pathNormalize path) = none := by
      rw [dcacheFind_congr hL₃.dcache, dcacheFind_congr hL.dcache]
      exact powerLoss_unlisted hx _
    exact (looked_sameAnswers he hK h.sound (hL.trans hL₃ h.sound.coherent) hp).trans
      ⟨loss_sameFile he hK hL₃.sound hdurable hp,
        (loss_sameListing_iff he hK hL₃.sound hdurable hp).mpr fun hf ↦ (hf hunlisted).elim⟩

/-- fsck ends on the image that an unmount leaves: it finds no fault, comes to each path that exists
exactly once, and changes nothing. -/
theorem fsck_passes (hr : RunBy (Listable K) env fs) (hc : Careful K fs (.remount 0))
    (hx : xxfsUmount env fs = some ((), fs₁)) (hl : Live fs₁) (hk : maxPath ≤ k) :
    ∃ out fs₂, Fsck.fsckMain env k fs₁ = some (out, fs₂) ∧
      Passes env K (fun p ↦ pathNormalize p = p ∧ Untwinned K p ∧
        ∃ n, result (xxfsStat env p) fs = some (.ok n)) fs₁ fs₂ out := by
  obtain ⟨hs, hM⟩ := hr.invariant he hK (fun _ _ hc ↦ hc.1) (I := Mirror)
    (fun sizeMb flags _ ↦ mirror_fresh sizeMb flags) (mirror_step hK)
  have hmount : powerLoss env 0 fs₁ = some (true, mounted fs₁ 0) := umount_mountable he hK hs hx hl
  have hre : Volume.remount env 0 fs = some (true, mounted fs₁ 0) := by
    rw [Volume.remount, hx]
    exact hmount
  obtain ⟨m', hs', hR⟩ := hs.remount he hK hc hre ⟨hl.pool, hl.addr⟩
  have hM' : Mirror m' (mounted fs₁ 0) := mirror_step hK hs hM
    (⟨hc, trivial⟩ : Listable K fs (.remount 0)) hs' (.remounted hR)
  have hcheck : Checkable K m' (mounted fs₁ 0) := ⟨hs', hM', hR.level⟩
  have hclean : dirtyDirs (mounted fs₁ 0) = ∅ := by
    refine Set.eq_empty_of_forall_notMem fun q hq ↦ ?_
    obtain ⟨i, hv, -⟩ := hq
    cases hv
  obtain ⟨out, fs₂, hrun, hpass⟩ := hcheck.fsckMain he hK hclean hmount hk
  refine ⟨out, fs₂, hrun, hpass.exit, hpass.quiet, hpass.once, fun p ↦ ?_, hpass.answers⟩
  rw [hpass.visits, hR.toEffect.kind (Set.notMem_empty p), exists_iff he hK hs]

end main

/-- fsck after a file has been made and synced: it comes to the root and to the file. -/
theorem fsck_passes_created : ∃ fs fs₁ out fs₂, RunBy (Listable (· ∈ fewPaths)) steady fs ∧
    xxfsUmount steady fs = some ((), fs₁) ∧ fsckMain steady maxPath fs₁ = some (out, fs₂) ∧
      Passes steady (· ∈ fewPaths) (fun p ↦ pathNormalize p = p ∧ Untwinned (· ∈ fewPaths) p ∧
        ∃ n, result (xxfsStat steady p) fs = some (.ok n)) fs₁ fs₂ out ∧ [slash, 97] ∈ out.visited := by
  have hmem : pathNormalize [slash, 97] ∈ fewPaths := by decide
  have hnorm : pathNormalize [slash, 97] = [slash, 97] := by decide
  have hlone : Untwinned (· ∈ fewPaths) (pathNormalize [slash, 97]) := fewPaths_names.untwinned hmem
  have hcareful := careful_first fewPaths_names 0 0 0 hmem (by decide) (by decide)
  obtain ⟨m, fs₀, fs, -, hr, hF⟩ := first_synced (C := Listable (· ∈ fewPaths))
    ⟨hcareful, fun _ ↦ ⟨by decide, by decide⟩⟩ fun _ ↦ ⟨trivial, trivial⟩
  obtain ⟨fs₁, hx, -, hl, -⟩ := umount_returns steady_healthy hF.sound hF.level hF.clean
  obtain ⟨out, fs₂, hfsck, hpass⟩ := fsck_passes steady_healthy fewPaths_names hr
    ((careful_iff fewPaths_names hF.sound).mpr hF.level) hx (hl hF.reserve.ample.live) le_rfl
  obtain ⟨n, hn, -⟩ := kind_some hF.file
  have hstat : result (xxfsStat steady [slash, 97]) fs = some (.ok n) := by
    rw [hF.sound.stat_ok_iff steady_healthy fewPaths_names hlone, hF.level, hnorm]
    exact hn
  rw [hnorm] at hlone
  exact ⟨fs, fs₁, out, fs₂, hr, hx, hfsck, hpass, (hpass.visits _).mpr ⟨hnorm, hlone, n, hstat⟩⟩

end Xxfs.Fsck

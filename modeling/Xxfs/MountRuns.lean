import Xxfs.LinkRuns
import Xxfs.OperationCosts

namespace Xxfs.Soundness

open Function
open Xxfs.DiskFormat Xxfs.Machine Xxfs.Allocator Xxfs.PageCache Xxfs.PagedIndex Xxfs.PageStore
open Xxfs.InodeCache Xxfs.DirCache Xxfs.Volume Xxfs.Operations Xxfs.Hash Xxfs.PathName Xxfs.IndexRep
open Xxfs.CacheMap Xxfs.IndexState Xxfs.OperationFrames Xxfs.Checksum Xxfs.CacheKeys Xxfs.Frames
open Xxfs.FreshVolume Xxfs.FreshIndex Xxfs.NamespaceRuns Xxfs.Runs
open Xxfs.Lib Xxfs.Lib.Computation Xxfs.Lib.Computation.Comp Xxfs.Lib.Credits

/-- An inode without its times, its checksum and its code. -/
def untimed (n : Inode) : Inode :=
  { unsealed n with iAtime := 0, iMtime := 0, iCtime := 0, iBtime := 0 }

/-- The answers for a path are the same in both states, but for the times of the inode, its
checksum and its code, and for the bytes of a directory. -/
structure SameMounted (env : Env) (path : Path) (fs fs' : Fs) : Prop where
  stat : (result (xxfsStat env path) fs').map (Except.map untimed) =
    (result (xxfsStat env path) fs).map (Except.map untimed)
  reads : (∀ n, result (xxfsStat env path) fs = some (.ok n) → n.iFileType ≠ ftDir) →
    SameReads env path fs fs'
  listing : (result (xxfsReaddir env path) fs').map (Except.map fun cs ↦ { c | c ∈ cs }) =
    (result (xxfsReaddir env path) fs).map (Except.map fun cs ↦ { c | c ∈ cs })

/-- The children `cs` take the room that the inode of their directory says. -/
def Steady (n : Inode) (cs : List DirChild) : Prop :=
  n.iSize.toNat = dirChildSize * cs.length ∧ (cs = [] → n.iBlocks = 0 ∧ (n.setExtent 0 0).iUnion = n.iUnion)

/-- Nothing is only in memory: no listing outlives its directory, the stored inodes are the cached
ones, and the listings that are to be written back are as long as their directories say. -/
structure Settles (m : Inodes) (fs : Fs) : Prop where
  inodes : ∀ p n x, seen m fs p = some n → m p = some x → untimed n = untimed x
  listed : ∀ p, dcacheFind fs p ≠ none → m p ≠ none
  steady : ∀ p ∈ dirtyDirs fs, ∀ n, m p = some n → Steady n (fs.dcache (dcIndex p)).children

section untimed

variable {n n' : Inode}

theorem sameBody_of_untimed (h : untimed n = untimed n') : SameBody n n' :=
  ⟨(congrArg Inode.iFileType h).symm, (congrArg Inode.iSize h).symm,
    (congrArg Inode.iBlocks h).symm, (congrArg Inode.iUnion h).symm⟩

theorem untimed_writeback (n : Inode) (now : UInt64) : untimed (writebackInode n now) = untimed n := by
  rw [writebackInode, untimed, unsealed_seal]
  rfl

/-- A written listing leaves the inode as it was when it is as long as before. -/
theorem untimed_placed {env : Env} {cs : List DirChild} {fs fs' : Fs} (hn : DirShape n)
    (hoff : 0 < n.iBlocks.toNat → n.iExtentOff ≠ 0) (hcs : cs.length ≤ 15)
    (hx : placeChildren env n cs fs = some (some n', fs')) :
    untimed n' = untimed n ↔ Steady n cs := by
  have h272 : dirChildSize = 272 := rfl
  simp only [placeChildren, if_apply, bind_apply] at hx
  by_cases hnil : cs = []
  · rw [if_pos hnil] at hx
    obtain ⟨hx, -⟩ := Prod.mk.inj (Option.some.inj hx)
    obtain rfl := Option.some.inj hx
    have hsame (u : Fin 128 → UInt8) (s b : UInt64) (hu : u = n.iUnion) (hs : s = n.iSize)
        (hb : b = n.iBlocks) : ({ n with iUnion := u, iSize := s, iBlocks := b } : Inode) = n := by
      subst hu hs hb
      rfl
    constructor
    · intro h
      have hb := sameBody_of_untimed h
      have hs : n.iSize = 0 := hb.size
      exact ⟨by rw [hnil, hs]; rfl, fun _ ↦ ⟨hb.blocks, hb.content.symm⟩⟩
    · rintro ⟨hs, h0⟩
      obtain ⟨hb, hu⟩ := h0 hnil
      rw [hnil] at hs
      exact congrArg untimed (hsame _ 0 0 hu (UInt64.toNat_inj.mp hs.symm) hb.symm)
  rw [if_neg hnil] at hx
  have hlen : 0 < cs.length := List.length_pos_of_ne_nil hnil
  have hbytes := childBytes_toNat hcs
  split at hx
  · obtain ⟨_, -, hx⟩ := Option.bind_eq_some_iff.mp hx
    obtain ⟨hx, -⟩ := Prod.mk.inj (Option.some.inj hx)
    obtain rfl := Option.some.inj hx
    constructor
    · intro h
      have hs : n.iSize = UInt64.ofNat (cs.length * dirChildSize) := (sameBody_of_untimed h).size
      exact ⟨by rw [hs, hbytes], fun h0 ↦ (hnil h0).elim⟩
    · rintro ⟨hs, -⟩
      have hs : UInt64.ofNat (cs.length * dirChildSize) = n.iSize :=
        UInt64.toNat_inj.mp (hbytes.trans hs.symm)
      rw [hs]
  · -- a first block is only taken for an empty directory
    rename_i hroom
    have hempty : n.iSize = 0 := by
      rcases hn with ⟨-, -, hs⟩ | ⟨hb, -⟩
      · exact hs
      · refine absurd ⟨hoff (by rw [hb]; decide), ?_⟩ hroom
        rw [newBlocks_eq hlen hcs, hb]
        decide
    have hlong : n'.iSize.toNat = dirChildSize * cs.length := by
      obtain ⟨⟨newOff, fs₁⟩, -, hx⟩ := Option.bind_eq_some_iff.mp hx
      dsimp only at hx
      split at hx
      · cases hx
      · obtain ⟨⟨ok, fs₂⟩, -, hx⟩ := Option.bind_eq_some_iff.mp hx
        cases ok with
        | false => cases hx
        | true =>
          obtain ⟨hx, -⟩ := Prod.mk.inj (Option.some.inj hx)
          obtain rfl := Option.some.inj hx
          exact hbytes
    constructor
    · intro h
      rw [← (sameBody_of_untimed h).size, hempty, h272] at hlong
      change 0 = _ at hlong
      omega
    · rintro ⟨hs, -⟩
      rw [hempty, h272] at hs
      change 0 = _ at hs
      omega

end untimed

section remount

variable {env : Env} (he : Healthy env) {K : Path → Prop} (hK : Names K) {m m' : Inodes}
  {fs fs₂ : Fs} (h : Sound K m ∅ fs) (hU : Unmounted env K m m' fs fs₂) (flags : UInt64)

section stored

variable {p : Path}

/-- What `xxfs_readdir` answers when no listing outlives its directory. -/
theorem Sound.dirOut_of (h : Sound K m ∅ fs) (hstale : dcacheFind fs p ≠ none → m p ≠ none) :
    dirOut m fs p = match kind m p with
      | none => .error .enoent
      | some t => if t ≠ ftDir then .error .enotdir else .ok ((listing m fs p).getD []) := by
  rw [dirOut, listing, kind]
  cases hf : dcacheFind fs p with
  | none =>
    cases hm : m p with
    | none => rfl
    | some n => rfl
  | some e =>
    rw [hf] at hstale
    obtain ⟨n, hm⟩ := Option.ne_none_iff_exists'.mp (hstale (Option.some_ne_none e))
    rw [dcacheFind] at hf
    split at hf
    · rename_i hv
      obtain ⟨hv, hpath⟩ := hv
      have ht := h.listings.typed _ n hv (hpath.symm ▸ hm)
      rw [hm, Option.map_some, ht]
      rfl
    · cases hf

include hU

theorem Unmounted.kind : kind m' p = kind m p := hU.effect.kind (Set.notMem_empty p)

include h

/-- The stored inode of a path is as it was seen when the stored one was, and when a listing that
is written back is as long as before. -/
theorem Unmounted.untimed_iff :
    (m' p).map untimed = (seen m fs p).map untimed ↔
      (∀ n x, seen m fs p = some n → m p = some x → untimed n = untimed x) ∧
        (p ∈ dirtyDirs fs → ∀ n, m p = some n → Steady n (fs.dcache (dcIndex p)).children) := by
  cases hm : m p with
  | none =>
    have hn : seen m fs p = none := (cur_none (h.coherent p)).mpr hm
    have hk := hU.kind (p := p)
    rw [Soundness.kind, Soundness.kind, hm] at hk
    rw [hn, Option.map_eq_none_iff.mp hk]
    simp
  | some x =>
    obtain ⟨n, hn⟩ : ∃ n, seen m fs p = some n := Option.ne_none_iff_exists'.mp fun hn ↦ by
      rw [(cur_none (h.coherent p)).mp hn] at hm
      cases hm
    by_cases hd : p ∈ dirtyDirs fs
    · obtain ⟨x', hx', x₁, t, _, _, hplace, rfl⟩ := hU.stored p hd x hm
      obtain ⟨i, hv, -, hpath⟩ := id hd
      have ht := h.listings.typed i x hv (hpath.symm ▸ hm)
      have hi : dcIndex p = i := by rw [← hpath, (h.listings.named i hv).2]
      obtain rfl : x = n := Option.some.inj ((cur_dir (h.coherent p) hm ht).symm.trans hn)
      have hoff (hb : 0 < x.iBlocks.toNat) : x.iExtentOff ≠ 0 := fun h0 ↦ by
        have hlow := (h.extent_off hn hb).1
        rw [h0] at hlow
        exact absurd hlow (by decide)
      have hcs : (fs.dcache (dcIndex p)).children.length ≤ 15 := hi ▸ h.listings.few i hv
      have hplaced := untimed_placed ((h.owned.shape p x hn).dir ht) hoff hcs hplace
      rw [hx', hn, Option.map_some, Option.map_some, untimed_writeback, Option.some_inj, hplaced]
      refine ⟨fun hs ↦ ⟨fun a b ha hb ↦ ?_, fun _ y hy ↦ Option.some.inj hy ▸ hs⟩,
        fun hs ↦ hs.2 hd x rfl⟩
      rw [← Option.some.inj ha, ← Option.some.inj hb]
    · have hstored : m' p = some x := by
        rcases hU.effect.inodes p (Set.notMem_empty p) with ⟨heq, -⟩ | ⟨hW, -⟩
        · exact heq.trans hm
        · exact (hd hW).elim
      rw [hstored, hn, Option.map_some, Option.map_some, Option.some_inj]
      refine ⟨fun hs ↦ ⟨fun a b ha hb ↦ ?_, fun hc ↦ (hd hc).elim⟩, fun hs ↦ (hs.1 n x rfl rfl).symm⟩
      rw [← Option.some.inj ha, ← Option.some.inj hb, hs]

end stored

theorem map_answered (o o' : Option Inode) :
    (some (answered o)).map (Except.map untimed) = (some (answered o')).map (Except.map untimed) ↔
      o.map untimed = o'.map untimed := by
  cases o with
  | none =>
    cases o' with
    | none => exact iff_of_true rfl rfl
    | some n' => simp [answered, Except.map]
  | some n =>
    cases o' with
    | none => simp [answered, Except.map]
    | some n' => simp [answered, Except.map]

theorem sameBody_of_map {o o' : Option Inode} {n n' : Inode} (h : o'.map untimed = o.map untimed)
    (hn : o = some n) (hn' : o' = some n') : SameBody n n' := by
  rw [hn, hn', Option.map_some, Option.map_some] at h
  exact sameBody_of_untimed (Option.some.inj h).symm

include hK hU

theorem Unmounted.mounted (hsame : ∀ p, (m' p).map untimed = (seen m fs p).map untimed) :
    Sound K m' ∅ (Soundness.mounted fs₂ flags) := by
  refine hU.sound.mounted flags hK (fun p x y hx hy ↦ ?_) hU.clean
  rcases hU.effect.inodes p (Set.notMem_empty p) with ⟨-, hseen⟩ | ⟨-, -, n, -, -, ht, hn⟩
  · exact sameBody_of_map (hsame p) (hseen.symm.trans hx) hy
  · rw [seen, cur_dir (hU.sound.coherent p) hn ht] at hx
    obtain rfl := Option.some.inj hx
    obtain rfl := Option.some.inj (hn.symm.trans hy)
    exact .refl n

include he h

theorem Unmounted.same_stat {path : Path} (hp : Untwinned K (pathNormalize path)) :
    (result (xxfsStat env path) (Soundness.mounted fs₂ flags)).map (Except.map untimed) =
        (result (xxfsStat env path) fs).map (Except.map untimed) ↔
      (m' (pathNormalize path)).map untimed = (seen m fs (pathNormalize path)).map untimed := by
  obtain ⟨L, hb⟩ := hU.sound.backed
  have hbasis : Basis K m' (Soundness.mounted fs₂ flags) :=
    ⟨settled_init hK, _, L, backed_mounted flags hb hU.clean⟩
  rw [h.result_stat he hK hp, hbasis.result_stat he hK hp, seen_mounted, map_answered]

theorem Unmounted.same (hset : Settles m fs) {path : Path} (hp : Untwinned K (pathNormalize path)) :
    SameMounted env path fs (Soundness.mounted fs₂ flags) := by
  have hsame (p : Path) : (m' p).map untimed = (seen m fs p).map untimed :=
    (hU.untimed_iff h).mpr ⟨hset.inodes p, hset.steady p⟩
  have hs := hU.mounted hK flags hsame
  refine ⟨(hU.same_stat he hK h flags hp).mpr (hsame _), fun hfile ↦ ?_, ?_⟩
  · cases hn : seen m fs (pathNormalize path) with
    | none =>
      refine h.sameReads_none he hK hs hp hn ?_
      have hp' := hsame (pathNormalize path)
      rw [hn] at hp'
      rw [seen_mounted]
      exact Option.map_eq_none_iff.mp hp'
    | some n =>
      have hp' := hsame (pathNormalize path)
      rw [hn] at hp'
      obtain ⟨n', hn', -⟩ := Option.map_eq_some_iff.mp hp'
      have ht := hfile n ((h.stat_ok_iff he hK hp).mpr hn)
      exact h.sameReads he hK hs hp hn (by rw [seen_mounted, hn']) (sameBody_of_map (hsame _) hn hn')
        (hU.effect.data _ n (Set.notMem_empty _) hn fun hd ↦ (ht hd).elim)
  · rw [h.result_readdir he, hs.result_readdir he, h.dirOut_of (hset.listed _),
      hs.dirOut_of fun hc ↦ (hc (dcacheFind_mounted flags _)).elim, hU.kind]
    cases hk : Soundness.kind m (pathNormalize path) with
    | none => rfl
    | some t =>
      by_cases ht : t = ftDir
      · obtain ⟨n, hn, hnt⟩ := kind_some hk
        obtain ⟨x, hx, -⟩ := kind_some ((hU.kind (p := pathNormalize path)).trans hk)
        rw [hU.sound.listing_mounted hU.done hx,
          hU.effect.listing _ n (Set.notMem_empty _) (Set.notMem_empty _) hn (hnt.trans ht)]
      · dsimp only
        rw [if_pos ht, if_pos ht]

theorem Unmounted.settles (hall : ∀ path, Untwinned K (pathNormalize path) →
    SameMounted env path fs (Soundness.mounted fs₂ flags)) : Settles m fs := by
  have hat {p : Path} (hp : K p) : SameMounted env p fs (Soundness.mounted fs₂ flags) :=
    hall p (hK.untwinned (by rwa [hK.normalize hp]))
  have hsame (p : Path) : (m' p).map untimed = (seen m fs p).map untimed := by
    by_cases hm : m p = none
    · have hnone (x : Inode) (hx : m p = some x) : False := by
        rw [hm] at hx
        cases hx
      exact (hU.untimed_iff h).mpr ⟨fun _ x _ hx ↦ (hnone x hx).elim, fun _ x hx ↦ (hnone x hx).elim⟩
    · have hp := h.names hm
      have hstat := (hat hp).stat
      rwa [hU.same_stat he hK h flags (hK.untwinned (by rwa [hK.normalize hp])), hK.normalize hp] at hstat
  have hs := hU.mounted hK flags hsame
  refine ⟨fun p ↦ ((hU.untimed_iff h).mp (hsame p)).1, fun p hf hm ↦ ?_,
    fun p ↦ ((hU.untimed_iff h).mp (hsame p)).2⟩
  obtain ⟨e, hf⟩ := Option.ne_none_iff_exists'.mp hf
  have hp : K p := by
    rw [dcacheFind] at hf
    split at hf
    · rename_i hv
      exact hv.2 ▸ (h.listings.named _ hv.1).1
    · cases hf
  have hlist := (hat hp).listing
  have hm' : m' p = none := by
    have hk := hU.kind (p := p)
    rw [Soundness.kind, Soundness.kind, hm] at hk
    exact Option.map_eq_none_iff.mp hk
  rw [h.result_readdir he, hs.result_readdir he, hK.normalize hp, dirOut, dirOut,
    dcacheFind_mounted, hf, hm'] at hlist
  cases hlist

end remount

section main

variable {env : Env} (he : Healthy env) {K : Path → Prop} (hK : Names K) {m : Inodes} {fs : Fs}
include he

/-- An unmount without changed listings and a mount take nothing of the pool. -/
theorem Sound.remount_returns (h : Sound K m ∅ fs) (hl : Live fs) (hd : dirtyDirs fs = ∅)
    (flags : UInt64) : ∃ fs', Volume.remount env flags fs = some (true, fs') ∧ Live fs' := by
  obtain ⟨l, hlock⟩ := lock_eq .write fs
  have hL := h.relock l
  obtain ⟨fs₂, hout, hL₂, hlive, hmount, -⟩ := hL.sound.writeOut he
  have hdirs : dcacheFlushAll env { fs with lock := l } = some ((), { fs with lock := l }) :=
    dcacheFlushAll_clean hd
  have humount : xxfsUmount env fs = some ((), fs₂) := by
    rw [xxfsUmount, fsWlock, bind_apply, hlock, Option.bind_some, bind_apply, hdirs, Option.bind_some]
    exact hout
  have hl₂ : Live fs₂ := hlive ⟨hl.pool, hl.addr⟩
  refine ⟨Soundness.mounted fs₂ flags, ?_, hl₂.pool, hl₂.addr⟩
  rw [Volume.remount, humount, Option.bind_some]
  exact hL₂.sound.xxfsMount_apply he flags hmount

include hK

/-- An unmount and a mount show nowhere exactly when nothing is only in memory. -/
theorem remount_same_iff (hr : CarefulRun K env fs) (flags : UInt64) :
    (Live fs → dirtyDirs fs = ∅ → ∃ fs', Volume.remount env flags fs = some (true, fs') ∧ Live fs') ∧
    ∀ fs', Volume.remount env flags fs = some (true, fs') → Live fs' →
      ((∀ path, Untwinned K (pathNormalize path) → SameMounted env path fs fs') ↔ Settles (indexed fs) fs) := by
  have h := hr.sound he hK
  refine ⟨fun hl hd ↦ h.remount_returns he hl hd flags, fun fs' hx hl ↦ ?_⟩
  obtain ⟨m', fs₂, hU, rfl⟩ := h.unmounted he hK hx hl
  exact ⟨hU.settles he hK h flags, fun hset path hp ↦ hU.same he hK h flags hset hp⟩

end main

section first

theorem Sound.dirty_found {K : Path → Prop} {m : Inodes} {fs : Fs} (h : Sound K m ∅ fs) {p : Path}
    (hp : p ∈ dirtyDirs fs) : dcacheFind fs p ≠ none := by
  obtain ⟨i, hv, -, rfl⟩ := hp
  rw [dcacheFind, (h.listings.named i hv).2, if_pos ⟨hv, rfl⟩]
  exact Option.some_ne_none _

/-- A state after a file has been made in the root of a fresh image, and synced. -/
structure FirstSynced (m : Inodes) (fs₁ fs : Fs) : Prop where
  created : xxfsCreate steady [slash, 97] 0 0 0 (freshFs steady 1 0) = some (.ok, fs₁)
  synced : xxfsSync steady fs₁ = some (.ok, fs)
  sound : Sound (· ∈ fewPaths) m ∅ fs
  early : Reserve 200 fs₁
  reserve : Reserve 200 fs
  level : ∀ p, seen m fs p = m p
  cached : ∀ p, dcacheFind fs p ≠ none → p = rootPath
  clean : dirtyDirs fs = ∅
  file : kind m [slash, 97] = some ftReg

theorem first_synced {C : Fs → Op → Prop} (hC : C (freshFs steady 1 0) (.create [slash, 97] 0 0 0))
    (hsync : ∀ fs, C fs .sync) : ∃ m fs₁ fs, RunBy C steady fs₁ ∧ RunBy C steady fs ∧
      FirstSynced m fs₁ fs := by
  have hnorm : pathNormalize [slash, 97] = [slash, 97] := by decide
  have hpar : getParentPath [slash, 97] = rootPath := by decide
  have hs₀ : Sound (· ∈ fewPaths) _ ∅ (freshFs steady 1 0) := sound_fresh fewPaths_names goodSize_one 0
  have hmem : pathNormalize [slash, 97] ∈ fewPaths := by decide
  obtain ⟨m₁, fs₁, hx₁, hr₁, hs₁, -, hA⟩ := first_create fewPaths_names hC hmem (by decide) (by decide)
  have hexec₁ : exec steady (.create [slash, 97] 0 0 0) (freshFs steady 1 0) = some ((), fs₁) :=
    exec_discard hx₁
  rw [hnorm] at hA
  -- what is dirty now, and the blocks to write it back
  have hpays : Pays Reserve 9 (xxfsCreate steady [slash, 97] 0 0 0) (freshFs steady 1 0) :=
    hs₀.create_pays steady_healthy fewPaths_names 0 0 0 hmem fun _ ↦
      vacant_fresh steady 1 0 (by decide) (by decide)
  have ha₀ : Reserve (9 + 200) (freshFs steady 1 0) :=
    reserve_of_clean (dirtyInodes_fresh _ _ _) (dirtyDirs_fresh _ _ _) (freshOne_ample.mono (by decide))
  obtain ⟨rc, fs', hx', hdraw⟩ := hpays (reserve_antitone (Nat.le_add_right 9 200) _ ha₀)
  obtain ⟨-, rfl⟩ := Prod.mk.inj (Option.some.inj (hx'.symm.trans hx₁))
  have ha : Reserve 200 fs' := hdraw 200 ha₀
  obtain ⟨rc, fs, hx, hdraw⟩ := hs₁.sync_pays steady_healthy fewPaths_names
    (reserve_antitone (Nat.zero_le 200) _ ha)
  have hreserve : Reserve 200 fs := hdraw 200 (by rwa [Nat.zero_add])
  obtain ⟨rfl, m, hs, hS⟩ := hs₁.sync steady_healthy fewPaths_names hx hreserve.ample.live
  have hexec : exec steady .sync fs' = some ((), fs) := exec_discard hx
  have hcached (p : Path) (hp : dcacheFind fs p ≠ none) : p = rootPath := by
    rcases hA.cached p (hS.cached hp) with rfl | hno
    · exact hpar
    · exact (hno (fresh_dcacheFind _ _ _ p)).elim
  refine ⟨m, fs', fs, hr₁, hr₁.step (hsync _) hexec hreserve.ample.live, hx₁, hx, hs, ha, hreserve, hS.level,
    hcached, Set.eq_empty_of_forall_notMem fun q hq ↦ ?_, ?_⟩
  · have hroot := hs.tree.root
    obtain rfl := hcached q (hs.dirty_found hq)
    rw [Soundness.kind, hS.flushed _ hq] at hroot
    cases hroot
  · rw [hS.kinds, kind, hA.stored]
    rfl

theorem FirstSynced.settles {m : Inodes} {fs₁ fs : Fs} (h : FirstSynced m fs₁ fs) : Settles m fs := by
  refine ⟨fun p n x hn hx ↦ ?_, fun p hp ↦ ?_, fun p hp ↦ ?_⟩
  · rw [h.level, hx] at hn
    rw [Option.some.inj hn]
  · obtain rfl := h.cached p hp
    obtain ⟨n, hn, -⟩ := kind_some h.sound.tree.root
    rw [hn]
    exact Option.some_ne_none n
  · rw [h.clean] at hp
    exact hp.elim

theorem remount_same_iff_synced : ∃ fs₁ fs fs',
    xxfsCreate steady [slash, 97] 0 0 0 (freshFs steady 1 0) = some (.ok, fs₁) ∧
      xxfsSync steady fs₁ = some (.ok, fs) ∧ Volume.remount steady 0 fs = some (true, fs') ∧
        SameMounted steady [slash, 97] fs fs' := by
  have hmem : pathNormalize [slash, 97] ∈ fewPaths := by decide
  obtain ⟨m, fs₁, fs, -, hr, hF⟩ := first_synced (C := Careful (· ∈ fewPaths))
    (careful_first fewPaths_names 0 0 0 hmem (by decide) (by decide)) fun _ ↦ trivial
  obtain ⟨hreturns, hsame⟩ := remount_same_iff steady_healthy fewPaths_names hr 0
  obtain ⟨fs', hx, hl⟩ := hreturns hF.reserve.ample.live hF.clean
  have hset : Settles (indexed fs) fs := by
    rw [hF.sound.indexed_eq fewPaths_names]
    exact hF.settles
  exact ⟨fs₁, fs, fs', hF.created, hF.synced, hx,
    (hsame fs' hx hl).mpr hset [slash, 97] (fewPaths_names.untwinned hmem)⟩

/-- The target that is written over a link is lost. -/
theorem remount_loses_writes : ¬∀ (env : Env) (fs fs' : Fs) (flags : UInt64) (path : Path),
    Healthy env → Reachable env fs → Volume.remount env flags fs = some (true, fs') → Live fs' →
      SameMounted env path fs fs' := by
  intro hall
  obtain ⟨m, n, fs₁, fs, hW⟩ := first_link_written 117
  have hr : CarefulRun (· ∈ fewPaths) steady fs := hW.run.step hW.careful hW.written hW.live
  have hs : Sound (· ∈ fewPaths) (indexed fs) ∅ fs := hr.sound steady_healthy fewPaths_names
  have hindexed : indexed fs = m := by
    obtain ⟨F, L, hb⟩ := hW.basis.backed
    exact indexed_of_backed fewPaths_names hb
  have hd : dirtyDirs fs = ∅ := by
    rw [← dirtyDirs_fresh steady 1 0, dirtyDirs, dirtyDirs]
    simp only [dirtyAt, hW.dcache]
  obtain ⟨fs', hx, hl⟩ := hs.remount_returns steady_healthy hW.live hd 0
  obtain ⟨m', fs₂, hU, rfl⟩ := hs.unmounted steady_healthy fewPaths_names hx hl
  have hset := hU.settles steady_healthy fewPaths_names hs 0 fun path _ ↦
    hall steady fs _ 0 path steady_healthy hr.reachable hx hl
  have hsame := hset.inodes [slash, 97] (inlined n (fun _ ↦ 117) 0 1) n (by rw [hindexed]; exact hW.seen)
    (by rw [hindexed]; exact hW.stored)
  have hbytes : (arr n.iUnion).2 0 = (arr (arrCopy n.iUnion 0 1 (fun _ ↦ 117))).2 0 :=
    congrArg (fun u ↦ (arr u).2 0) (sameBody_of_untimed hsame).content
  rw [hW.points.bytes 0 (by decide), arr_arrCopy, if_pos (by decide)] at hbytes
  exact absurd hbytes (by decide)

end first

end Xxfs.Soundness

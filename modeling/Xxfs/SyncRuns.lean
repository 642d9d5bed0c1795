import Xxfs.AttrRuns

namespace Xxfs.Soundness

open Function
open Xxfs.DiskFormat Xxfs.Machine Xxfs.PagedIndex Xxfs.PageStore Xxfs.InodeCache Xxfs.DirCache
open Xxfs.Volume Xxfs.Operations Xxfs.Hash Xxfs.PathName Xxfs.IndexRep Xxfs.CacheMap
open Xxfs.IndexState Xxfs.OperationFrames Xxfs.Checksum Xxfs.CacheKeys Xxfs.Frames
open Xxfs.FreshVolume Xxfs.FreshIndex Xxfs.NamespaceRuns Xxfs.Runs
open Xxfs.Lib Xxfs.Lib.Computation Xxfs.Lib.Computation.Comp

section clean

variable {env : Env} {K : Path → Prop} {m : Inodes} {fs : Fs} {i : ℕ} {l : List ℕ}

theorem icacheFlushSlot_clean (hc : ∀ e, fs.icache.slots i = some e → e.dirty = false) :
    icacheFlushSlot env i fs = some ((), fs) := by
  simp only [icacheFlushSlot, bind_apply, get_apply, Option.bind_some]
  cases he : fs.icache.slots i with
  | none => rfl
  | some e =>
    dsimp only
    rw [if_neg (by rw [hc e he]; decide)]
    rfl

theorem icacheFlushSlots_clean
    (hc : ∀ i ∈ l, ∀ e, fs.icache.slots i = some e → e.dirty = false) :
    l.forM (icacheFlushSlot env) fs = some ((), fs) := by
  induction l with
  | nil => rfl
  | cons j l ih =>
    rw [forM_cons_apply, icacheFlushSlot_clean (hc j List.mem_cons_self), Option.bind_some]
    exact ih fun i hi ↦ hc i (List.mem_cons_of_mem j hi)

theorem Sound.icacheFlushAll_clean (h : Sound K m ∅ fs) (hc : dirtyInodes fs = ∅) :
    icacheFlushAll env fs = some ((), fs) := by
  simp only [icacheFlushAll, bind_apply, get_apply, Option.bind_some]
  refine icacheFlushSlots_clean fun i _ e he ↦ ?_
  obtain ⟨k, -, hkey, -⟩ := h.settled.entry i e he
  by_contra hd
  have hcell : cell fs.icache k = some (e.inode, true) :=
    h.settled.cell_iff.mpr ⟨i, e, he, hkey, by rw [(Bool.not_eq_false e.dirty).mp hd]⟩
  exact Set.notMem_empty k (hc ▸ (⟨e.inode, hcell⟩ : k ∈ dirtyInodes fs))

theorem flushListings_clean (hc : dirtyDirs fs = ∅) :
    l.forM (Soundness.flushListing env) fs = some ((), fs) := by
  induction l with
  | nil => rfl
  | cons j l ih =>
    have hj : Soundness.flushListing env j fs = some ((), fs) := by
      simp only [Soundness.flushListing, bind_apply, get_apply, Option.bind_some, if_apply]
      split
      · rename_i hd
        have hv : ¬(fs.dcache j).valid = true := fun hv ↦
          Set.notMem_empty (fs.dcache j).path (hc ▸ (⟨j, hv, hd, rfl⟩ : _ ∈ dirtyDirs fs))
        simp only [dcacheFlushEntry, bind_apply, get_apply, Option.bind_some]
        rw [if_pos (.inr hv)]
        rfl
      · rfl
    rw [forM_cons_apply, hj, Option.bind_some]
    exact ih

theorem dcacheFlushAll_clean (hc : dirtyDirs fs = ∅) : dcacheFlushAll env fs = some ((), fs) :=
  flushListings_clean hc

theorem xxfsSync_of {fs₀ fs₁ fs₂ fs' : Fs} (hl : fsLock .write fs = some ((), fs₀))
    (h₁ : icacheFlushAll env fs₀ = some ((), fs₁)) (h₂ : dcacheFlushAll env fs₁ = some ((), fs₂))
    (h₃ : Soundness.writeOut env fs₂ = some ((), fs')) : xxfsSync env fs = some (.ok, fs') := by
  have hend : (Soundness.writeOut env fs₂).bind (fun p ↦ some (Rc.ok, p.2)) = some (.ok, fs') := by
    rw [h₃]
    rfl
  rw [← hend, Soundness.writeOut]
  simp only [xxfsSync, fsWlock, bind_apply, hl, h₁, h₂, Option.bind_some, Option.bind_assoc]
  rfl

theorem Sound.sync_clean (he : Healthy env) (h : Sound K m ∅ fs) (hi : dirtyInodes fs = ∅)
    (hd : dirtyDirs fs = ∅) : ∃ fs', xxfsSync env fs = some (.ok, fs') ∧ Looked K m fs fs' := by
  obtain ⟨l, hl⟩ := lock_eq .write fs
  have hL := h.relock l
  obtain ⟨fs', hout, hL', -⟩ := hL.sound.writeOut he
  exact ⟨fs', xxfsSync_of hl (hL.sound.icacheFlushAll_clean hi) (dcacheFlushAll_clean hd) hout,
    hL.trans hL' h.coherent⟩

end clean

section stamps

theorem unsealed_seal (n : Inode) : unsealed (inodeSetChecksumEcc n) = unsealed n := by
  obtain ⟨c, e, -, heq⟩ := inodeSetChecksumEcc_eq n
  rw [heq]
  rfl

theorem unsealed_writeback_iff (n : Inode) (now : UInt64) :
    unsealed (writebackInode n now) = unsealed n ↔ n.iMtime = now ∧ n.iCtime = now := by
  rw [writebackInode, unsealed_seal]
  constructor
  · intro h
    exact ⟨(congrArg Inode.iMtime h).symm, (congrArg Inode.iCtime h).symm⟩
  · rintro ⟨hm, hc⟩
    have hsame (a b : UInt64) (ha : n.iMtime = a) (hb : n.iCtime = b) :
        ({ n with iMtime := a, iCtime := b } : Inode) = n := by
      subst ha hb
      rfl
    rw [hsame now now hm hc]

end stamps

section main

variable {env : Env} (he : Healthy env) {K : Path → Prop} (hK : Names K) {m : Inodes} {fs fs' : Fs}
include he hK

theorem Looked.sameAt (h : Sound K m ∅ fs) (hL : Looked K m fs fs') {path : Path}
    (hp : Untwinned K (pathNormalize path)) : SameAt env path fs fs' := by
  obtain ⟨hstat, hreads⟩ := hL.effect.same_answers he hK h hL.sound hp (Set.notMem_empty _)
  refine ⟨by rw [SameStat, hstat], hreads, h.same_listing he hL.sound ?_ rfl fun hd ↦ ?_⟩
  · rw [dcacheFind_congr hL.dcache]
  · exact hL.listing hd

/-- What `xxfs_sync` does to the answers for a path whose listing it does not write back. -/
theorem Sound.sync_sameAt (h : Sound K m ∅ fs) {rc : Rc} (hx : xxfsSync env fs = some (rc, fs'))
    (hl : Live fs') {path : Path} (hp : Untwinned K (pathNormalize path))
    (hd : pathNormalize path ∉ dirtyDirs fs) : ∃ t, fs.clock ≤ t ∧
      (SameAt env path fs fs' ↔ ∀ n, cell fs.icache (pathNormalize path) = some (n, true) →
        n.iMtime = env.time t ∧ n.iCtime = env.time t) := by
  obtain ⟨-, m', hs, hS⟩ := h.sync he hK hx hl
  have hlist : result (xxfsReaddir env path) fs' = result (xxfsReaddir env path) fs :=
    h.same_listing he hs (hS.found _) (hS.kinds _) (hS.listings _)
  by_cases hdirty : pathNormalize path ∈ dirtyInodes fs
  · obtain ⟨n, hn⟩ := hdirty
    obtain ⟨t, ht, hnow⟩ := hS.stamped _ n hn hd
    have hseen : seen m fs (pathNormalize path) = some n := by
      rw [seen, cur, hn]
      rfl
    have hstat : SameStat env path fs fs' ↔ unsealed (writebackInode n (env.time t)) = unsealed n := by
      rw [SameStat, h.result_stat he hK hp, hs.result_stat he hK hp, hnow, hseen]
      simp [answered, Except.map]
    have hdata := (hS.files _ n hseen fun _ ↦ hd).2
    have hreads := h.sameReads he hK hs hp hseen hnow (sameBody_writeback n _) hdata
    refine ⟨t, ht, fun hsame x hx ↦ ?_, fun htimes ↦ ⟨?_, hreads, hlist⟩⟩
    · obtain ⟨rfl, -⟩ := Prod.mk.inj (Option.some.inj (hn.symm.trans hx))
      exact (unsealed_writeback_iff n _).mp (hstat.mp hsame.stat)
    · exact hstat.mpr ((unsealed_writeback_iff n _).mpr (htimes n hn))
  · refine ⟨fs.clock, le_rfl, fun _ n hn ↦ (hdirty ⟨n, hn⟩).elim, fun _ ↦ ?_⟩
    have hE : Effect (dirtyInodes fs) ∅ (dirtyDirs fs) m m' fs fs' := hS.toEffect
    have hseen : seen m' fs' (pathNormalize path) = seen m fs (pathNormalize path) := by
      rcases hE.inodes _ hdirty with ⟨-, hseen⟩ | ⟨hW, -⟩
      · exact hseen
      · exact (hd hW).elim
    refine ⟨?_, ?_, hlist⟩
    · rw [SameStat, h.result_stat he hK hp, hs.result_stat he hK hp, hseen]
    · cases hn : seen m fs (pathNormalize path) with
      | none => exact h.sameReads_none he hK hs hp hn (hseen.trans hn)
      | some n =>
        exact h.sameReads he hK hs hp hn (hseen.trans hn) (.refl n) (hS.files _ n hn fun _ ↦ hd).2

end main

section returns

variable {env : Env} (he : Healthy env) {K : Path → Prop} (hK : Names K) {m : Inodes} {fs : Fs}
  (h : Sound K m ∅ fs) (ha : Ample 2 fs)
include he hK h ha

theorem Sound.flushSlot_returns (i : ℕ) :
    ∃ fs', icacheFlushSlot env i fs = some ((), fs') ∧ Live fs' := by
  by_cases hc : ∀ e, fs.icache.slots i = some e → e.dirty = false
  · exact ⟨fs, icacheFlushSlot_clean hc, ha.live⟩
  push Not at hc
  obtain ⟨e, hent, hd⟩ := hc
  obtain ⟨k, hk, hkey, -⟩ := h.settled.entry i e hent
  obtain ⟨L, hb⟩ := h.backed
  have hb₁ : Backed K m (ground m ∅ fs) { fs with clock := fs.clock + 1 } L := hb.same rfl rfl rfl rfl
  obtain ⟨fs₁, hput, hsp, -⟩ := put_returns he hK hb₁ hk
    (sealed_writeback e.inode (env.time fs.clock)) ⟨ha.pool, ha.addr⟩
  let written := writtenSlot fs₁.icache i e (writebackInode e.inode (env.time fs.clock))
  refine ⟨{ fs₁ with icache := written }, ?_, ?_⟩
  · simp only [icacheFlushSlot, bind_apply, get_apply, Option.bind_some, hent, putEntry, hkey]
    rw [if_pos ((Bool.not_eq_false e.dirty).mp hd)]
    simp only [bind_apply, osTime_apply, Option.bind_some, discard_apply, hput]
    rewrite [← hkey]
    rfl
  · have hl := hsp.live ⟨ha.pool, ha.addr⟩
    exact ⟨hl.pool, hl.addr⟩

theorem Sound.flushSlots_returns {l : List ℕ} (hone : ∀ i j e e', fs.icache.slots i = some e →
      e.dirty = true → fs.icache.slots j = some e' → e'.dirty = true → i = j) :
    ∃ fs', l.forM (icacheFlushSlot env) fs = some ((), fs') ∧ Live fs' := by
  induction l with
  | nil => exact ⟨fs, rfl, ha.live⟩
  | cons j l ih =>
    by_cases hc : ∀ e, fs.icache.slots j = some e → e.dirty = false
    · rw [forM_cons_apply, icacheFlushSlot_clean hc, Option.bind_some]
      exact ih
    · push Not at hc
      obtain ⟨e, hent, hd⟩ := hc
      obtain ⟨fs₁, hx, hl⟩ := h.flushSlot_returns he hK ha j
      obtain ⟨m₁, -, -, hslot⟩ := h.flushInode he hK hx hl
      refine ⟨fs₁, ?_, hl⟩
      rw [forM_cons_apply, hx, Option.bind_some]
      refine icacheFlushSlots_clean fun i _ x hx ↦ ?_
      by_cases hij : i = j
      · exact hslot.clean x (hij ▸ hx)
      · rw [hslot.others i hij] at hx
        by_contra hdx
        exact hij (hone i j x e hx ((Bool.not_eq_false x.dirty).mp hdx) hent
          ((Bool.not_eq_false e.dirty).mp hd))

theorem Sound.icacheFlushAll_returns {p : Path} (hone : dirtyInodes fs ⊆ {p}) :
    ∃ fs', icacheFlushAll env fs = some ((), fs') ∧ Live fs' := by
  simp only [icacheFlushAll, bind_apply, get_apply, Option.bind_some]
  have hdirty (i : ℕ) (e : IcacheEntry) (hi : fs.icache.slots i = some e) (hd : e.dirty = true) :
      e.key = some p := by
    obtain ⟨k, -, hkey, -⟩ := h.settled.entry i e hi
    have hcell : cell fs.icache k = some (e.inode, true) :=
      h.settled.cell_iff.mpr ⟨i, e, hi, hkey, by rw [hd]⟩
    obtain rfl : k = p := hone ⟨e.inode, hcell⟩
    exact hkey
  refine h.flushSlots_returns he hK ha fun i j e e' hi hd hj hd' ↦ h.settled.unique hi hj ?_
  exact (h.settled.hash_eq hi (hdirty i e hi hd)).2.trans
    (h.settled.hash_eq hj (hdirty j e' hj hd')).2.symm

theorem Sound.sync_returns {p : Path} (hone : dirtyInodes fs ⊆ {p}) (hd : dirtyDirs fs = ∅) :
    ∃ fs', xxfsSync env fs = some (.ok, fs') ∧ Live fs' := by
  obtain ⟨l, hl⟩ := lock_eq .write fs
  have hL := h.relock l
  obtain ⟨fs₁, hx₁, hl₁⟩ : ∃ fs₁, icacheFlushAll env { fs with lock := l } = some ((), fs₁) ∧ _ :=
    hL.sound.icacheFlushAll_returns he hK ⟨ha.pool, ha.addr⟩ hone
  obtain ⟨m₁, hs₁, hst, -⟩ := hL.sound.flushesInodes he hK hx₁ hl₁
  have hdirs : dirtyDirs fs₁ = ∅ := by
    rw [← hd, dirtyDirs, dirtyDirs]
    simp only [dirtyAt, hst.dcache]
  obtain ⟨fs', hout, -, hlive, -⟩ := hs₁.writeOut he
  exact ⟨fs', xxfsSync_of hl hx₁ (dcacheFlushAll_clean hdirs) hout, hlive hl₁⟩

end returns

section first

theorem dirtyInodes_fresh (env : Env) (sizeMb flags : UInt64) :
    dirtyInodes (freshFs env sizeMb flags) = ∅ := by
  refine Set.eq_empty_of_forall_notMem fun p hp ↦ ?_
  obtain ⟨n, hn⟩ := hp
  cases hn

theorem dirtyDirs_fresh (env : Env) (sizeMb flags : UInt64) :
    dirtyDirs (freshFs env sizeMb flags) = ∅ := by
  refine Set.eq_empty_of_forall_notMem fun p hp ↦ ?_
  obtain ⟨i, hv, -⟩ := hp
  cases hv

theorem first_utime : ∃ m fs fs' n, CarefulRun (· ∈ fewPaths) steady fs ∧
    Sound (· ∈ fewPaths) m ∅ fs ∧ cell fs.icache rootPath = some (n, true) ∧ n.iMtime = 5 ∧
      dirtyDirs fs = ∅ ∧ xxfsSync steady fs = some (.ok, fs') ∧ Live fs' := by
  have hnorm : pathNormalize rootPath = rootPath := by decide
  have hmem : pathNormalize rootPath ∈ fewPaths := by decide
  have hs : Sound (· ∈ fewPaths) _ ∅ (freshFs steady 1 0) := sound_fresh fewPaths_names goodSize_one 0
  have hroot : freshInodes (steady.time 1) (pathNormalize rootPath) = some (rootInode (steady.time 1)) := by
    rw [hnorm]
    exact freshInodes_root _
  have hsame : seen (freshInodes (steady.time 1)) (freshFs steady 1 0) (pathNormalize rootPath) =
      freshInodes (steady.time 1) (pathNormalize rootPath) := by rw [seen_fresh]
  obtain ⟨now, fs, hx, hF⟩ : ∃ now fs,
      xxfsUtime steady rootPath 5 5 (freshFs steady 1 0) = some (.ok, fs) ∧
        Filed (· ∈ fewPaths) _ (pathNormalize rootPath)
          (attrInode (AttrCall.utime 5 5).set (rootInode (steady.time 1)) now) _ fs :=
    hs.basis.setAttr steady_healthy fewPaths_names hmem hroot (freshOne_ample.mono (by decide))
  have ha : Ample 238 fs := hF.spares 238 freshOne_ample
  have hA := hs.setAttr steady_healthy fewPaths_names (AttrCall.utime 5 5).sameBody hmem
    (sameBody_of_eq hsame) hx ha.live
  rw [hroot] at hA
  obtain ⟨-, -, m, hs', hR⟩ := hA
  have hexec : exec steady (.utime rootPath 5 5) (freshFs steady 1 0) = some ((), fs) :=
    exec_discard hx
  have hcareful : Careful (· ∈ fewPaths) (freshFs steady 1 0) (.utime rootPath 5 5) :=
    (careful_iff fewPaths_names hs).mpr ⟨hmem, hsame⟩
  have hone : dirtyInodes fs ⊆ {rootPath} := by
    rintro p ⟨n, hn⟩
    by_contra hp
    rw [hF.cells, hnorm, update_of_ne hp] at hn
    cases hn
  have hdirs : dirtyDirs fs = ∅ := by
    rw [← dirtyDirs_fresh steady 1 0, dirtyDirs, dirtyDirs]
    simp only [dirtyAt, hF.dcache]
  obtain ⟨fs', hsync, hl⟩ := hs'.sync_returns steady_healthy fewPaths_names (ha.mono (by decide))
    hone hdirs
  have hrun : CarefulRun (· ∈ fewPaths) steady (freshFs steady 1 0) :=
    .fresh (fresh_apply steady_healthy goodSize_one 0)
  refine ⟨m, fs, fs', attrInode (AttrCall.utime 5 5).set (rootInode (steady.time 1)) now,
    hrun.step hcareful hexec ha.live, hs', ?_, ?_, hdirs, hsync, hl⟩
  · rw [hF.cells, hnorm, update_self]
  · obtain ⟨sum, ecc, -, heq⟩ := inodeSetChecksumEcc_eq
      { (AttrCall.utime 5 5).set (rootInode (steady.time 1)) with iCtime := now }
    rw [attrInode, heq]
    rfl

end first

end Xxfs.Soundness

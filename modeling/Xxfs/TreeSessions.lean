import Xxfs.PowerLoss
import Xxfs.TreeRefinement

namespace Xxfs.TreeSpec

open Function
open Xxfs.DiskFormat Xxfs.Machine Xxfs.Volume Xxfs.InodeCache Xxfs.Operations Xxfs.PathName
open Xxfs.CacheMap Xxfs.IndexState Xxfs.FreshVolume Xxfs.FreshIndex Xxfs.NamespaceRuns Xxfs.Runs Xxfs.IndexRep
open Xxfs.Soundness Xxfs.PowerLoss Xxfs.Lib.Computation Xxfs.Lib.Computation.Comp

section traces

def Call.silent : Call → Bool
  | .sync | .remount _ => true
  | _ => false

def asked (log : List (Call × Reply)) : List (Call × Reply) := log.filter fun x ↦ !x.1.silent

variable {log log' : List (Call × Reply)} {t t' : NameTree}

theorem Call.spec_silent {c : Call} (h : c.silent = true) (t : NameTree) : c.spec t = (.code .ok, t) := by
  cases c with
  | sync => rfl
  | remount flags => rfl
  | _ => cases h

theorem Trace.asked (h : Trace log t) : Trace (TreeSpec.asked log) t := by
  induction h with
  | start => exact .start
  | @step log t t' c r _ hs ih =>
    rw [TreeSpec.asked, List.filter_cons]
    cases hc : c.silent with
    | true =>
      rw [Call.spec_silent hc] at hs
      obtain ⟨-, rfl⟩ := Prod.mk.inj hs
      exact ih
    | false => exact ih.step hs

theorem Trace.deterministic (h : Trace log t) (h' : Trace log' t')
    (hsame : log.map Prod.fst = log'.map Prod.fst) : log = log' ∧ t = t' := by
  induction h generalizing log' t' with
  | start =>
    cases h' with
    | start => exact ⟨rfl, rfl⟩
    | step _ _ => cases hsame
  | step _ hs ih =>
    cases h' with
    | start => cases hsame
    | step h₁ hs' =>
      obtain ⟨hc, hlog⟩ := List.cons.inj hsame
      obtain ⟨rfl, rfl⟩ := ih h₁ hlog
      dsimp only at hc
      subst hc
      obtain ⟨rfl, rfl⟩ := Prod.mk.inj (hs.symm.trans hs')
      exact ⟨rfl, rfl⟩

end traces

section sessions

/-- A call that respects the limits of the code, takes directories for directories and leaves the
targets of links alone. -/
def ProperAt (K : Path → Prop) (m : Inodes) (fs : Fs) (c : Call) : Prop :=
  CarefulAt K m fs c.op ∧ match c with
  | .write path _ _ _ => kind m (pathNormalize path) ≠ some ftLnk
  | .read path _ _ _ => kind m (pathNormalize path) ≠ some ftDir
  | _ => True

def Proper (K : Path → Prop) (fs : Fs) (c : Call) : Prop := ProperAt K (indexed fs) fs c

/-- The calls of a client on a new image with their replies, the latest first. The power may fail
right after a sync. -/
inductive Session (K : Path → Prop) (env : Env) : List (Call × Reply) → Fs → Prop
  | fresh {sizeMb flags : UInt64} {fs : Fs} : Volume.fresh env sizeMb flags = some fs →
    Session K env [] fs
  | step {log : List (Call × Reply)} {fs fs' : Fs} {c : Call} {r : Reply} : Session K env log fs →
    Proper K fs c → c.run env fs = some (r, fs') → Live fs' → Session K env ((c, r) :: log) fs'
  | loss {log : List (Call × Reply)} {fs fs₁ fs₂ : Fs} {flags : UInt64} {r : Reply} :
    Session K env log fs → Call.sync.run env fs = some (r, fs₁) → Live fs₁ →
    powerLoss env flags fs₁ = some (true, fs₂) → Session K env ((.sync, r) :: log) fs₂

variable {env : Env} (he : Healthy env) {K : Path → Prop} (hK : Names K) {m : Inodes} {fs fs' : Fs}
  {c : Call} {r : Reply} {log : List (Call × Reply)}

theorem of_map {α β : Type} {f : α → β} {x : FsM α} {b : β} (h : (f <$> x) fs = some (b, fs')) :
    ∃ a, x fs = some (a, fs') ∧ b = f a := by
  obtain ⟨⟨a, fs₁⟩, hx, hfs⟩ := Option.bind_eq_some_iff.mp h
  obtain ⟨rfl, rfl⟩ := Prod.mk.inj (Option.some.inj hfs)
  exact ⟨a, hx, rfl⟩

theorem treeOf_fresh (env : Env) (sizeMb flags : UInt64) :
    treeAt (freshInodes (env.time 1)) (freshFs env sizeMb flags) = rootOnly := by
  funext p
  rw [treeAt, seen_fresh, rootOnly, freshInodes]
  split
  · exact congrArg some (nodeOf_dir (rootInode_type _))
  · rfl

theorem allTidy_fresh (env : Env) (sizeMb flags : UInt64) :
    AllTidy (freshInodes (env.time 1)) (freshFs env sizeMb flags) := by
  intro p n hn ht
  rw [seen_fresh] at hn
  obtain ⟨-, rfl⟩ := freshInodes_cases hn
  exact (ht (rootInode_type _)).elim

theorem treeAt_mounted (hd : Durable m fs) (flags : UInt64) :
    treeAt m (mounted fs flags) = treeAt m fs := by
  funext p
  rw [treeAt, treeAt, seen_mounted, hd.level]
  rfl

theorem allTidy_mounted (hd : Durable m fs) (flags : UInt64) (hA : AllTidy m fs) :
    AllTidy m (mounted fs flags) := by
  intro p n hn ht
  rw [seen_mounted, ← hd.level] at hn
  exact hA p n hn ht

include he hK

/-- Every call replies what the tree of names says, and leads to the tree that it says. -/
theorem call_steps (h : Sound K m ∅ fs) (hA : AllTidy m fs) (hc : ProperAt K m fs c)
    (hx : c.run env fs = some (r, fs')) (hl : Live fs') : Steps K (c.spec (treeAt m fs)) r fs' := by
  obtain ⟨hc, hp⟩ := hc
  cases c with
  | create path mode uid gid =>
    obtain ⟨rc, hm, rfl⟩ := of_map hx
    exact create_steps he hK h hA hc hm hl
  | mkdir path mode uid gid =>
    obtain ⟨rc, hm, rfl⟩ := of_map hx
    exact mkdir_steps he hK h hA hc hm hl
  | unlink path =>
    obtain ⟨rc, hm, rfl⟩ := of_map hx
    exact unlink_steps he hK h hA hc hm hl
  | rmdir path =>
    obtain ⟨rc, hm, rfl⟩ := of_map hx
    exact rmdir_steps he hK h hA hc hm hl
  | stat path =>
    obtain ⟨q, hm, rfl⟩ := of_map hx
    exact stat_steps he hK h hA hc hm
  | write path buf off len =>
    obtain ⟨rc, hm, rfl⟩ := of_map hx
    exact write_steps he hK h hA hc hp hm hl
  | read path buf off len =>
    obtain ⟨q, hm, rfl⟩ := of_map hx
    exact read_steps he hK h hA hc hp hm
  | chmod path mode =>
    obtain ⟨rc, hm, rfl⟩ := of_map hx
    exact attr_steps he hK h hA (fun n ↦ { n with iMode := mode }) (fun n ↦ ⟨rfl, rfl, rfl, rfl⟩)
      (nodeOf_mode mode) hc.1 hc.2 hm hl
  | chown path uid gid =>
    obtain ⟨rc, hm, rfl⟩ := of_map hx
    exact attr_steps he hK h hA (fun n ↦ { n with iUid := uid, iGid := gid })
      (fun n ↦ ⟨rfl, rfl, rfl, rfl⟩) (nodeOf_owner uid gid) hc.1 hc.2 hm hl
  | utime path atime mtime =>
    obtain ⟨rc, hm, rfl⟩ := of_map hx
    exact attr_steps he hK h hA (fun n ↦ { n with iAtime := atime, iMtime := mtime })
      (fun n ↦ ⟨rfl, rfl, rfl, rfl⟩) (fun _ _ _ ↦ rfl) hc.1 hc.2 hm hl
  | rename old new =>
    obtain ⟨rc, hm, rfl⟩ := of_map hx
    exact rename_steps he hK h hA hc hm hl
  | symlink target linkpath =>
    obtain ⟨rc, hm, rfl⟩ := of_map hx
    exact symlink_steps he hK h hA hc hm hl
  | readlink path buf len =>
    obtain ⟨q, hm, rfl⟩ := of_map hx
    exact readlink_steps he hK h hA hc hm
  | sync =>
    obtain ⟨rc, hm, rfl⟩ := of_map hx
    exact sync_steps he hK h hA hm hl
  | remount flags =>
    obtain ⟨⟨ok, fs₁⟩, hm, hx⟩ := Option.bind_eq_some_iff.mp hx
    cases ok with
    | false => cases hx
    | true =>
      obtain ⟨rfl, rfl⟩ := Prod.mk.inj (Option.some.inj hx)
      exact remount_steps he hK h hA hc hm hl

theorem Session.sound (h : Session K env log fs) :
    Sound K (indexed fs) ∅ fs ∧ AllTidy (indexed fs) fs ∧ Trace log (treeOf fs) := by
  induction h with
  | @fresh sizeMb flags fs hx =>
    have hg := goodSize_of_fresh hx
    obtain rfl := eq_freshFs he hx
    have hs : Sound K _ ∅ (freshFs env sizeMb flags) := sound_fresh hK hg flags
    rw [treeOf, hs.indexed_eq hK, treeOf_fresh]
    exact ⟨hs, allTidy_fresh env sizeMb flags, .start⟩
  | step _ hc hx hl ih =>
    obtain ⟨hs, hA, ht⟩ := ih
    obtain ⟨m', hs', hA', hspec⟩ := call_steps he hK hs hA hc hx hl
    rw [treeOf, hs'.indexed_eq hK]
    exact ⟨hs', hA', ht.step hspec⟩
  | @loss log fs fs₁ fs₂ flags r _ hx hl hloss ih =>
    obtain ⟨hs, hA, ht⟩ := ih
    obtain ⟨rc, hm, rfl⟩ := of_map hx
    obtain ⟨m₁, hs₁, hA₁, hspec⟩ := sync_steps he hK hs hA hm hl
    obtain ⟨-, m₂, hs₂, -, hd⟩ := sync_durable he hK hs hm hl
    obtain rfl : m₁ = m₂ := (hs₁.indexed_eq hK).symm.trans (hs₂.indexed_eq hK)
    obtain ⟨hmount, hs'⟩ := loss_mounted he hK hs₁ hd
    obtain ⟨-, rfl⟩ := Prod.mk.inj (Option.some.inj (hloss.symm.trans hmount))
    rw [treeOf, hs'.indexed_eq hK, treeAt_mounted hd]
    exact ⟨hs', allTidy_mounted hd flags hA₁, ht.step hspec⟩

/-- The code is the tree of names: whatever has been cached, written back, lost or mounted anew,
every reply has been the one that the tree gives. -/
theorem session_refines (h : Session K env log fs) : Trace log (treeOf fs) := (h.sound he hK).2.2

omit hK in
/-- Neither the image nor the clock, nor when the caches were written back or lost, shows in a
reply. -/
theorem sessions_agree {K' : Path → Prop} {env' : Env} {log' : List (Call × Reply)} (he' : Healthy env')
    (hK : Names K) (hK' : Names K') (h : Session K env log fs) (h' : Session K' env' log' fs')
    (hsame : (asked log).map Prod.fst = (asked log').map Prod.fst) :
    asked log = asked log' ∧ treeOf fs = treeOf fs' :=
  (session_refines he hK h).asked.deterministic (session_refines he' hK' h').asked hsame

end sessions


section first

theorem map_of {α β : Type} {f : α → β} {x : FsM α} {a : α} {fs fs' : Fs}
    (h : x fs = some (a, fs')) : (f <$> x) fs = some (f a, fs') :=
  Option.bind_eq_some_iff.mpr ⟨(a, fs'), h, rfl⟩

theorem session_start (flags : UInt64) :
    Session (· ∈ fewPaths) steady [] (freshFs steady 1 flags) :=
  .fresh (fresh_apply steady_healthy goodSize_one flags)

theorem Session.stat {log : List (Call × Reply)} {fs : Fs} (h : Session (· ∈ fewPaths) steady log fs)
    (ha : Reserve 2 fs) : ∃ r fs', Session (· ∈ fewPaths) steady ((.stat [slash, 97], r) :: log) fs' := by
  have hmem : pathNormalize [slash, 97] ∈ fewPaths := by decide
  obtain ⟨hs, -, -⟩ := h.sound steady_healthy fewPaths_names
  obtain ⟨a, fs', hx, hdraw⟩ := hs.stat_pays steady_healthy fewPaths_names hmem ha
  exact ⟨_, fs', h.step ⟨hmem, trivial⟩ (map_of hx) (hdraw.left ha).ample.live⟩

theorem session_refines_first : ∃ fs,
    Session (· ∈ fewPaths) steady [(.create [slash, 97] 0 0 0, .code .ok)] fs ∧
      Trace [(.create [slash, 97] 0 0 0, .code .ok)] (treeOf fs) := by
  have hmem : pathNormalize [slash, 97] ∈ fewPaths := by decide
  have hc := careful_first fewPaths_names 0 0 0 hmem (by decide) (by decide)
  obtain ⟨m, fs, hx, -, -, ha, -⟩ := first_create fewPaths_names hc hmem (by decide) (by decide)
  have h := (session_start 0).step (c := .create [slash, 97] 0 0 0) ⟨hc, trivial⟩ (map_of hx) ha.live
  exact ⟨fs, h, session_refines steady_healthy fewPaths_names h⟩

/-- A file is made and asked for, with a sync and a loss of power in between or without. -/
theorem sessions_agree_created : ∃ r fs fs',
    Session (· ∈ fewPaths) steady
      [(.stat [slash, 97], r), (.sync, .code .ok), (.create [slash, 97] 0 0 0, .code .ok)] fs ∧
    Session (· ∈ fewPaths) steady [(.stat [slash, 97], r), (.create [slash, 97] 0 0 0, .code .ok)] fs' ∧
      treeOf fs = treeOf fs' := by
  have hmem : pathNormalize [slash, 97] ∈ fewPaths := by decide
  have hc := careful_first fewPaths_names 0 0 0 hmem (by decide) (by decide)
  obtain ⟨m, fs₁, fs₂, hr, -, hF⟩ := first_synced hc fun _ ↦ trivial
  have h₁ := (session_start 0).step (c := .create [slash, 97] 0 0 0) ⟨hc, trivial⟩ (map_of hF.created)
    hF.early.ample.live
  obtain ⟨-, m₂, hs₂, -, hd⟩ := sync_durable steady_healthy fewPaths_names
    (CarefulRun.sound steady_healthy fewPaths_names hr) hF.synced hF.reserve.ample.live
  have hloss : powerLoss steady 1 fs₂ = some (true, mounted fs₂ 1) :=
    (loss_mounted steady_healthy fewPaths_names hs₂ hd).1
  have h₂ := h₁.loss (map_of hF.synced) hF.reserve.ample.live hloss
  have ha₂ : Reserve 2 (mounted fs₂ 1) :=
    draws_mounted 1 2 (reserve_antitone (by decide : 0 + 2 ≤ 200) _ hF.reserve)
  obtain ⟨r, fs, h⟩ := h₂.stat ha₂
  obtain ⟨r', fs', h'⟩ := h₁.stat (reserve_antitone (by decide : 2 ≤ 200) _ hF.early)
  obtain ⟨hasked, htree⟩ :=
    sessions_agree steady_healthy steady_healthy fewPaths_names fewPaths_names h h' rfl
  obtain ⟨hr, -⟩ := List.cons.inj hasked
  obtain ⟨-, rfl⟩ := Prod.mk.inj hr
  exact ⟨r, fs, fs', h, h', htree⟩

end first

end Xxfs.TreeSpec

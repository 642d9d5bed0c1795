import Xxfs.TreeSessions

namespace Xxfs.TreeSpec

open Function
open Xxfs.DiskFormat Xxfs.Machine Xxfs.Volume Xxfs.InodeCache Xxfs.Operations Xxfs.PathName
open Xxfs.CacheMap Xxfs.IndexState Xxfs.FreshVolume Xxfs.FreshIndex Xxfs.NamespaceRuns Xxfs.Runs Xxfs.IndexRep
open Xxfs.OperationFrames Xxfs.Soundness Xxfs.PowerLoss Xxfs.Lib.Computation Xxfs.Lib.Computation.Comp
open Xxfs.Lib.Credits

section costs

/-- The blocks that a call may take, or set aside for a later sync. -/
def Call.cost : Call → ℕ
  | .create .. | .mkdir .. => 9
  | .unlink _ | .rmdir _ => 7
  | .stat _ | .read .. | .readlink .. => 2
  | .write _ _ off len => writeCost off len + 2
  | .chmod .. | .chown .. | .utime .. | .rename .. | .symlink .. => 4
  | .sync | .remount _ => 0

variable {env : Env} (he : Healthy env) {K : Path → Prop} (hK : Names K) {m : Inodes} {fs : Fs}
  {c : Call}
include he hK

theorem call_pays (h : Sound K m ∅ fs) (hc : ProperAt K m fs c) :
    Pays Reserve c.cost (c.run env) fs := by
  obtain ⟨hc, -⟩ := hc
  cases c with
  | create path mode uid gid =>
    exact (h.create_pays he hK mode uid gid hc.1 hc.2).map _
  | mkdir path mode uid gid =>
    exact (h.mkdir_pays he hK mode uid gid hc.1 hc.2).map _
  | unlink path => exact (h.unlink_pays he hK hc.1 hc.2).map _
  | rmdir path => exact (h.rmdir_pays he hK hc.1 hc.2).map _
  | stat path => exact (h.stat_pays he hK hc).map _
  | write path buf off len => exact (h.write_pays he hK hc.1 hc.2).map _
  | read path buf off len => exact (h.read_pays he hK hc buf off len).map _
  | chmod path mode => exact (h.setAttr_pays he hK _ hc.1).map _
  | chown path uid gid => exact (h.setAttr_pays he hK _ hc.1).map _
  | utime path atime mtime => exact (h.setAttr_pays he hK _ hc.1).map _
  | rename old new =>
    exact (h.rename_pays he hK hc.1 hc.2.1 fun ho ↦ (hc.2.2.2.2 ho).1).map _
  | symlink target linkpath => exact (h.symlink_pays he hK target hc.1).map _
  | readlink path buf len => exact (h.readlink_pays he hK hc buf len).map _
  | sync => exact (h.sync_pays he hK).map _
  | remount flags =>
    intro ha
    obtain ⟨fs', hx, hdraw⟩ := remount_draws he hK h flags ha
    exact ⟨.code .ok, fs', by rw [Call.run, bind_apply, hx]; rfl, hdraw⟩

end costs

section replies

def Reply.rc : Reply → Rc
  | .code rc | .bytes rc _ => rc
  | .facts (.error rc) | .target (.error rc) => rc
  | .facts (.ok _) | .target (.ok _) => .ok

variable {log : List (Call × Reply)} {t : NameTree}

theorem Call.spec_rc (c : Call) (t : NameTree) : (c.spec t).1.rc ≠ .enospc := by
  cases c <;> simp only [Call.spec, makes, changes, unlinks, removes, writes, moves, readsLink] <;>
    repeat' split
  all_goals simp [Reply.rc]

theorem Trace.rc (h : Trace log t) : ∀ x ∈ log, x.2.rc ≠ .enospc := by
  induction h with
  | start => simp
  | @step log t t' c r _ hs ih =>
    rw [List.forall_mem_cons]
    refine ⟨?_, ih⟩
    have hr := c.spec_rc t
    rwa [hs] at hr

end replies

section plans

/-- What a client does next: a call, or a sync with a failure of the power right after it. -/
inductive Event
  | call (c : Call)
  | loss (flags : UInt64)

def Event.asks : Event → Call
  | .call c => c
  | .loss _ => .sync

def Event.cost (e : Event) : ℕ := e.asks.cost

/-- A mount that fails leaves nothing to go on with. -/
def Event.run (env : Env) : Event → FsM Reply
  | .call c => c.run env
  | .loss flags => do
    let r ← Call.sync.run env
    if ← powerLoss env flags then return r else FsM.diverge

def Event.Proper (K : Path → Prop) (fs : Fs) (e : Event) : Prop := TreeSpec.Proper K fs e.asks

/-- The events are proper in the states that they find. -/
def Planned (K : Path → Prop) (env : Env) : List Event → Fs → Prop
  | [], _ => True
  | e :: es, fs => e.Proper K fs ∧ ∀ r fs', e.run env fs = some (r, fs') → Planned K env es fs'

/-- The events in turn, with the replies that the client keeps. -/
def serve (env : Env) : List (Call × Reply) → List Event → FsM (List (Call × Reply))
  | log, [] => return log
  | log, e :: es => do
    let r ← e.run env
    serve env ((e.asks, r) :: log) es

variable {env : Env} (he : Healthy env) {K : Path → Prop} (hK : Names K) {fs : Fs}
  {log : List (Call × Reply)} {e : Event} {es : List Event} {k : ℕ}
include he hK

theorem Session.event (h : Session K env log fs) (hc : e.Proper K fs) (ha : Reserve (e.cost + k) fs) :
    ∃ r fs', e.run env fs = some (r, fs') ∧ Session K env ((e.asks, r) :: log) fs' ∧
      Reserve k fs' := by
  obtain ⟨hs, -, -⟩ := h.sound he hK
  have hfirst := reserve_antitone (Nat.le_add_right e.cost k) fs ha
  obtain ⟨r, fs₁, hx, hdraw⟩ := call_pays he hK hs hc hfirst
  have ha₁ := hdraw k ha
  cases e with
  | call c => exact ⟨r, fs₁, hx, h.step hc hx ha₁.ample.live, ha₁⟩
  | loss flags =>
    obtain ⟨rc, hm, rfl⟩ := of_map hx
    obtain ⟨-, m₁, hs₁, -, hd⟩ := sync_durable he hK hs hm ha₁.ample.live
    have hloss : powerLoss env flags fs₁ = some (true, _) := (loss_mounted he hK hs₁ hd).1
    refine ⟨_, _, ?_, h.loss hx ha₁.ample.live hloss, draws_mounted flags k (by rwa [Nat.zero_add])⟩
    have hsync : Call.sync.run env fs = some (_, fs₁) := hx
    rw [Event.run, bind_apply, hsync, Option.bind_some, bind_apply, hloss]
    rfl

theorem Session.serves (h : Session K env log fs) (hes : Planned K env es fs)
    (ha : Reserve ((es.map Event.cost).sum + k) fs) : ∃ log' fs',
      serve env log es fs = some (log', fs') ∧ Session K env log' fs' ∧ Reserve k fs' ∧
        log'.map Prod.fst = (es.map Event.asks).reverse ++ log.map Prod.fst := by
  induction es generalizing log fs with
  | nil =>
    rw [List.map_nil, List.sum_nil, Nat.zero_add] at ha
    exact ⟨log, fs, rfl, h, ha, rfl⟩
  | cons e es ih =>
    rw [List.map_cons, List.sum_cons, Nat.add_assoc] at ha
    obtain ⟨r, fs₁, hx, h₁, ha₁⟩ := h.event he hK hes.1 ha
    obtain ⟨log', fs', hx', h', ha', hlog⟩ := ih h₁ (hes.2 r fs₁ hx) ha₁
    refine ⟨log', fs', ?_, h', ha', ?_⟩
    · rw [serve, bind_apply, hx]
      exact hx'
    · rw [hlog]
      simp

/-- A client whose calls cost less than a new image has blocks is served to the end, as the tree of
names says, never refused for want of space, and there are blocks left. -/
theorem client_served {sizeMb flags : UInt64} (hx : Volume.fresh env sizeMb flags = some fs)
    (hes : Planned K env es fs) (ha : Ample (es.map Event.cost).sum fs) : ∃ log fs',
      serve env [] es fs = some (log, fs') ∧ log.map Prod.fst = (es.map Event.asks).reverse ∧
        Session K env log fs' ∧ Live fs' ∧ Trace log (treeOf fs') ∧ ∀ x ∈ log, x.2.rc ≠ .enospc := by
  have hclean : Reserve (es.map Event.cost).sum fs := by
    obtain rfl := eq_freshFs he hx
    exact reserve_of_clean (dirtyInodes_fresh env sizeMb flags) (dirtyDirs_fresh env sizeMb flags) ha
  obtain ⟨log, fs', hx', h, hleft, hlog⟩ := (Session.fresh hx).serves he hK (k := 0) hes hclean
  have ht := session_refines he hK h
  exact ⟨log, fs', hx', by simpa using hlog, h, hleft.ample.live, ht, ht.rc⟩

end plans

section first

/-- A file is made, the power fails after a sync, and the file is asked for. -/
def lossPlan : List Event :=
  [.call (.create [slash, 97] 0 0 0), .loss 0, .call (.stat [slash, 97])]

theorem client_served_first : ∃ fs, serve steady [] lossPlan (freshFs steady 1 0) =
    some ([(.stat [slash, 97], .facts (.ok (.leaf ftReg 0 0 0 0))), (.sync, .code .ok),
      (.create [slash, 97] 0 0 0, .code .ok)], fs) := by
  have hmem : pathNormalize [slash, 97] ∈ fewPaths := by decide
  have hc := careful_first fewPaths_names 0 0 0 hmem (by decide) (by decide)
  have hplan : Planned (· ∈ fewPaths) steady lossPlan (freshFs steady 1 0) :=
    ⟨⟨hc, trivial⟩, fun _ _ _ ↦ ⟨⟨trivial, trivial⟩, fun _ _ _ ↦
      ⟨⟨hmem, trivial⟩, fun _ _ _ ↦ trivial⟩⟩⟩
  obtain ⟨log, fs, hx, hcalls, -, -, ht, -⟩ := client_served steady_healthy fewPaths_names
    (fresh_apply steady_healthy goodSize_one 0) hplan (freshOne_ample.mono (by decide))
  have hspec : Trace [(.stat [slash, 97], .facts (.ok (.leaf ftReg 0 0 0 0))), (.sync, .code .ok),
      (.create [slash, 97] 0 0 0, .code .ok)] _ := .step (.step (.step .start rfl) rfl) rfl
  obtain ⟨rfl, -⟩ := ht.deterministic hspec hcalls
  exact ⟨fs, hx⟩

end first

end Xxfs.TreeSpec

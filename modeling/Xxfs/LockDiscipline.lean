import Xxfs.Healthy
import Xxfs.Reach

namespace Xxfs.LockDiscipline

open Xxfs.DiskFormat Xxfs.Machine Xxfs.Volume Xxfs.Operations Xxfs.Runs Xxfs.CacheKeys
open Xxfs.OperationFrames Xxfs.Reach Xxfs.Lib.Computation Xxfs.Lib.Computation.Comp

/-- The lock is in use, and nobody holds it. -/
structure Unheld (fs : Fs) : Prop where
  used : fs.flags &&& flagNolock = 0
  free : fs.lock = .free

theorem Unheld.lockFree {fs : Fs} (h : Unheld fs) : LockFree fs := .inr h.free

theorem Unheld.of_same {fs fs' : Fs} (h : Unheld fs) (hs : SameLock fs fs') : Unheld fs' :=
  ⟨by rw [hs.flags]; exact h.used, hs.lock.trans h.free⟩

variable (env : Env)

/-- A disciplined computation takes the lock only when it is free, and gives it back. -/
theorem Disciplined.unheld {α : Type} {m : FsM α} (hm : Disciplined SameLock m) {fs fs' : Fs}
    {a : α} (hf : Unheld fs) (h : m fs = some (a, fs')) : Unheld fs' := by
  induction hm generalizing fs fs' with
  | quiet hm => exact hf.of_same (hm _ _ _ h)
  | @locked _ kind m hk hm =>
    rw [bracket_eq hf.lockFree] at h
    obtain ⟨fs₁, hs, -, rfl⟩ := hm.apply (fun _ _ h ↦ h) (holds_held kind fs) h
    have hflags : fs₁.flags &&& flagNolock = 0 := by
      rw [hs.flags, held_flags]
      exact hf.used
    exact ⟨by rwa [held_flags], by simp [held, hflags]⟩
  | seq _ _ ih ih' =>
    obtain ⟨b, fs₁, h₁, h₂⟩ := of_bind h
    exact ih' b (ih hf h₁) h₂

theorem exec_sameLock {op : Op} (hop : ∀ flags, op ≠ .remount flags) :
    Disciplined SameLock (exec env op) := by
  by_cases hclose : ∃ fp, op = .closeFile fp
  · obtain ⟨fp, rfl⟩ := hclose
    exact .seq (xxfsClose_disciplined env fp) fun _ ↦ .quiet (.pure _)
  · exact (exec_disciplined env hop fun fp hfp ↦ hclose ⟨fp, hfp⟩).mono
      fun _ _ h ↦ h.toSameLock

theorem mounted_free {img : Image} {flags : UInt64} {clock : ℕ} {vals : List (List UInt8)}
    {ok : Bool} {fs : Fs}
    (h : xxfsMount env { blank img flags clock with passed := vals } = some (ok, fs)) :
    fs.lock = .free :=
  (xxfsMount_mountFrame env _ _ _ h).lock

theorem exec_unheld {op : Op} {fs fs' : Fs} (hf : Unheld fs)
    (h : exec env op fs = some ((), fs')) : fs'.lock = .free := by
  by_cases hop : ∃ flags, op = .remount flags
  · obtain ⟨flags, rfl⟩ := hop
    obtain ⟨ok, fs₁, h₁, h₂⟩ := of_bind h
    obtain ⟨p, -, hm⟩ := Option.bind_eq_some_iff.mp h₁
    cases ok with
    | false => cases h₂
    | true =>
      obtain ⟨-, rfl⟩ := Prod.mk.inj (Option.some.inj h₂)
      exact mounted_free env hm
  · exact (Disciplined.unheld (exec_sameLock env fun flags hf ↦ hop ⟨flags, hf⟩) hf h).free

/-- Every public operation, whatever the operating system answers, takes the lock only where it
does not hold it and releases on every path the kind it took; it starts and ends with the lock
free. A mount leaves the lock of the new file system alone. -/
theorem balanced_locking :
    (∀ op, (∀ flags, op ≠ Op.remount flags) → Disciplined SameLock (exec env op)) ∧
    Disciplined SameLock (xxfsUmount env) ∧ Within SameLock (xxfsMount env) ∧
    ∀ op fs fs', Unheld fs → exec env op fs = some ((), fs') → fs'.lock = .free :=
  ⟨fun _ hop ↦ exec_sameLock env hop, (xxfsUmount_disciplined env).mono fun _ _ h ↦ h.toSameLock,
    (xxfsMount_mountFrame env).mono fun _ _ h ↦ ⟨h.lock, h.flags⟩,
    fun _ _ _ hf h ↦ exec_unheld env hf h⟩

theorem balanced_locking_sync : Disciplined SameLock (exec steady .sync) :=
  (balanced_locking steady).1 .sync fun _ ↦ nofun

end Xxfs.LockDiscipline

import Xxfs.OperationFrames

namespace Xxfs.Reach

open Xxfs.DiskFormat Xxfs.Machine Xxfs.PageCache Xxfs.PagedIndex Xxfs.InodeCache
open Xxfs.DirCache Xxfs.Volume Xxfs.Operations Xxfs.Runs Xxfs.Frames Xxfs.Hash
open Xxfs.CacheKeys Xxfs.OperationFrames Xxfs.Lib.Computation Xxfs.Lib.Computation.Comp

/-- What a mount leaves as it found it. -/
structure MountFrame (fs fs' : Fs) : Prop where
  lock : fs'.lock = fs.lock
  flags : fs'.flags = fs.flags
  icache : fs'.icache = fs.icache
  dcache : fs'.dcache = fs.dcache
  passed : fs'.passed = fs.passed
  size : fs.img.size ≤ fs'.img.size

instance : Std.Refl MountFrame where
  refl _ := ⟨rfl, rfl, rfl, rfl, rfl, le_rfl⟩

instance : IsTrans Fs MountFrame where
  trans _ _ _ h h' := ⟨h'.lock.trans h.lock, h'.flags.trans h.flags, h'.icache.trans h.icache,
    h'.dcache.trans h.dcache, h'.passed.trans h.passed, h.size.trans h'.size⟩

theorem mountFrame_of {α : Type} {m : FsM α} (h : Within (IndexOnly fun _ ↦ False) m) :
    Within MountFrame m :=
  h.mono fun _ _ h ↦ ⟨h.lock, h.flags, h.icache, h.dcache,
    h.passed.eq, h.size⟩

theorem setSb_mountFrame (sb : Super) :
    Within MountFrame (FsM.modify fun fs ↦ { fs with sb := sb }) :=
  .modify fun _ ↦ ⟨rfl, rfl, rfl, rfl, rfl, le_rfl⟩

variable (env : Env) {P : List UInt8 → Prop}

theorem superRead_mountFrame : Within MountFrame (superRead env) := by
  refine .bind (mountFrame_of (osPread_indexOnly env _ _ _)) fun r ↦ ?_
  cases r with
  | none => exact .pure _
  | some p =>
    obtain ⟨buf, r⟩ := p
    refine .bind (setSb_mountFrame _) fun _ ↦ .ite (fun _ ↦ .pure _) fun _ ↦
      .ite (fun _ ↦ .pure _) fun _ ↦ .bind (setSb_mountFrame _) fun _ ↦
        .ite (fun _ ↦ .bind ?_ fun _ ↦ .pure _) fun _ ↦ .pure _
    exact mountFrame_of (discard_indexOnly (osPwrite_indexOnly env _ _ _))

theorem deepen_indexOnly (needed : UInt8) (n : ℕ) : Within (IndexOnly P) (deepen env needed n) := by
  induction n with
  | zero => exact .bind .get fun _ ↦ .ite (fun _ ↦ .diverge) fun _ ↦ .pure _
  | succ n ih =>
    refine .bind .get fun _ ↦ .ite (fun _ ↦ .bind ?_ fun _ ↦ ih) fun _ ↦ .pure _
    exact discard_indexOnly (pagedDirDouble_indexOnly env)

theorem scanBlock_indexOnly (scan : UInt64) : Within (IndexOnly P) (scanBlock env scan) := by
  refine .bind (osPread_indexOnly env _ _ _) fun r ↦ ?_
  cases r with
  | none => exact .pure _
  | some p =>
    refine .ite (fun _ ↦ .bind (deepen_indexOnly env _ _) fun _ ↦
      .bind (.modify fun fs ↦ ?_) fun _ ↦ .pure _) fun _ ↦ .pure _
    dsimp only
    split
    · exact ⟨rfl, rfl, rfl, rfl, rfl, Spent.rfl, rfl, Passed.rfl, le_rfl, le_rfl⟩
    · exact refl_of (IndexOnly P) _

theorem scanImage_indexOnly (fsize n : ℕ) (scan : UInt64) :
    Within (IndexOnly P) (scanImage env fsize n scan) := by
  induction n generalizing scan with
  | zero => exact .pure _
  | succ n ih =>
    exact .ite (fun _ ↦ .bind (scanBlock_indexOnly env _) fun _ ↦ .ite (fun _ ↦ ih _)
      fun _ ↦ .pure _) fun _ ↦ .pure _

theorem loadDir_indexOnly : Within (IndexOnly P) (loadDir env) := by
  refine .bind .get fun fs ↦ .ite (fun _ ↦ .bind (osAlloc_indexOnly env) fun _ ↦
    .ite (fun _ ↦ .bind (osPread_indexOnly env _ _ _) fun r ↦ ?_)
      fun _ ↦ .pure _) fun _ ↦ .bind (osFileSize_indexOnly env) fun r ↦ ?_
  · cases r with
    | none => exact .pure _
    | some p =>
      exact .ite (fun _ ↦ .modify fun _ ↦
        ⟨rfl, rfl, rfl, rfl, rfl, Spent.rfl, rfl, Passed.rfl, le_rfl, le_rfl⟩) fun _ ↦ .pure _
  · cases r with
    | none => exact .pure _
    | some fsize => exact scanImage_indexOnly env _ _ _

theorem xxfsMount_mountFrame : Within MountFrame (xxfsMount env) :=
  .bind (superRead_mountFrame env) fun _ ↦ .ite
    (fun _ ↦ .bind (.modify fun _ ↦ ⟨rfl, rfl, rfl, rfl, rfl, le_rfl⟩) fun _ ↦
      .bind (mountFrame_of (loadDir_indexOnly env)) fun _ ↦ .pure _) fun _ ↦ .pure _

/-- What every reachable state has: a free lock, and keys under their hashes. -/
structure Orderly (fs : Fs) : Prop where
  lock : LockFree fs
  keys : KeysHashed fs.icache

theorem mounted_orderly {img : Image} {flags : UInt64} {clock : ℕ} {vals : List (List UInt8)}
    {ok : Bool} {fs : Fs}
    (h : xxfsMount env { blank img flags clock with passed := vals } = some (ok, fs)) :
    Orderly fs := by
  have hf := xxfsMount_mountFrame env _ _ _ h
  refine ⟨.inr hf.lock, fun i e k he ↦ ?_⟩
  rw [hf.icache] at he
  cases he

theorem fresh_orderly {sizeMb flags : UInt64} {fs : Fs} (h : fresh env sizeMb flags = some fs) :
    Orderly fs := by
  obtain ⟨p, -, h⟩ := Option.bind_eq_some_iff.mp h
  split at h
  · obtain ⟨⟨ok, fs'⟩, hq, h⟩ := Option.bind_eq_some_iff.mp h
    dsimp only at h
    split at h
    · obtain rfl := Option.some.inj h
      exact mounted_orderly env hq
    · cases h
  · cases h

theorem exec_disciplined {op : Op} (hop : ∀ flags, op ≠ .remount flags)
    (hclose : ∀ fp, op ≠ .closeFile fp) : Disciplined Inside (exec env op) := by
  have hd {α : Type} {m : FsM α} (hm : Disciplined Inside m) : Disciplined Inside (discard m) :=
    .seq hm fun _ ↦ .quiet (.pure _)
  cases op with
  | create path mode uid gid => exact hd (xxfsCreate_disciplined env _ _ _ _)
  | mkdir path mode uid gid => exact hd (xxfsMkdir_disciplined env _ _ _ _)
  | unlink path => exact hd (xxfsUnlink_disciplined env _)
  | rmdir path => exact hd (xxfsRmdir_disciplined env _)
  | stat path => exact hd (xxfsStat_disciplined env _)
  | write path buf off len => exact hd (xxfsWrite_disciplined env _ _ _ _)
  | read path buf off len => exact hd (xxfsRead_disciplined env _ _ _ _)
  | chmod path mode => exact hd (setAttr_disciplined env _ _)
  | chown path uid gid => exact hd (setAttr_disciplined env _ _)
  | utime path atime mtime => exact hd (setAttr_disciplined env _ _)
  | rename old new => exact hd (xxfsRename_disciplined env _ _)
  | symlink target linkpath => exact hd (xxfsSymlink_disciplined env _ _)
  | readlink path buf len => exact hd (xxfsReadlink_disciplined env _ _ _)
  | sync => exact hd (xxfsSync_disciplined env)
  | openFile path flags => exact hd (xxfsOpen_disciplined env _ _)
  | closeFile fp => exact absurd rfl (hclose fp)
  | readFd fp buf count off => exact hd (xxfsReadFd_disciplined env _ _ _ _)
  | writeFd fp buf count off => exact hd (xxfsWriteFd_disciplined env _ _ _ _)
  | readdir path => exact hd (xxfsReaddir_disciplined env _)
  | remount flags => exact absurd rfl (hop flags)

theorem exec_outside {op : Op} (hop : ∀ flags, op ≠ .remount flags) {fs fs' : Fs}
    (hf : LockFree fs) (h : exec env op fs = some ((), fs')) : Outside fs fs' := by
  by_cases hclose : ∃ fp, op = .closeFile fp
  · obtain ⟨fp, rfl⟩ := hclose
    obtain ⟨rc, fs₁, h₁, h₂⟩ := of_bind h
    obtain ⟨-, rfl⟩ := Prod.mk.inj (Option.some.inj h₂)
    exact xxfsClose_outside env fp hf h₁
  · exact (exec_disciplined env hop fun fp hfp ↦ hclose ⟨fp, hfp⟩).outside hf h

theorem exec_size {op : Op} {fs fs' : Fs} (hf : LockFree fs) (h : exec env op fs = some ((), fs')) :
    fs.img.size ≤ fs'.img.size := by
  by_cases hop : ∃ flags, op = .remount flags
  · obtain ⟨flags, rfl⟩ := hop
    obtain ⟨ok, fs₁, h₁, h₂⟩ := of_bind h
    obtain ⟨⟨_, fs₂⟩, hu, hm⟩ := Option.bind_eq_some_iff.mp h₁
    cases ok with
    | false => cases h₂
    | true =>
      obtain ⟨-, rfl⟩ := Prod.mk.inj (Option.some.inj h₂)
      exact ((xxfsUmount_disciplined env).outside hf hu).size.trans (xxfsMount_mountFrame env _ _ _ hm).size
  · exact (exec_outside env (fun flags hf ↦ hop ⟨flags, hf⟩) hf h).size

theorem exec_orderly {op : Op} {fs fs' : Fs} (ho : Orderly fs)
    (h : exec env op fs = some ((), fs')) : Orderly fs' := by
  by_cases hop : ∃ flags, op = .remount flags
  · obtain ⟨flags, rfl⟩ := hop
    obtain ⟨ok, fs₁, h₁, h₂⟩ := of_bind h
    obtain ⟨p, -, hm⟩ := Option.bind_eq_some_iff.mp h₁
    cases ok with
    | false => cases h₂
    | true =>
      obtain ⟨-, rfl⟩ := Prod.mk.inj (Option.some.inj h₂)
      exact mounted_orderly env hm
  · have hout := exec_outside env (fun flags hf ↦ hop ⟨flags, hf⟩) ho.lock h
    exact ⟨hout.lock, hout.keys ho.keys⟩

theorem reachable_orderly {fs : Fs} (h : Reachable env fs) : Orderly fs :=
  h.invariant (fun _ _ _ hf ↦ fresh_orderly env hf) fun _ _ _ ho he ↦ exec_orderly env ho he

end Xxfs.Reach

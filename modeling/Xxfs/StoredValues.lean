import Xxfs.NamespaceRuns

namespace Xxfs.StoredValues

open Xxfs.DiskFormat Xxfs.Machine Xxfs.PageCache Xxfs.InodeCache Xxfs.DirCache Xxfs.Volume
open Xxfs.Operations Xxfs.Runs Xxfs.Frames Xxfs.Checksum Xxfs.CacheKeys Xxfs.OperationFrames
open Xxfs.Reach Xxfs.PagedIndex Xxfs.PathName Xxfs.Soundness Xxfs.FreshVolume Xxfs.NamespaceRuns
open Xxfs.Lib.Computation Xxfs.Lib.Computation.Comp

/-- The states of a mounted file system between any public operations, evictions and flushes. -/
inductive Worked (env : Env) : Fs → Prop
  | fresh {sizeMb flags : UInt64} {fs : Fs} : fresh env sizeMb flags = some fs → Worked env fs
  | op {o : Op} {fs fs' : Fs} : Worked env fs → exec env o fs = some ((), fs') → Worked env fs'
  | evict {fs fs' : Fs} : Worked env fs → icacheEvictOne env fs = some ((), fs') → Worked env fs'
  | flushInodes {fs fs' : Fs} :
      Worked env fs → icacheFlushAll env fs = some ((), fs') → Worked env fs'
  | flushDirs {fs fs' : Fs} :
      Worked env fs → dcacheFlushAll env fs = some ((), fs') → Worked env fs'
  | flushPages {fs fs' : Fs} :
      Worked env fs → pcacheFlushAll env fs = some ((), fs') → Worked env fs'

/-- Everything that was handed to the index is an inode whose checksum and ECC bytes are right. -/
structure Vouched (fs : Fs) : Prop where
  lock : LockFree fs
  passed : ∀ val ∈ fs.passed, ConsistentVal val

theorem Vouched.inside {fs fs' : Fs} (h : Vouched fs) (hi : Inside fs fs') : Vouched fs' :=
  ⟨h.lock.of_same hi.toSameLock,
    fun v hv ↦ (hi.passed.mem hv).elim (h.passed v) id⟩

theorem Vouched.outside {fs fs' : Fs} (h : Vouched fs) (ho : Outside fs fs') : Vouched fs' :=
  ⟨ho.lock, fun v hv ↦ (ho.passed.mem hv).elim (h.passed v) id⟩

variable {env : Env}

theorem mounted_vouched {img : Image} {flags : UInt64} {clock : ℕ} (vals : List (List UInt8))
    {ok : Bool} {fs : Fs} (hv : ∀ v ∈ vals, ConsistentVal v)
    (h : xxfsMount env { blank img flags clock with passed := vals } = some (ok, fs)) :
    Vouched fs := by
  have hpassed : fs.passed = vals := (xxfsMount_mountFrame env _ _ _ h).passed
  rw [← hpassed] at hv
  exact ⟨(mounted_orderly env h).lock, hv⟩

theorem fresh_vouched {sizeMb flags : UInt64} {fs : Fs} (h : fresh env sizeMb flags = some fs) :
    Vouched fs := by
  obtain ⟨p, -, h⟩ := Option.bind_eq_some_iff.mp h
  split at h
  · obtain ⟨⟨ok, fs'⟩, hq, h⟩ := Option.bind_eq_some_iff.mp h
    dsimp only at h
    split at h
    · obtain rfl := Option.some.inj h
      exact mounted_vouched [] (by simp) hq
    · cases h
  · cases h

theorem exec_vouched {o : Op} {fs fs' : Fs} (h : Vouched fs) (hx : exec env o fs = some ((), fs')) :
    Vouched fs' := by
  by_cases hop : ∃ flags, o = .remount flags
  · obtain ⟨flags, rfl⟩ := hop
    obtain ⟨ok, fs₁, h₁, h₂⟩ := of_bind hx
    obtain ⟨⟨u, fs₀⟩, hu, hm⟩ := Option.bind_eq_some_iff.mp h₁
    cases ok with
    | false => cases h₂
    | true =>
      obtain ⟨-, rfl⟩ := Prod.mk.inj (Option.some.inj h₂)
      have hout := (xxfsUmount_disciplined env).outside h.lock hu
      exact mounted_vouched _ (h.outside hout).passed hm
  · exact h.outside (exec_outside env (fun flags hf ↦ hop ⟨flags, hf⟩) h.lock hx)

theorem worked_vouched {fs : Fs} (h : Worked env fs) : Vouched fs := by
  induction h with
  | fresh h => exact fresh_vouched h
  | op _ h ih => exact exec_vouched ih h
  | evict _ h ih => exact ih.inside (icacheEvictOne_inside env _ _ _ h)
  | flushInodes _ h ih => exact ih.inside (icacheFlushAll_inside env _ _ _ h)
  | flushDirs _ h ih => exact ih.inside (dcacheFlushAll_inside env _ _ _ h)
  | flushPages _ h ih => exact ih.inside (inside_of (pcacheFlushAll_indexOnly env) _ _ _ h)

theorem pagedInsert_passes {key : Path} {val : List UInt8} {rc : Rc} {fs fs' : Fs}
    (h : pagedInsert env key val fs = some (rc, fs')) : val ∈ fs'.passed := by
  obtain ⟨_, fs₁, h₁, h₂⟩ := of_bind h
  obtain ⟨-, rfl⟩ := Prod.mk.inj (Option.some.inj h₁)
  have hrest : IndexOnly (fun _ ↦ True) { fs with passed := val :: fs.passed } fs' := by
    refine (Within.bind .get fun fs ↦ .bind (ensureBucket_indexOnly env _) fun rc ↦ ?_) _ _ _ h₂
    split
    · exact .bind .get fun _ ↦ insertWalk_indexOnly env _ _ trivial _ _
    · exact .pure _
  exact hrest.passed.kept List.mem_cons_self

theorem xxfsCreate_passes {path : Path} {mode uid gid : UInt16} {fs fs' : Fs}
    (h : xxfsCreate env path mode uid gid fs = some (.ok, fs')) :
    inodeToVal (createdInode (pathNormalize path) mode uid gid fs.cowGen) ∈ fs'.passed := by
  obtain ⟨l, h⟩ := locked_cases h
  obtain ⟨_, _, h₁, h⟩ := of_bind h
  obtain ⟨rfl, rfl⟩ := Prod.mk.inj (Option.some.inj h₁)
  dsimp only at h
  split at h
  · cases (unlocked_cases h).1
  · obtain ⟨rc, fs₁, h₁, h⟩ := of_bind h
    have hpass := pagedInsert_passes h₁
    split at h
    · obtain ⟨_, fs₂, h₂, h⟩ := of_bind h
      obtain ⟨_, fs₃, h₃, h⟩ := of_bind h
      obtain ⟨_, fs₄, h₄, h⟩ := of_bind h
      obtain ⟨-, rfl⟩ := Prod.mk.inj (Option.some.inj h₄)
      obtain ⟨-, l, rfl⟩ := unlocked_cases h
      have hput := (icachePut_inside env _ _ _ _ _ h₂).passed.kept hpass
      exact (discard_inside (dirAddChild_inside env _ _ _) _ _ _ h₃).passed.kept hput
    · obtain ⟨-, l, rfl⟩ := unlocked_cases h
      exact hpass

/-- Every value ever handed to `paged_put` or `paged_insert`, and the root's that `xxfs_mkfs`
writes, carries its own checksum and, in all 62 words, its own ECC bytes. -/
theorem passed_consistent (env : Env) :
    (∀ fs, Worked env fs → ∀ val ∈ fs.passed, ∃ n, val = inodeToVal n ∧ Consistent n) ∧
      ∀ now, Consistent (rootInode now) :=
  ⟨fun _ h ↦ (worked_vouched h).passed, fun _ ↦ consistent_inodeSetChecksumEcc _⟩

/-- The inode that a create of `/a` on a fresh image handed to the index. -/
theorem passed_consistent_created : ∃ fs val, Worked steady fs ∧ val ∈ fs.passed ∧
    ∃ n, val = inodeToVal n ∧ Consistent n := by
  have hmem : pathNormalize [slash, 97] ∈ fewPaths := by decide
  obtain ⟨m, fs, hx, -⟩ := first_create (C := fun _ _ ↦ True) fewPaths_names trivial hmem
    (by decide) (by decide)
  have hexec : exec steady (.create [slash, 97] 0 0 0) (freshFs steady 1 0) = some ((), fs) :=
    exec_discard hx
  have hworked : Worked steady fs := .op (.fresh (fresh_apply steady_healthy goodSize_one 0)) hexec
  have hpass := xxfsCreate_passes hx
  exact ⟨fs, _, hworked, hpass, (passed_consistent steady).1 fs hworked _ hpass⟩

end Xxfs.StoredValues

import Xxfs.CacheKeys

namespace Xxfs.OperationFrames

open Xxfs.DiskFormat Xxfs.Machine Xxfs.Allocator Xxfs.PageCache Xxfs.PagedIndex Xxfs.InodeCache
open Xxfs.DirCache Xxfs.Volume Xxfs.Operations Xxfs.Runs Xxfs.Frames Xxfs.Hash Xxfs.PathName
open Xxfs.CacheKeys Xxfs.Checksum Xxfs.Lib.Computation Xxfs.Lib.Computation.Comp

section locks

/-- No operation is under way, as far as the lock can tell. -/
def LockFree (fs : Fs) : Prop := fs.flags &&& flagNolock ≠ 0 ∨ fs.lock = .free

/-- The state with the lock taken, or with `.free` released, if the file system has one. -/
def held (kind : Lock) (fs : Fs) : Fs :=
  if fs.flags &&& flagNolock ≠ 0 then fs else { fs with lock := kind }

def Holds (kind : Lock) (fs : Fs) : Prop := fs.flags &&& flagNolock ≠ 0 ∨ fs.lock = kind

section held

variable (kind : Lock) (fs : Fs)

@[simp] theorem held_img : (held kind fs).img = fs.img := by unfold held; split <;> rfl
@[simp] theorem held_sb : (held kind fs).sb = fs.sb := by unfold held; split <;> rfl
@[simp] theorem held_pdir : (held kind fs).pdir = fs.pdir := by unfold held; split <;> rfl
@[simp] theorem held_pcache : (held kind fs).pcache = fs.pcache := by unfold held; split <;> rfl
@[simp] theorem held_flags : (held kind fs).flags = fs.flags := by unfold held; split <;> rfl
@[simp] theorem held_cowGen : (held kind fs).cowGen = fs.cowGen := by unfold held; split <;> rfl
@[simp] theorem held_icache : (held kind fs).icache = fs.icache := by unfold held; split <;> rfl
@[simp] theorem held_dcache : (held kind fs).dcache = fs.dcache := by unfold held; split <;> rfl
@[simp] theorem held_clock : (held kind fs).clock = fs.clock := by unfold held; split <;> rfl
@[simp] theorem held_passed : (held kind fs).passed = fs.passed := by unfold held; split <;> rfl

theorem holds_held : Holds kind (held kind fs) := by
  by_cases h : fs.flags &&& flagNolock = 0
  · exact .inr (by simp [held, h])
  · exact .inl (by simpa using h)

variable {kind fs}

theorem Holds.of_same {fs' : Fs} (h : Holds kind fs) (hs : SameLock fs fs') : Holds kind fs' := by
  unfold Holds
  rwa [hs.flags, hs.lock]

theorem LockFree.of_same {fs' : Fs} (h : LockFree fs) (hs : SameLock fs fs') : LockFree fs' := by
  unfold LockFree
  rwa [hs.flags, hs.lock]

end held

theorem bracket_eq {fs : Fs} (hf : LockFree fs) (kind : Lock) {α : Type} (m : FsM α) :
    (fsLock kind >>= fun _ ↦ m) fs = m (held kind fs) := by
  rcases hf with h | h <;> simp [fsLock, held, h]

theorem unlock_apply {fs : Fs} {kind : Lock} (h : Holds kind fs) {α : Type} (a : α) :
    (fsUnlock kind >>= fun _ ↦ (pure a : FsM α)) fs = some (a, held .free fs) := by
  rcases h with h | h <;> simp [fsUnlock, held, h]

theorem held_held {fs : Fs} (hf : LockFree fs) (kind : Lock) : held .free (held kind fs) = fs := by
  by_cases hn : fs.flags &&& flagNolock = 0
  · have hl : fs.lock = .free := hf.resolve_left (not_not.mpr hn)
    simp only [held, hn, ne_eq, not_true_eq_false, ↓reduceIte, ← hl]
  · simp [held, hn]

theorem unlock_bracket {fs : Fs} (hf : LockFree fs) (kind : Lock) {α : Type} (a : α) :
    (fsUnlock kind >>= fun _ ↦ (pure a : FsM α)) (held kind fs) = some (a, fs) := by
  rw [unlock_apply (holds_held kind fs), held_held hf]

/-- A computation that runs under the lock: steps that keep to `R`, and at the end of every
path the release of the kind that is held. -/
inductive Scoped (R : Fs → Fs → Prop) (kind : Lock) : {α : Type} → FsM α → Prop
  | unlock {α : Type} (a : α) : Scoped R kind (fsUnlock kind >>= fun _ ↦ (pure a : FsM α))
  | step {α β : Type} {m : FsM α} {f : α → FsM β} :
      Within R m → (∀ a, Scoped R kind (f a)) → Scoped R kind (m >>= f)

section under

variable {R : Fs → Fs → Prop} {kind : Lock} {α : Type}

theorem Scoped.ite {c : Prop} [Decidable c] {m m' : FsM α} (h : c → Scoped R kind m)
    (h' : ¬c → Scoped R kind m') : Scoped R kind (if c then m else m') := by
  split
  · exact h ‹_›
  · exact h' ‹_›

theorem Scoped.mono {R' : Fs → Fs → Prop} (hR : ∀ fs fs', R fs fs' → R' fs fs') {m : FsM α}
    (h : Scoped R kind m) : Scoped R' kind m := by
  induction h with
  | unlock a => exact .unlock a
  | step hm _ ih => exact .step (hm.mono hR) ih

/-- Such a computation goes by `R` to a state in which it still holds the lock, and ends by
releasing it. -/
theorem Scoped.apply [Std.Refl R] [IsTrans Fs R] (hR : ∀ fs fs', R fs fs' → SameLock fs fs')
    {m : FsM α} (h : Scoped R kind m) {fs fs' : Fs} {a : α} (hf : Holds kind fs)
    (hm : m fs = some (a, fs')) : ∃ fs₁, R fs fs₁ ∧ Holds kind fs₁ ∧ fs' = held .free fs₁ := by
  induction h generalizing fs with
  | unlock b =>
    rw [unlock_apply hf] at hm
    obtain ⟨-, rfl⟩ := Prod.mk.inj (Option.some.inj hm)
    exact ⟨fs, refl_of R fs, hf, rfl⟩
  | step hstep _ ih =>
    obtain ⟨b, fs₁, h₁, h₂⟩ := of_bind hm
    have hr := hstep _ _ _ h₁
    obtain ⟨fs₂, hr₂, hf₂, he⟩ := ih b (hf.of_same (hR _ _ hr)) h₂
    exact ⟨fs₂, trans_of R hr hr₂, hf₂, he⟩

end under

theorem wreturn_scoped {R : Fs → Fs → Prop} {α : Type} (a : α) : Scoped R .write (wreturn a) :=
  .unlock a

theorem rreturn_scoped {R : Fs → Fs → Prop} {α : Type} (a : α) : Scoped R .read (rreturn a) :=
  .unlock a

/-- A computation that starts without the lock and takes it, for reading or for writing, only
around parts that run under it. -/
inductive Disciplined (R : Fs → Fs → Prop) : {α : Type} → FsM α → Prop
  | quiet {α : Type} {m : FsM α} : Within R m → Disciplined R m
  | locked {α : Type} {kind : Lock} {m : FsM α} (hk : kind = .read ∨ kind = .write) :
      Scoped R kind m → Disciplined R (fsLock kind >>= fun _ ↦ m)
  | seq {α β : Type} {m : FsM α} {f : α → FsM β} :
      Disciplined R m → (∀ a, Disciplined R (f a)) → Disciplined R (m >>= f)

section disciplined

variable {R : Fs → Fs → Prop} {α : Type}

theorem Disciplined.ite {c : Prop} [Decidable c] {m m' : FsM α} (h : c → Disciplined R m)
    (h' : ¬c → Disciplined R m') : Disciplined R (if c then m else m') := by
  split
  · exact h ‹_›
  · exact h' ‹_›

theorem Disciplined.mono {R' : Fs → Fs → Prop} (hR : ∀ fs fs', R fs fs' → R' fs fs') {m : FsM α}
    (h : Disciplined R m) : Disciplined R' m := by
  induction h with
  | quiet hm => exact .quiet (hm.mono hR)
  | locked hk hm => exact .locked hk (hm.mono hR)
  | seq _ _ ih ih' => exact .seq ih ih'

theorem Disciplined.write {m : FsM α} (h : Scoped R .write m) :
    Disciplined R (fsWlock >>= fun _ ↦ m) :=
  .locked (.inr rfl) h

theorem Disciplined.read {m : FsM α} (h : Scoped R .read m) :
    Disciplined R (fsRlock >>= fun _ ↦ m) :=
  .locked (.inl rfl) h

end disciplined

theorem lockFree_held (fs : Fs) : LockFree (held .free fs) := holds_held .free fs

end locks

/-- What every public operation but a remount does to the free blocks, the keys of the inode
cache and the lock. -/
structure Outside (fs fs' : Fs) : Prop where
  spent : Spent fs.sb fs'.sb
  keys : KeysHashed fs.icache → KeysHashed fs'.icache
  passed : Passed ConsistentVal fs.passed fs'.passed
  lock : LockFree fs'
  size : fs.img.size ≤ fs'.img.size

theorem outside_of {fs fs' : Fs} (h : Inside fs fs') (hf : LockFree fs) : Outside fs fs' :=
  ⟨h.spent, h.keys, h.passed, hf.of_same h.toSameLock, h.size⟩

theorem Disciplined.outside {α : Type} {m : FsM α} (hm : Disciplined Inside m) {fs fs' : Fs} {a : α}
    (hf : LockFree fs) (h : m fs = some (a, fs')) : Outside fs fs' := by
  induction hm generalizing fs fs' with
  | quiet hm => exact outside_of (hm _ _ _ h) hf
  | @locked _ kind m hk hm =>
    rw [bracket_eq hf] at h
    obtain ⟨fs₁, hin, -, rfl⟩ := hm.apply (fun _ _ h ↦ h.toSameLock) (holds_held kind fs) h
    have hs := hin.spent
    have hkeys := hin.keys
    have hpassed := hin.passed
    rw [held_sb] at hs
    rw [held_icache] at hkeys
    rw [held_passed] at hpassed
    have hsize := hin.size
    rw [held_img] at hsize
    exact ⟨by rwa [held_sb], by rwa [held_icache], by rwa [held_passed], lockFree_held fs₁, by rwa [held_img]⟩
  | seq _ _ ih ih' =>
    obtain ⟨b, fs₁, h₁, h₂⟩ := of_bind h
    have ho := ih hf h₁
    have ho' := ih' b ho.lock h₂
    exact ⟨ho.spent.trans ho'.spent, ho'.keys ∘ ho.keys,
      ho.passed.trans ho'.passed, ho'.lock, ho.size.trans ho'.size⟩

variable {P : List UInt8 → Prop} (env : Env)

theorem fetchInode_inside (norm : Path) : Within Inside (fetchInode env norm) := by
  refine .bind .get fun fs ↦ ?_
  split
  · exact .pure _
  · refine .bind (inside_of (inodePagedGet_indexOnly env _)) fun r ↦ ?_
    cases r with
    | error rc => exact .pure _
    | ok n => exact .bind (icachePut_inside env _ _) fun _ ↦ .pure _

theorem xxfsCreate_disciplined (path : Path) (mode uid gid : UInt16) :
    Disciplined Inside (xxfsCreate env path mode uid gid) := by
  refine .write (.step .get fun fs ↦ .ite (fun _ ↦ wreturn_scoped _) fun _ ↦ ?_)
  refine .step (inside_of (pagedInsert_indexOnly env _ (consistentVal_set _))) fun rc ↦ .ite (fun _ ↦ ?_)
    fun _ ↦ wreturn_scoped _
  exact .step (icachePut_inside env _ _) fun _ ↦
    .step (discard_inside (dirAddChild_inside env _ _ _)) fun _ ↦
      .step (.modify fun _ ↦ ⟨⟨rfl, rfl⟩, ⟨le_rfl, rfl, fun _ ↦ rfl⟩, id, Passed.rfl, le_rfl⟩) fun _ ↦ wreturn_scoped _

theorem xxfsMkdir_disciplined (path : Path) (mode uid gid : UInt16) :
    Disciplined Inside (xxfsMkdir env path mode uid gid) := by
  refine .write (.step .get fun fs ↦ .ite (fun _ ↦ wreturn_scoped _) fun _ ↦ ?_)
  refine .step (inside_of (pagedInsert_indexOnly env _ (consistentVal_set _))) fun rc ↦ .ite (fun _ ↦ ?_)
    fun _ ↦ wreturn_scoped _
  exact .step (icachePut_inside env _ _) fun _ ↦
    .step (discard_inside (dirAddChild_inside env _ _ _)) fun _ ↦
      .step (.modify fun _ ↦ ⟨⟨rfl, rfl⟩, ⟨le_rfl, rfl, fun _ ↦ rfl⟩, id, Passed.rfl, le_rfl⟩) fun _ ↦ wreturn_scoped _

theorem removeEntry_inside (norm : Path) : Within Inside (removeEntry env norm) := by
  refine .bind (inside_of (pagedDel_indexOnly env _)) fun rc ↦ .ite (fun _ ↦ ?_) fun _ ↦ .pure _
  exact .bind (icacheDel_inside _) fun _ ↦
    .bind (discard_inside (dirRemoveChild_inside env _ _)) fun _ ↦
      .bind (.modify fun _ ↦ ⟨⟨rfl, rfl⟩, ⟨le_rfl, rfl, fun _ ↦ rfl⟩, id, Passed.rfl, le_rfl⟩) fun _ ↦ .pure _

theorem xxfsUnlink_disciplined (path : Path) : Disciplined Inside (xxfsUnlink env path) := by
  refine .write (.step (fetchInode_inside env _) fun r ↦ ?_)
  cases r with
  | none => exact wreturn_scoped _
  | some n =>
    exact .ite (fun _ ↦ wreturn_scoped _) fun _ ↦ .step (removeEntry_inside env _)
      fun _ ↦ wreturn_scoped _

theorem pdirWrite_indexOnly : Within (IndexOnly P) (pdirWrite env) := by
  have hoff (off : UInt64) : Within (IndexOnly P)
      (FsM.modify fun fs ↦ { fs with sb.sPdirOff := off }) :=
    .modify fun _ ↦ ⟨rfl, rfl, rfl, rfl, rfl, ⟨le_rfl, rfl, fun _ ↦ rfl⟩, rfl, Passed.rfl, le_rfl, le_rfl⟩
  refine .bind .get fun fs ↦ ?_
  have hwrite (off : UInt64) : Within (IndexOnly P) (do
      if off = 0 then return ()
      else
        FsM.modify fun fs ↦ { fs with sb.sPdirOff := off }
        discard (osPwrite env (encodeDir fs.pdir.pageOff) (fs.pdir.pageOff.length * 8) off)
        FsM.modify fun fs' ↦ { fs' with
          sb.sPdirSize := UInt32.ofNat fs.pdir.pageOff.length,
          sb.sPdirDepth := fs.pdir.globalDepth }) := by
    refine .ite (fun _ ↦ .pure _) fun _ ↦ .bind (hoff _) fun _ ↦ ?_
    exact .bind (discard_indexOnly (osPwrite_indexOnly env _ _ _)) fun _ ↦
      .modify fun _ ↦ ⟨rfl, rfl, rfl, rfl, rfl, ⟨le_rfl, rfl, fun _ ↦ rfl⟩, rfl, Passed.rfl, le_rfl, le_rfl⟩
  have hplace (off : UInt64) : Within (IndexOnly P) (do
      if off = 0 then return ()
      else
        FsM.modify fun fs ↦ { fs with sb.sPdirOff := off }
        let off ← if fs.pdir.pageOff.length * 8 > blockSize then pageAllocRaw env else pure off
        if off = 0 then return ()
        else
          FsM.modify fun fs ↦ { fs with sb.sPdirOff := off }
          discard (osPwrite env (encodeDir fs.pdir.pageOff) (fs.pdir.pageOff.length * 8) off)
          FsM.modify fun fs' ↦ { fs' with
            sb.sPdirSize := UInt32.ofNat fs.pdir.pageOff.length,
            sb.sPdirDepth := fs.pdir.globalDepth }) := by
    refine .ite (fun _ ↦ .pure _) fun _ ↦ .bind (hoff _) fun _ ↦ .ite (fun _ ↦ ?_) fun _ ↦ ?_
    · exact .bind (pageAllocRaw_indexOnly env) fun off ↦ hwrite off
    · exact .bind (.pure _) fun off ↦ hwrite off
  refine .ite (fun _ ↦ .pure _) fun _ ↦ .ite (fun _ ↦ ?_) fun _ ↦ ?_
  · exact .bind (pageAllocRaw_indexOnly env) fun off ↦ hplace off
  · exact .bind (.pure _) fun off ↦ hplace off

theorem superWrite_indexOnly : Within (IndexOnly P) (superWrite env) := by
  refine .bind (pdirWrite_indexOnly env) fun _ ↦ .bind (.modify fun fs ↦ ?_) fun _ ↦
    .bind .get fun _ ↦ discard_indexOnly (osPwrite_indexOnly env _ _ _)
  obtain ⟨c, e, -, he⟩ := Checksum.superSetChecksumEcc_eq fs.sb
  rw [he]
  exact .setSb ⟨by simp, by simp, fun _ ↦ by simp⟩ (by simp)

theorem xxfsRmdir_disciplined (path : Path) : Disciplined Inside (xxfsRmdir env path) := by
  refine .ite (fun _ ↦ .quiet (.pure _)) fun _ ↦ .write (.step (fetchInode_inside env _) fun r ↦ ?_)
  cases r with
  | none => exact wreturn_scoped _
  | some n =>
    refine .ite (fun _ ↦ wreturn_scoped _) fun _ ↦ .step (removeEntry_inside env _) fun rc ↦
      .step .get fun fs ↦ .ite (fun _ ↦ ?_) fun _ ↦ wreturn_scoped _
    exact .step (inside_of (superWrite_indexOnly env)) fun _ ↦ wreturn_scoped _

theorem xxfsStat_disciplined (path : Path) : Disciplined Inside (xxfsStat env path) := by
  refine .read (.step .get fun fs ↦ ?_)
  split
  · exact rreturn_scoped _
  · refine .step (inside_of (inodePagedGet_indexOnly env _)) fun r ↦ ?_
    cases r with
    | error rc => exact rreturn_scoped _
    | ok n => exact .step (icachePut_inside env _ _) fun _ ↦ rreturn_scoped _

theorem leaveInline_indexOnly (n : Inode) : Within (IndexOnly P) (leaveInline env n) := by
  refine .ite (fun _ ↦ .bind (pageAlloc_indexOnly env) fun _ ↦ .ite (fun _ ↦ .pure _) fun _ ↦ ?_)
    fun _ ↦ .pure _
  exact .bind (osPwrite_indexOnly env _ _ _) fun _ ↦ .ite (fun _ ↦ .pure _) fun _ ↦ .pure _

theorem copyExtent_indexOnly (src dst blocks : UInt64) :
    Within (IndexOnly P) (copyExtent env src dst blocks) := by
  refine .bind .get fun fs ↦ .bind (osAlloc_indexOnly env) fun _ ↦ .ite (fun _ ↦ ?_)
    fun _ ↦ .pure _
  exact .bind (osPread_indexOnly env _ _ _) fun r ↦ discard_indexOnly (osPwrite_indexOnly env _ _ _)

theorem growExtent_indexOnly (n : Inode) (needBlocks : UInt64) :
    Within (IndexOnly P) (growExtent env n needBlocks) := by
  refine .ite (fun _ ↦ .bind (pageAllocN_indexOnly env _) fun _ ↦ .ite (fun _ ↦ .pure _)
    fun _ ↦ ?_) fun _ ↦ .pure _
  exact .ite (fun _ ↦ .bind (copyExtent_indexOnly env _ _ _) fun _ ↦ .pure _) fun _ ↦ .pure _

theorem xxfsWrite_disciplined (path : Path) (buf : ℕ → UInt8) (off : UInt64) (len : UInt32) :
    Disciplined Inside (xxfsWrite env path buf off len) := by
  refine .ite (fun _ ↦ .quiet (.pure _)) fun _ ↦
    .write (.step (inside_of (currentInode_indexOnly env _)) fun r ↦ ?_)
  cases r with
  | error rc => exact wreturn_scoped _
  | ok n =>
    refine .ite (fun _ ↦ wreturn_scoped _) fun _ ↦ .ite (fun _ ↦
      .step (icachePut_inside env _ _) fun _ ↦ wreturn_scoped _) fun _ ↦
        .step (inside_of (leaveInline_indexOnly env _)) fun r ↦ ?_
    cases r with
    | error rc => exact wreturn_scoped _
    | ok n =>
      refine .step (inside_of (growExtent_indexOnly env _ _)) fun r ↦ ?_
      cases r with
      | error rc => exact wreturn_scoped _
      | ok n =>
        exact .step (inside_of (osPwrite_indexOnly env _ _ _)) fun _ ↦ .ite
          (fun _ ↦ .step (icachePut_inside env _ _) fun _ ↦ wreturn_scoped _)
          fun _ ↦ wreturn_scoped _

theorem xxfsRead_disciplined (path : Path) (buf : ℕ → UInt8) (off : UInt64) (len : UInt32) :
    Disciplined Inside (xxfsRead env path buf off len) := by
  refine .ite (fun _ ↦ .quiet (.pure _)) fun _ ↦ .read (.step (fetchInode_inside env _) fun r ↦ ?_)
  cases r with
  | none => exact rreturn_scoped _
  | some n =>
    refine .ite (fun _ ↦ rreturn_scoped _) fun _ ↦ .ite (fun _ ↦ rreturn_scoped _) fun _ ↦
      .ite (fun _ ↦ .step (inside_of (osPread_indexOnly env _ _ _)) fun r ↦ ?_)
        fun _ ↦ rreturn_scoped _
    cases r <;> exact rreturn_scoped _

theorem setAttr_disciplined (set : Inode → Inode) (path : Path) :
    Disciplined Inside (setAttr env set path) := by
  refine .write (.step (inside_of (inodePagedGet_indexOnly env _)) fun r ↦ ?_)
  cases r with
  | error rc => exact wreturn_scoped _
  | ok n =>
    exact .step (inside_of (osTime_indexOnly env)) fun _ ↦
      .step (inside_of (pagedPut_indexOnly env _ (consistentVal_set _))) fun _ ↦ .ite
        (fun _ ↦ .step (icachePut_inside env _ _) fun _ ↦ wreturn_scoped _)
        fun _ ↦ wreturn_scoped _

theorem xxfsRename_disciplined (old new : Path) : Disciplined Inside (xxfsRename env old new) := by
  refine .write (.step (inside_of (inodePagedGet_indexOnly env _)) fun r ↦ ?_)
  cases r with
  | error rc => exact wreturn_scoped _
  | ok n =>
    refine .step (inside_of (osTime_indexOnly env)) fun _ ↦
      .step (discard_inside (inside_of (pagedDel_indexOnly env _))) fun _ ↦
        .step (icacheDel_inside _) fun _ ↦
          .step (inside_of (pagedPut_indexOnly env _ (consistentVal_set _))) fun _ ↦ .ite
            (fun _ ↦ .step (icachePut_inside env _ _) fun _ ↦ wreturn_scoped _) fun _ ↦ ?_
    exact .step (discard_inside (inside_of (pagedPut_indexOnly env _ (consistentVal_set _)))) fun _ ↦
      .step (icachePut_inside env _ _) fun _ ↦ wreturn_scoped _

theorem xxfsSymlink_disciplined (target linkpath : Path) :
    Disciplined Inside (xxfsSymlink env target linkpath) := by
  refine .ite (fun _ ↦ .quiet (.pure _)) fun _ ↦
    .write (.step (fetchInode_inside env _) fun r ↦ ?_)
  cases r with
  | some n => exact wreturn_scoped _
  | none =>
    exact .step (inside_of (osTime_indexOnly env)) fun _ ↦
      .step (inside_of (pagedPut_indexOnly env _ (consistentVal_set _))) fun _ ↦ .ite
        (fun _ ↦ .step (icachePut_inside env _ _) fun _ ↦ wreturn_scoped _)
        fun _ ↦ wreturn_scoped _

theorem xxfsReadlink_disciplined (path : Path) (buf : ℕ → UInt8) (len : UInt32) :
    Disciplined Inside (xxfsReadlink env path buf len) := by
  refine .seq (xxfsStat_disciplined env _) fun r ↦ ?_
  cases r with
  | error rc => exact .quiet (.pure _)
  | ok n => exact .ite (fun _ ↦ .quiet (.pure _)) fun _ ↦ .quiet (.pure _)

theorem xxfsSync_disciplined : Disciplined Inside (xxfsSync env) :=
  .write (.step (icacheFlushAll_inside env) fun _ ↦ .step (dcacheFlushAll_inside env) fun _ ↦
    .step (inside_of (pcacheFlushAll_indexOnly env)) fun _ ↦
      .step (inside_of (superWrite_indexOnly env)) fun _ ↦
        .step (discard_inside (inside_of tick_indexOnly)) fun _ ↦ wreturn_scoped _)

theorem xxfsUmount_disciplined : Disciplined Inside (xxfsUmount env) :=
  .write (.step (dcacheFlushAll_inside env) fun _ ↦
    .step (inside_of (pcacheFlushAll_indexOnly env)) fun _ ↦
      .step (inside_of (superWrite_indexOnly env)) fun _ ↦
        .step (discard_inside (inside_of tick_indexOnly)) fun _ ↦ wreturn_scoped ())

theorem xxfsOpen_disciplined (path : Path) (flags : UInt32) :
    Disciplined Inside (xxfsOpen env path flags) := by
  refine .read (.step (inside_of (currentInode_indexOnly env _)) fun r ↦ ?_)
  cases r with
  | error rc => exact rreturn_scoped _
  | ok n =>
    exact .ite (fun _ ↦ rreturn_scoped _) fun _ ↦ .step (inside_of (osAlloc_indexOnly env))
      fun _ ↦ .ite (fun _ ↦ rreturn_scoped _) fun _ ↦ rreturn_scoped _

theorem sameLock_of {α : Type} {m : FsM α} (h : Within Inside m) : Within SameLock m :=
  h.mono fun _ _ h ↦ h.toSameLock

theorem xxfsClose_disciplined (fp : File) : Disciplined SameLock (xxfsClose env fp) := by
  refine .write (.step .get fun fs ↦ ?_)
  split
  · exact wreturn_scoped _
  · split
    · exact wreturn_scoped _
    · exact .step (sameLock_of (inside_of (osTime_indexOnly env))) fun _ ↦
        .step (.modify fun _ ↦ ⟨rfl, rfl⟩) fun _ ↦
          .step (sameLock_of (discard_inside (inside_of (pagedPut_indexOnly env _ (consistentVal_set _)))))
            fun _ ↦ wreturn_scoped _

/-- The inode that closing a handle makes of a cached one. -/
def closedInode (fp : File) (n : Inode) (now : UInt64) : Inode :=
  writebackInode { n with iSize := fp.size, iBlocks := fp.blocks } now

theorem consistentVal_closed (fp : File) (n : Inode) (now : UInt64) :
    ConsistentVal (inodeToVal (closedInode fp n now)) := by
  rw [closedInode, writebackInode]
  exact consistentVal_set _

/-- The cache after `xxfs_close` has changed its entry. -/
def closeEntry (c : Icache) (idx : ℕ) (e : IcacheEntry) (n : Inode) : Icache :=
  { c with slots := Lib.ProbeTable.store c.slots idx (some { e with inode := n }) }

/-- Closing does nothing unless the hash is cached; then it changes the entry and stores it. -/
theorem xxfsClose_cases {fp : File} {fs fs' : Fs} {rc : Rc} (hf : LockFree fs)
    (h : xxfsClose env fp fs = some (rc, fs')) : rc = .ok ∧
      ((icacheInode fs.icache fp.hash = none ∧ fs' = fs) ∨
        ∃ idx e rc₁ fs₁, icacheLookup fs.icache fp.hash = some idx ∧
          fs.icache.slots idx = some e ∧
          pagedPut env fp.path (inodeToVal (closedInode fp e.inode (env.time fs.clock)))
            { held .write fs with
              icache := closeEntry fs.icache idx e (closedInode fp e.inode (env.time fs.clock))
              clock := fs.clock + 1 } = some (rc₁, fs₁) ∧ fs' = held .free fs₁) := by
  rw [xxfsClose, fsWlock, bracket_eq hf, bind_apply] at h
  simp only [get_apply, Option.bind_some, held_icache] at h
  cases hl : icacheLookup fs.icache fp.hash with
  | none =>
    simp only [hl, wreturn, fsWunlock, unlock_bracket hf] at h
    obtain ⟨rfl, rfl⟩ := Prod.mk.inj (Option.some.inj h)
    exact ⟨rfl, .inl ⟨by rw [icacheInode, hl, Option.bind_none], rfl⟩⟩
  | some idx =>
    cases he : fs.icache.slots idx with
    | none =>
      simp only [hl, he, wreturn, fsWunlock, unlock_bracket hf] at h
      obtain ⟨rfl, rfl⟩ := Prod.mk.inj (Option.some.inj h)
      exact ⟨rfl, .inl ⟨by rw [icacheInode, hl, Option.bind_some, he, Option.map_none], rfl⟩⟩
    | some e =>
      simp only [hl, he] at h
      obtain ⟨now, fs₁, h₁, h⟩ := of_bind h
      obtain ⟨rfl, rfl⟩ := Prod.mk.inj (Option.some.inj h₁)
      obtain ⟨u, fs₂, h₂, h⟩ := of_bind h
      obtain ⟨-, rfl⟩ := Prod.mk.inj (Option.some.inj h₂)
      obtain ⟨u, fs₃, h₃, h⟩ := of_bind h
      obtain ⟨rc₁, fs₄, hput, h₃⟩ := of_bind h₃
      obtain ⟨-, rfl⟩ := Prod.mk.inj (Option.some.inj h₃)
      have hs := pagedPut_indexOnly env _ (consistentVal_set _) _ _ _ hput
      have hheld : Holds .write fs₄ := (holds_held .write fs).of_same ⟨hs.lock, hs.flags⟩
      simp only [wreturn, fsWunlock, unlock_apply hheld] at h
      obtain ⟨rfl, rfl⟩ := Prod.mk.inj (Option.some.inj h)
      refine ⟨rfl, .inr ⟨idx, e, rc₁, fs₄, rfl, he, ?_, rfl⟩⟩
      rw [← hput]
      simp only [held_icache, held_clock, closedInode, closeEntry]

theorem xxfsClose_outside (fp : File) {fs fs' : Fs} {rc : Rc} (hf : LockFree fs)
    (h : xxfsClose env fp fs = some (rc, fs')) : Outside fs fs' := by
  obtain ⟨-, ⟨-, rfl⟩ | ⟨idx, e, rc₁, fs₁, -, he, hput, rfl⟩⟩ := xxfsClose_cases env hf h
  · exact ⟨Spent.rfl, id, Passed.rfl, hf, le_rfl⟩
  · have hs := pagedPut_indexOnly env _ (consistentVal_closed fp e.inode _) _ _ _ hput
    refine ⟨?_, fun hk ↦ ?_, ?_, lockFree_held fs₁, ?_⟩
    · rw [held_sb]
      have hsp := hs.spent
      rwa [held_sb] at hsp
    · have hk' : KeysHashed (closeEntry fs.icache idx e (closedInode fp e.inode (env.time fs.clock))) :=
        hk.store rfl fun k hkey ↦ hk idx e k he hkey
      rwa [held_icache, hs.icache]
    · have hp := hs.passed
      rw [held_passed] at hp
      rwa [held_passed]
    · have hsize := hs.size
      rw [held_img] at hsize
      rwa [held_img]

theorem xxfsReadFd_disciplined (fp : File) (buf : ℕ → UInt8) (count off : UInt64) :
    Disciplined Inside (xxfsReadFd env fp buf count off) := by
  refine .ite (fun _ ↦ .quiet (.pure _)) fun _ ↦ .ite (fun _ ↦ .quiet (.pure _)) fun _ ↦
    .seq (.quiet (inside_of (osPread_indexOnly env _ _ _))) fun r ↦ ?_
  cases r <;> exact .quiet (.pure _)

theorem growHandle_disciplined (fp : File) (endOff : UInt64) :
    Disciplined Inside (growHandle env fp endOff) := by
  refine .ite (fun _ ↦ ?_) fun _ ↦ .ite (fun _ ↦ ?_) fun _ ↦ .quiet (.pure _)
  · exact .write (.step (inside_of (pageAllocN_indexOnly env _)) fun _ ↦ .ite
      (fun _ ↦ wreturn_scoped _) fun _ ↦ wreturn_scoped _)
  · refine .write (.step (inside_of (pageAllocN_indexOnly env _)) fun _ ↦ .ite
      (fun _ ↦ wreturn_scoped _) fun _ ↦ .ite (fun _ ↦ ?_) fun _ ↦ wreturn_scoped _)
    exact .step (inside_of (copyExtent_indexOnly env _ _ _)) fun _ ↦ wreturn_scoped _

theorem xxfsWriteFd_disciplined (fp : File) (buf : ℕ → UInt8) (count off : UInt64) :
    Disciplined Inside (xxfsWriteFd env fp buf count off) := by
  refine .ite (fun _ ↦ .quiet (.pure _)) fun _ ↦ .seq (growHandle_disciplined env _ _) fun r ↦ ?_
  cases r with
  | error rc => exact .quiet (.pure _)
  | ok fp =>
    exact .seq (.quiet (inside_of (osPwrite_indexOnly env _ _ _))) fun _ ↦
      .ite (fun _ ↦ .quiet (.pure _)) fun _ ↦ .quiet (.pure _)

theorem xxfsReaddir_disciplined (path : Path) : Disciplined Inside (xxfsReaddir env path) := by
  refine .read (.step .get fun fs ↦ ?_)
  split
  · exact .ite (fun _ ↦ rreturn_scoped _) fun _ ↦ .step (inside_of (osAlloc_indexOnly env))
      fun _ ↦ .ite (fun _ ↦ rreturn_scoped _) fun _ ↦ rreturn_scoped _
  · refine .step (inside_of (inodePagedGet_indexOnly env _)) fun r ↦ ?_
    cases r with
    | error rc => exact rreturn_scoped _
    | ok n =>
      refine .ite (fun _ ↦ rreturn_scoped _) fun _ ↦ .ite (fun _ ↦ rreturn_scoped _) fun _ ↦
        .step .get fun _ ↦ .step (inside_of (osAlloc_indexOnly env)) fun _ ↦ .ite
          (fun _ ↦ .step (inside_of (osPread_indexOnly env _ _ _)) fun r ↦ ?_)
          fun _ ↦ rreturn_scoped _
      cases r <;> exact rreturn_scoped _

end Xxfs.OperationFrames

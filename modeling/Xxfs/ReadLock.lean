import Xxfs.ExclusiveCreate

namespace Xxfs.ReadLock

open Xxfs.DiskFormat Xxfs.Machine Xxfs.PageCache Xxfs.PagedIndex Xxfs.InodeCache Xxfs.DirCache
open Xxfs.Volume Xxfs.Operations Xxfs.Runs Xxfs.PathName Xxfs.Hash Xxfs.OperationFrames Xxfs.Reach
open Xxfs.ExclusiveCreate Xxfs.FreshVolume Xxfs.Lib.Computation Xxfs.Lib.Computation.Comp

/-- What the clients of a mount share stays as it is. -/
structure SameShared (fs fs' : Fs) : Prop where
  sb : fs'.sb = fs.sb
  icache : fs'.icache = fs.icache
  pcache : fs'.pcache = fs.pcache
  dcache : fs'.dcache = fs.dcache
  pdir : fs'.pdir = fs.pdir
  img : fs'.img = fs.img

instance : Std.Refl SameShared where
  refl _ := ⟨rfl, rfl, rfl, rfl, rfl, rfl⟩

instance : IsTrans Fs SameShared where
  trans _ _ _ h h' := ⟨h'.sb.trans h.sb, h'.icache.trans h.icache, h'.pcache.trans h.pcache,
    h'.dcache.trans h.dcache, h'.pdir.trans h.pdir, h'.img.trans h.img⟩

theorem sameShared_held (kind : Lock) (fs : Fs) : SameShared fs (held kind fs) :=
  ⟨held_sb _ _, held_icache _ _, held_pcache _ _, held_dcache _ _, held_pdir _ _, held_img _ _⟩

def Untouched {α : Type} (m : FsM α) (fs : Fs) : Prop :=
  ∀ a fs', m fs = some (a, fs') → SameShared fs fs'

/-- From `off` on, every page of the chain is in the page cache and satisfies `Q`. -/
inductive Warm (fs : Fs) (Q : PagedPage → Prop) : UInt64 → Prop
  | done : Warm fs Q 0
  | page {off : UInt64} {pg : PagedPage} : (fs.pcache (pcIndex off)).page = some pg →
      (fs.pcache (pcIndex off)).pageOff = off → Q pg → Warm fs Q pg.overflowNext → Warm fs Q off

/-- The pages of the key's bucket, if it has any, are in the page cache and satisfy `Q`. -/
def WarmBucket (fs : Fs) (key : Path) (Q : PagedPage → Prop) : Prop :=
  hasBucket fs (dirIndex (xxh64 key) fs.pdir.globalDepth) = true →
    Warm fs Q (fs.pdir.pageOff.getD (dirIndex (xxh64 key) fs.pdir.globalDepth) 0)

/-- The index can be searched for the key without loading a page. -/
def Resident (key : Path) (fs : Fs) : Prop := WarmBucket fs key fun _ ↦ True

/-- Such a search meets no slot that could be the key's. -/
def KnownAbsent (key : Path) (fs : Fs) : Prop :=
  WarmBucket fs key fun pg ↦ findSlot pg (xxh64 key) key = none

section search

variable (env : Env)

theorem osAlloc_sameShared : Within SameShared (osAlloc env) :=
  .bind (.bind .get fun _ ↦ .bind (.modify fun _ ↦ ⟨rfl, rfl, rfl, rfl, rfl, rfl⟩) fun _ ↦ .pure _)
    fun _ ↦ .pure _

theorem osPread_sameShared (buf : ℕ → UInt8) (len : ℕ) (off : UInt64) :
    Within SameShared (osPread env buf len off) :=
  .bind (.bind .get fun _ ↦ .bind (.modify fun _ ↦ ⟨rfl, rfl, rfl, rfl, rfl, rfl⟩) fun _ ↦ .pure _)
    fun _ ↦ .bind .get fun _ ↦ .ite (fun _ ↦ .pure _) fun _ ↦ .pure _

theorem recBuffer_sameShared (len : ℕ) : Within SameShared (recBuffer env len) :=
  .bind .get fun _ ↦ .ite (fun _ ↦ .pure _) fun _ ↦ .bind (osAlloc_sameShared env)
    fun _ ↦ .ite (fun _ ↦ .pure _) fun _ ↦ .pure _

theorem getSlot_sameShared (pg : PagedPage) (h : UInt64) (key : Path) (cap i : ℕ) :
    Within SameShared (getSlot env pg h key cap i) := by
  refine .ite (fun _ ↦ .pure _) fun _ ↦ .ite (fun _ ↦ ?_) fun _ ↦
    .bind (recBuffer_sameShared env _) fun r ↦ ?_
  · exact .ite (fun _ ↦ .pure _) fun _ ↦ .ite (fun _ ↦ .pure _) fun _ ↦ .pure _
  · cases r with
    | none => exact .pure _
    | some buf =>
      refine .bind (osPread_sameShared env _ _ _) fun r ↦ ?_
      cases r with
      | none => exact .pure _
      | some p => exact .ite (fun _ ↦ .pure _) fun _ ↦ .ite (fun _ ↦ .pure _) fun _ ↦ .pure _

theorem getScan_sameShared (pg : PagedPage) (h : UInt64) (key : Path) (cap : ℕ) (l : List ℕ) :
    Within SameShared (getScan env pg h key cap l) := by
  induction l with
  | nil => exact .pure _
  | cons i rest ih =>
    refine .bind (getSlot_sameShared env _ _ _ _ _) fun r ↦ ?_
    cases r with
    | none => exact ih
    | some _ => exact .pure _

theorem getScan_absent {pg : PagedPage} {h : UInt64} {key : Path} (cap : ℕ) (l : List ℕ)
    (hl : ∀ i ∈ l, slotMatches (pg.slot i) h key = false) (fs : Fs) :
    getScan env pg h key cap l fs = some (none, fs) := by
  induction l with
  | nil => rfl
  | cons i rest ih =>
    have hi := hl i List.mem_cons_self
    rw [getScan, bind_apply, getSlot]
    simp only [hi, ↓reduceIte, pure_apply, Option.bind_some]
    exact ih fun j hj ↦ hl j (List.mem_cons_of_mem _ hj)

theorem pageLoad_warm {fs : Fs} {off : UInt64} {pg : PagedPage}
    (hp : (fs.pcache (pcIndex off)).page = some pg)
    (ho : (fs.pcache (pcIndex off)).pageOff = off) : pageLoad env off fs = some (some pg, fs) := by
  simp only [pageLoad, bind_apply, get_apply, Option.bind_some, hp, ho, ↓reduceIte, pure_apply]

theorem getWalk_warm {h : UInt64} {key : Path} {cap : ℕ} {Q : PagedPage → Prop} {fs₀ : Fs}
    {off : UInt64} (hw : Warm fs₀ Q off) (n : ℕ) {fs fs' : Fs} (hs : SameShared fs₀ fs)
    {r : Except Rc (List UInt8)} (hr : getWalk env h key cap n off fs = some (r, fs')) :
    SameShared fs₀ fs' ∧ ((∀ pg, Q pg → findSlot pg h key = none) → r = .error .enoent) := by
  induction hw generalizing n fs with
  | done =>
    cases n with
    | zero => cases hr
    | succ n =>
      obtain ⟨rfl, rfl⟩ := Prod.mk.inj (Option.some.inj hr)
      exact ⟨hs, fun _ ↦ rfl⟩
  | @page off pg hp ho hq _ ih =>
    cases n with
    | zero => cases hr
    | succ n =>
      rw [getWalk] at hr
      simp only [if_apply] at hr
      split at hr
      · obtain ⟨rfl, rfl⟩ := Prod.mk.inj (Option.some.inj hr)
        exact ⟨hs, fun _ ↦ rfl⟩
      · rw [bind_apply, pageLoad_warm env (by rw [hs.pcache]; exact hp)
          (by rw [hs.pcache]; exact ho), Option.bind_some] at hr
        obtain ⟨a, fs₁, h₁, h₂⟩ := of_bind hr
        have hs₁ := trans_of SameShared hs (getScan_sameShared env _ _ _ _ _ _ _ _ h₁)
        cases a with
        | some r' =>
          obtain ⟨rfl, rfl⟩ := Prod.mk.inj (Option.some.inj h₂)
          refine ⟨hs₁, fun hQ ↦ ?_⟩
          have hnone := List.find?_eq_none.mp (hQ pg hq)
          rw [getScan_absent env cap _ (fun i hi ↦ by simpa using hnone i hi)] at h₁
          cases h₁
        | none => exact ih n hs₁ h₂

theorem inodePagedGet_warm {key : Path} {Q : PagedPage → Prop} {fs₀ fs fs' : Fs}
    (hw : WarmBucket fs₀ key Q) (hs : SameShared fs₀ fs) {r : Except Rc Inode}
    (hr : inodePagedGet env key fs = some (r, fs')) : SameShared fs₀ fs' ∧
      ((∀ pg, Q pg → findSlot pg (xxh64 key) key = none) → r = .error .enoent) := by
  obtain ⟨v, fs₁, h₁, h₂⟩ := of_bind hr
  have hget : SameShared fs₀ fs₁ ∧
      ((∀ pg, Q pg → findSlot pg (xxh64 key) key = none) → v = .error .enoent) := by
    simp only [pagedGet, bind_apply, get_apply, Option.bind_some, if_apply, hs.pdir] at h₁
    split at h₁
    · rename_i hb
      refine getWalk_warm env (hw ?_) _ hs h₁
      rw [hasBucket, hs.pdir] at hb
      exact hb
    · obtain ⟨rfl, rfl⟩ := Prod.mk.inj (Option.some.inj h₁)
      exact ⟨hs, fun _ ↦ rfl⟩
  cases v with
  | error rc =>
    obtain ⟨rfl, rfl⟩ := Prod.mk.inj (Option.some.inj h₂)
    refine ⟨hget.1, fun hQ ↦ ?_⟩
    obtain rfl := Except.error.inj (hget.2 hQ)
    rfl
  | ok val =>
    obtain ⟨-, rfl⟩ := Prod.mk.inj (Option.some.inj h₂)
    refine ⟨hget.1, fun hQ ↦ ?_⟩
    cases hget.2 hQ

end search

section operations

variable {env : Env} {fs : Fs} {path : Path}

theorem rreturn_sameShared {α : Type} (a : α) : Within SameShared (rreturn a) := by
  refine .bind (.modify fun fs ↦ ?_) fun _ ↦ .pure _
  split
  · exact refl_of SameShared fs
  · exact ⟨rfl, rfl, rfl, rfl, rfl, rfl⟩

theorem fetchInode_untouched (hc : Cached path fs ∨ KnownAbsent (pathNormalize path) fs) {fs₁ fs₂ : Fs}
    (hs : SameShared fs fs₁) {r : Option Inode}
    (h : fetchInode env (pathNormalize path) fs₁ = some (r, fs₂)) : SameShared fs fs₂ := by
  simp only [fetchInode, bind_apply, get_apply, Option.bind_some, hs.icache] at h
  cases hi : icacheInode fs.icache (xxh64 (pathNormalize path)) with
  | some n =>
    simp only [hi] at h
    obtain ⟨-, rfl⟩ := Prod.mk.inj (Option.some.inj h)
    exact hs
  | none =>
    simp only [hi] at h
    have ha : KnownAbsent (pathNormalize path) fs := by
      refine hc.resolve_left fun hc ↦ ?_
      obtain ⟨n, hn⟩ := icacheInode_some hc
      rw [hn] at hi
      cases hi
    obtain ⟨v, fs₃, h₁, h₂⟩ := of_bind h
    obtain ⟨hs₃, hv⟩ := inodePagedGet_warm env ha hs h₁
    rw [hv fun _ hq ↦ hq] at h₂
    obtain ⟨-, rfl⟩ := Prod.mk.inj (Option.some.inj h₂)
    exact hs₃

theorem xxfsRead_untouched (hf : LockFree fs)
    (hc : Cached path fs ∨ KnownAbsent (pathNormalize path) fs) (buf : ℕ → UInt8) (off : UInt64)
    (len : UInt32) : Untouched (xxfsRead env path buf off len) fs := by
  intro a fs' h
  rw [xxfsRead] at h
  simp only [if_apply] at h
  split at h
  · obtain ⟨-, rfl⟩ := Prod.mk.inj (Option.some.inj h)
    exact refl_of SameShared fs
  · rw [fsRlock, bracket_eq hf] at h
    obtain ⟨r, fs₁, h₁, h₂⟩ := of_bind h
    have hs := fetchInode_untouched hc (sameShared_held .read fs) h₁
    refine trans_of SameShared hs ?_
    cases r with
    | none => exact rreturn_sameShared _ _ _ _ h₂
    | some n =>
      refine Within.ite (R := SameShared) (fun _ ↦ rreturn_sameShared _) (fun _ ↦
        .ite (fun _ ↦ rreturn_sameShared _) fun _ ↦ .ite (fun _ ↦ .bind (osPread_sameShared env _ _ _)
          fun r ↦ ?_) fun _ ↦ rreturn_sameShared _) _ _ _ h₂
      cases r <;> exact rreturn_sameShared _

theorem xxfsStat_untouched (hf : LockFree fs)
    (hc : Cached path fs ∨ KnownAbsent (pathNormalize path) fs) :
    Untouched (xxfsStat env path) fs := by
  intro a fs' h
  rw [xxfsStat, fsRlock, bracket_eq hf, bind_apply] at h
  simp only [get_apply, Option.bind_some, held_icache] at h
  cases hi : icacheInode fs.icache (xxh64 (pathNormalize path)) with
  | some n =>
    simp only [hi] at h
    exact trans_of SameShared (sameShared_held .read fs) (rreturn_sameShared _ _ _ _ h)
  | none =>
    simp only [hi] at h
    have ha : KnownAbsent (pathNormalize path) fs := by
      refine hc.resolve_left fun hc ↦ ?_
      obtain ⟨n, hn⟩ := icacheInode_some hc
      rw [hn] at hi
      cases hi
    obtain ⟨v, fs₃, h₁, h₂⟩ := of_bind h
    obtain ⟨hs₃, hv⟩ := inodePagedGet_warm env ha (sameShared_held .read fs) h₁
    rw [hv fun _ hq ↦ hq] at h₂
    exact trans_of SameShared hs₃ (rreturn_sameShared _ _ _ _ h₂)

theorem xxfsOpen_untouched (hf : LockFree fs)
    (hc : Cached path fs ∨ Resident (pathNormalize path) fs) (flags : UInt32) :
    Untouched (xxfsOpen env path flags) fs := by
  intro a fs' h
  rw [xxfsOpen, fsRlock, bracket_eq hf] at h
  obtain ⟨r, fs₁, h₁, h₂⟩ := of_bind h
  have hs : SameShared fs fs₁ := by
    simp only [currentInode, bind_apply, get_apply, Option.bind_some, held_icache] at h₁
    cases hi : icacheInode fs.icache (xxh64 (pathNormalize path)) with
    | some n =>
      simp only [hi] at h₁
      obtain ⟨-, rfl⟩ := Prod.mk.inj (Option.some.inj h₁)
      exact sameShared_held .read fs
    | none =>
      simp only [hi] at h₁
      refine (inodePagedGet_warm env (hc.resolve_left fun hc ↦ ?_) (sameShared_held .read fs) h₁).1
      obtain ⟨n, hn⟩ := icacheInode_some hc
      rw [hn] at hi
      cases hi
  refine trans_of SameShared hs ?_
  cases r with
  | error rc => exact rreturn_sameShared _ _ _ _ h₂
  | ok n =>
    exact Within.ite (R := SameShared) (fun _ ↦ rreturn_sameShared _) (fun _ ↦
      .bind (osAlloc_sameShared env) fun _ ↦ .ite (fun _ ↦ rreturn_sameShared _)
        fun _ ↦ rreturn_sameShared _) _ _ _ h₂

theorem xxfsReaddir_untouched (hf : LockFree fs)
    (hc : (dcacheFind fs (pathNormalize path)).isSome ∨ Resident (pathNormalize path) fs) :
    Untouched (xxfsReaddir env path) fs := by
  intro a fs' h
  rw [xxfsReaddir, fsRlock, bracket_eq hf, bind_apply] at h
  have hfind : dcacheFind (held .read fs) (pathNormalize path) =
      dcacheFind fs (pathNormalize path) := by
    rw [dcacheFind, dcacheFind, held_dcache]
  simp only [get_apply, Option.bind_some, hfind] at h
  cases hd : dcacheFind fs (pathNormalize path) with
  | some e =>
    simp only [hd] at h
    refine trans_of SameShared (sameShared_held .read fs) ?_
    exact Within.ite (R := SameShared) (fun _ ↦ rreturn_sameShared _) (fun _ ↦
      .bind (osAlloc_sameShared env) fun _ ↦ .ite (fun _ ↦ rreturn_sameShared _)
        fun _ ↦ rreturn_sameShared _) _ _ _ h
  | none =>
    simp only [hd] at h
    have hres : Resident (pathNormalize path) fs := by
      refine hc.resolve_left fun hc ↦ ?_
      rw [hd] at hc
      cases hc
    obtain ⟨r, fs₁, h₁, h₂⟩ := of_bind h
    have hs := (inodePagedGet_warm env hres (sameShared_held .read fs) h₁).1
    refine trans_of SameShared hs ?_
    cases r with
    | error rc => exact rreturn_sameShared _ _ _ _ h₂
    | ok n =>
      refine Within.ite (R := SameShared) (fun _ ↦ rreturn_sameShared _) (fun _ ↦
        .ite (fun _ ↦ rreturn_sameShared _) fun _ ↦ .bind .get fun _ ↦
          .bind (osAlloc_sameShared env) fun _ ↦ .ite (fun _ ↦
            .bind (osPread_sameShared env _ _ _) fun r ↦ ?_) fun _ ↦ rreturn_sameShared _) _ _ _ h₂
      cases r <;> exact rreturn_sameShared _

/-- The calls that take the lock for reading leave the shared state alone if they find what
they look for in a cache: the inode, or for a path that does not exist or whose inode they do
not put into the cache, the pages of the index. -/
theorem shared_untouched (hr : Reachable env fs) (path : Path) :
    (Cached path fs ∨ KnownAbsent (pathNormalize path) fs →
      Untouched (xxfsStat env path) fs ∧
      ∀ buf off len, Untouched (xxfsRead env path buf off len) fs) ∧
    ((dcacheFind fs (pathNormalize path)).isSome ∨ Resident (pathNormalize path) fs →
      Untouched (xxfsReaddir env path) fs) ∧
    (Cached path fs ∨ Resident (pathNormalize path) fs →
      ∀ flags, Untouched (xxfsOpen env path flags) fs) := by
  have hf := (reachable_orderly env hr).lock
  exact ⟨fun hc ↦ ⟨xxfsStat_untouched hf hc, fun buf off len ↦ xxfsRead_untouched hf hc buf off len⟩,
    fun hc ↦ xxfsReaddir_untouched hf hc, fun hc flags ↦ xxfsOpen_untouched hf hc flags⟩

/-- The root of a fresh mount is cached after a first `xxfs_stat`, and a second one then
changes nothing. -/
theorem shared_untouched_root : ∃ fs, Reachable steady fs ∧ Cached rootPath fs ∧
    Untouched (xxfsStat steady rootPath) fs := by
  obtain ⟨n, k, fs, hstat, hc⟩ := fresh_stat_root
  have hexec : exec steady (.stat rootPath) (freshFs steady 1 0) = some ((), fs) := by
    rw [exec, discard_apply, hstat, Option.bind_some]
  have hr : Reachable steady fs := .step (.fresh (fresh_apply steady_healthy goodSize_one 0)) hexec
  have hcached : Cached rootPath fs := by
    have hi := oneEntry_inode ⟨xxh64 rootPath, true, k, n⟩
    rw [← hc] at hi
    rw [Cached, show pathNormalize rootPath = rootPath from by decide]
    by_contra hno
    rw [icacheInode, Option.not_isSome_iff_eq_none.mp hno] at hi
    cases hi
  exact ⟨fs, hr, hcached, ((shared_untouched hr rootPath).1 (.inl hcached)).1⟩

/-- The first one puts an entry into the inode cache. -/
theorem fresh_stat_touches : ¬∀ (env : Env) (fs : Fs) (path : Path), Healthy env →
    Reachable env fs → Untouched (xxfsStat env path) fs := by
  intro hall
  obtain ⟨n, k, fs', hstat, hc⟩ := fresh_stat_root
  have hs := hall steady _ rootPath steady_healthy
    (.fresh (fresh_apply steady_healthy goodSize_one 0)) _ _ hstat
  have hcount : fs'.icache.count = 0 := by rw [hs.icache]; rfl
  rw [hc] at hcount
  exact absurd hcount Nat.one_ne_zero

end operations

end Xxfs.ReadLock

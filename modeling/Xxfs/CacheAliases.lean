import Xxfs.CachePuts
import Xxfs.ExclusiveCreate
import Xxfs.NamespaceRuns

namespace Xxfs.CacheAliases

open Function
open Xxfs.DiskFormat Xxfs.Machine Xxfs.PagedIndex Xxfs.InodeCache Xxfs.DirCache Xxfs.Volume
open Xxfs.Operations Xxfs.Runs Xxfs.Hash Xxfs.PathName Xxfs.Frames Xxfs.CacheKeys Xxfs.CacheMap
open Xxfs.CacheProbes Xxfs.ExclusiveCreate Xxfs.IndexState Xxfs.OperationFrames Xxfs.Reach
open Xxfs.FreshVolume Xxfs.FreshIndex Xxfs.NamespaceRuns Xxfs.Soundness
open Xxfs.Lib.Computation Xxfs.Lib.Computation.Comp Xxfs.Lib.ProbeTable

/-- The cached inodes that were stored for a path, and whether they are dirty. -/
def storedFor (c : Icache) (p : Path) : Set (Inode × Bool) :=
  { x | ∃ i e, c.slots i = some e ∧ e.key = some p ∧ (e.inode, e.dirty) = x }

/-- The inode `n` of `q` comes from an entry that was not stored for `p`, or from the index. -/
def Source (env : Env) (fs : Fs) (p q : Path) (n : Inode) : Prop :=
  (∃ i e, icacheLookup fs.icache (xxh64 q) = some i ∧ fs.icache.slots i = some e ∧
    e.key ≠ some p ∧ e.inode = n) ∨
  icacheLookup fs.icache (xxh64 q) = none ∧ ∃ l fs',
    inodePagedGet env q { fs with lock := l } = some (.ok n, fs')

/-- The operations whose use of the inode cache is at stake. -/
def Uses (q : Path) : Op → Prop
  | .stat path | .read path _ _ _ | .write path _ _ _ => pathNormalize path = q
  | _ => False

/-- `xxfs_stat`, `xxfs_read` and `xxfs_write` of `q` start from an inode that was not stored for
`p`, they change none that was, and they store nothing in the index; and `xxfs_create` of `q` is
not refused because of `p`. -/
structure Unaliased (env : Env) (fs : Fs) (p q : Path) : Prop where
  stat : ∀ path n fs', pathNormalize path = q → xxfsStat env path fs = some (.ok n, fs') →
    Source env fs p q n
  fetched : ∀ fs₁ n fs₂, fs₁.icache = fs.icache → fetchInode env q fs₁ = some (some n, fs₂) →
    Source env fs₁ p q n
  current : ∀ fs₁ n fs₂, fs₁.icache = fs.icache → currentInode env q fs₁ = some (.ok n, fs₂) →
    Source env fs₁ p q n
  kept : ∀ op fs', Uses q op → exec env op fs = some ((), fs') →
    storedFor fs'.icache p ⊆ storedFor fs.icache p ∧ ∀ v ∈ fs'.passed, v ∈ fs.passed
  refused : ∀ path mode uid gid fs', pathNormalize path = q →
    xxfsCreate env path mode uid gid fs = some (.eexist, fs') → ∃ i e,
      icacheLookup fs.icache (xxh64 q) = some i ∧ fs.icache.slots i = some e ∧ e.key ≠ some p

section entries

variable {c c' : Icache} {p q : Path} {i : ℕ} {e : IcacheEntry}

/-- What is found for another hash was not stored for `p`. -/
theorem key_ne (hk : KeysHashed c) (hpq : xxh64 p ≠ xxh64 q) (hi : c.slots i = some e)
    (hh : e.hash = xxh64 q) : e.key ≠ some p := fun hkey ↦
  hpq ((hk i e p hi hkey).symm.trans hh)

theorem storedFor_subset (h : ∀ i e, c'.slots i = some e → ∃ j, c.slots j = some e) :
    storedFor c' p ⊆ storedFor c p := by
  rintro x ⟨i, e, hi, hkey, hx⟩
  obtain ⟨j, hj⟩ := h i e hi
  exact ⟨j, e, hj, hkey, hx⟩

theorem storedFor_roomed (h : Roomed c c') : storedFor c' p ⊆ storedFor c p := by
  cases h with
  | same => exact subset_rfl
  | grown =>
    refine storedFor_subset fun i e he ↦ ?_
    obtain ⟨j, -, hj⟩ := of_rehash he
    exact ⟨j, hj⟩
  | evicted _ _ =>
    refine storedFor_subset fun i e he ↦ ?_
    rcases of_store he with ⟨-, h⟩ | ⟨-, h⟩
    · cases h
    · exact ⟨i, h⟩

/-- The slot that `icache_put` takes for `q` holds the hash of `q` afterwards. -/
theorem storedFor_placed (key : Option Path) (n : Inode)
    (hk : KeysHashed (placed c (xxh64 q) key n)) (hpq : xxh64 p ≠ xxh64 q) : storedFor (placed c (xxh64 q) key n) p ⊆ storedFor c p := by
  rintro x ⟨i, e, hi, hkey, hx⟩
  have hh : e.hash ≠ xxh64 q := fun hh ↦ key_ne hk hpq hi hh hkey
  refine ⟨i, e, ?_, hkey, hx⟩
  rw [placed] at hi
  cases hs : slotFor c c.cap (xxh64 q) with
  | none => rwa [hs] at hi
  | some idx =>
    rw [hs, Option.elim_some] at hi
    cases he : c.slots idx with
    | none =>
      rw [he] at hi
      rcases of_store hi with ⟨-, hnew⟩ | ⟨-, hold⟩
      · obtain rfl := Option.some.inj hnew
        exact (hh rfl).elim
      · exact hold
    | some e₀ =>
      rw [he] at hi
      rcases of_store hi with ⟨-, hnew⟩ | ⟨-, hold⟩
      · obtain rfl := Option.some.inj hnew
        rcases of_probe hs with hempty | ⟨e₁, he₁, hh₁⟩
        · rw [he] at hempty
          cases hempty
        · obtain rfl := Option.some.inj (he.symm.trans he₁)
          exact (hh (by simpa using hh₁)).elim
      · exact hold

end entries

section steps

variable {env : Env} {p q : Path} {fs fs' : Fs}

/-- The inode cache is as it was, and nothing was stored in the index. -/
structure Steady (fs fs' : Fs) : Prop where
  icache : fs'.icache = fs.icache
  passed : ∀ v ∈ fs'.passed, v ∈ fs.passed

instance : Std.Refl Steady where
  refl _ := ⟨rfl, fun _ ↦ id⟩

instance : IsTrans Fs Steady where
  trans _ _ _ h h' := ⟨h'.icache.trans h.icache, fun v hv ↦ h.passed v (h'.passed v hv)⟩

theorem steady_of {α : Type} {m : FsM α} (h : Within (IndexOnly fun _ ↦ False) m) :
    Within Steady m :=
  h.mono fun _ _ h ↦ ⟨h.icache, fun _ hv ↦ (h.passed.mem hv).elim id False.elim⟩

theorem lock_steady (kind : Lock) : Within Steady (fsLock kind) := by
  refine .modify fun fs ↦ ?_
  split
  · exact refl_of Steady fs
  · exact ⟨rfl, fun _ ↦ id⟩

theorem unlock_steady (kind : Lock) : Within Steady (fsUnlock kind) := by
  refine .modify fun fs ↦ ?_
  split
  · exact refl_of Steady fs
  · exact ⟨rfl, fun _ ↦ id⟩

/-- What was stored for `p` is left alone if the cache evicts nothing. -/
def Leaves (p : Path) (fs fs' : Fs) : Prop :=
  KeysHashed fs.icache → fs.icache.count < icacheMaxEntries →
    storedFor fs'.icache p ⊆ storedFor fs.icache p ∧ ∀ v ∈ fs'.passed, v ∈ fs.passed

theorem Steady.leaves (h : Steady fs fs') : Leaves p fs fs' := fun _ _ ↦ by
  rw [h.icache]
  exact ⟨subset_rfl, h.passed⟩

theorem leaves_bind {α β : Type} {m : FsM α} {f : α → FsM β} (hm : Within Steady m)
    (hf : ∀ a, Within (Leaves p) (f a)) : Within (Leaves p) (m >>= f) := by
  intro fs b fs' h hk hc
  obtain ⟨a, fs₁, h₁, h₂⟩ := of_bind h
  have hs := hm _ _ _ h₁
  obtain ⟨hsub, hpass⟩ := hf a _ _ _ h₂ (by rwa [hs.icache]) (by rwa [hs.icache])
  rw [hs.icache] at hsub
  exact ⟨hsub, fun v hv ↦ hs.passed v (hpass v hv)⟩

theorem leaves_last {α β : Type} {m : FsM α} {f : α → FsM β} (hm : Within (Leaves p) m)
    (hf : ∀ a, Within Steady (f a)) : Within (Leaves p) (m >>= f) := by
  intro fs b fs' h hk hc
  obtain ⟨a, fs₁, h₁, h₂⟩ := of_bind h
  obtain ⟨hsub, hpass⟩ := hm _ _ _ h₁ hk hc
  have hs := hf a _ _ _ h₂
  rw [hs.icache]
  exact ⟨hsub, fun v hv ↦ hpass v (hs.passed v hv)⟩

theorem steady_leaves {α : Type} {m : FsM α} (h : Within Steady m) : Within (Leaves p) m :=
  h.mono fun _ _ h ↦ h.leaves

theorem wreturn_steady {α : Type} (a : α) : Within Steady (wreturn a) :=
  (unlock_steady .write).bind fun _ ↦ .pure a

theorem rreturn_steady {α : Type} (a : α) : Within Steady (rreturn a) :=
  (unlock_steady .read).bind fun _ ↦ .pure a

/-- `icache_put` stores nothing in the index unless it evicts. -/
theorem icachePut_passed {hash : UInt64} {key : Path} {n : Inode} {u : Unit}
    (hc : fs.icache.count < icacheMaxEntries) (h : icachePut env hash key n fs = some (u, fs')) :
    fs'.passed = fs.passed := by
  obtain ⟨v, fs₁, h₁, h₂⟩ := of_bind h
  have hroom : fs₁.passed = fs.passed := by
    simp only [icacheRoom, bind_apply, get_apply, Option.bind_some, if_apply,
      if_neg (Nat.not_le.mpr hc)] at h₁
    split at h₁
    · simp only [icacheGrow, bind_apply, osAlloc_eq, Option.bind_some, if_apply] at h₁
      split at h₁
      · obtain ⟨-, rfl⟩ := Prod.mk.inj (Option.some.inj h₁)
        rfl
      · obtain ⟨-, rfl⟩ := Prod.mk.inj (Option.some.inj h₁)
        rfl
    · obtain ⟨-, rfl⟩ := Prod.mk.inj (Option.some.inj h₁)
      rfl
  rw [← hroom]
  simp only [icachePlace, bind_apply, get_apply, Option.bind_some] at h₂
  rw [← slotFor] at h₂
  cases hs : slotFor fs₁.icache fs₁.icache.cap hash with
  | none =>
    simp only [hs, pure_apply] at h₂
    obtain ⟨-, rfl⟩ := Prod.mk.inj (Option.some.inj h₂)
    rfl
  | some i =>
    simp only [hs] at h₂
    cases hi : fs₁.icache.slots i with
    | none =>
      simp only [hi, bind_apply, osAlloc_eq, Option.bind_some, modify_apply] at h₂
      obtain ⟨-, rfl⟩ := Prod.mk.inj (Option.some.inj h₂)
      rfl
    | some e =>
      simp only [hi, modify_apply] at h₂
      obtain ⟨-, rfl⟩ := Prod.mk.inj (Option.some.inj h₂)
      rfl

variable (hpq : xxh64 p ≠ xxh64 q)
include hpq

theorem put_leaves (n : Inode) : Within (Leaves p) (icachePut env (xxh64 q) q n) := by
  intro fs u fs' h hk hc
  obtain ⟨c, key, hroomed, hplaced⟩ := icachePut_placed h
  have hk' := (icachePut_inside env q n _ _ _ h).keys hk
  rw [hplaced] at hk'
  refine ⟨?_, fun v hv ↦ icachePut_passed hc h ▸ hv⟩
  rw [hplaced]
  exact (storedFor_placed key n hk' hpq).trans (storedFor_roomed hroomed)

theorem fetch_leaves : Within (Leaves p) (fetchInode env q) := by
  refine leaves_bind .get fun fs ↦ ?_
  cases icacheInode fs.icache (xxh64 q) with
  | some n => exact steady_leaves (.pure _)
  | none =>
    refine leaves_bind (steady_of (inodePagedGet_indexOnly env _)) fun r ↦ ?_
    cases r with
    | error rc => exact steady_leaves (.pure _)
    | ok n => exact leaves_last (put_leaves hpq n) fun _ ↦ .pure _

theorem stat_leaves {path : Path} (hq : pathNormalize path = q) :
    Within (Leaves p) (xxfsStat env path) := by
  subst hq
  refine leaves_bind (lock_steady .read) fun _ ↦ leaves_bind .get fun fs ↦ ?_
  cases icacheInode fs.icache (xxh64 (pathNormalize path)) with
  | some n => exact steady_leaves (rreturn_steady _)
  | none =>
    refine leaves_bind (steady_of (inodePagedGet_indexOnly env _)) fun r ↦ ?_
    cases r with
    | error rc => exact steady_leaves (rreturn_steady _)
    | ok n => exact leaves_last (put_leaves hpq n) fun _ ↦ rreturn_steady _

theorem read_leaves {path : Path} (hq : pathNormalize path = q) (buf : ℕ → UInt8) (off : UInt64)
    (len : UInt32) : Within (Leaves p) (xxfsRead env path buf off len) := by
  subst hq
  refine .ite (fun _ ↦ steady_leaves (.pure _)) fun _ ↦ leaves_bind (lock_steady .read) fun _ ↦
    leaves_last (fetch_leaves hpq) fun r ↦ ?_
  cases r with
  | none => exact rreturn_steady _
  | some n =>
    refine .ite (fun _ ↦ rreturn_steady _) fun _ ↦ .ite (fun _ ↦ rreturn_steady _) fun _ ↦
      .ite (fun _ ↦ ?_) fun _ ↦ rreturn_steady _
    refine .bind (steady_of (osPread_indexOnly env _ _ _)) fun r ↦ ?_
    cases r with
    | none => exact rreturn_steady _
    | some r => exact rreturn_steady _

theorem write_leaves {path : Path} (hq : pathNormalize path = q) (buf : ℕ → UInt8) (off : UInt64)
    (len : UInt32) : Within (Leaves p) (xxfsWrite env path buf off len) := by
  subst hq
  refine .ite (fun _ ↦ steady_leaves (.pure _)) fun _ ↦ leaves_bind (lock_steady .write) fun _ ↦
    leaves_bind (steady_of (currentInode_indexOnly env _)) fun r ↦ ?_
  cases r with
  | error rc => exact steady_leaves (wreturn_steady _)
  | ok n =>
    refine .ite (fun _ ↦ steady_leaves (wreturn_steady _)) fun _ ↦ .ite
      (fun _ ↦ leaves_last (put_leaves hpq _) fun _ ↦ wreturn_steady _) fun _ ↦
        leaves_bind (steady_of (leaveInline_indexOnly env _)) fun r ↦ ?_
    cases r with
    | error rc => exact steady_leaves (wreturn_steady _)
    | ok n =>
      refine leaves_bind (steady_of (growExtent_indexOnly env _ _)) fun r ↦ ?_
      cases r with
      | error rc => exact steady_leaves (wreturn_steady _)
      | ok n =>
        exact leaves_bind (steady_of (osPwrite_indexOnly env _ _ _)) fun _ ↦ .ite
          (fun _ ↦ leaves_last (put_leaves hpq _) fun _ ↦ wreturn_steady _)
          fun _ ↦ steady_leaves (wreturn_steady _)

theorem uses_leaves {op : Op} (hop : Uses q op) : Within (Leaves p) (exec env op) := by
  cases op with
  | stat path => exact leaves_last (stat_leaves hpq hop) fun _ ↦ .pure _
  | read path buf off len => exact leaves_last (read_leaves hpq hop buf off len) fun _ ↦ .pure _
  | write path buf off len => exact leaves_last (write_leaves hpq hop buf off len) fun _ ↦ .pure _
  | _ => exact hop.elim

end steps

section sources

variable {env : Env} {p q : Path} {fs : Fs} (hk : KeysHashed fs.icache) (hpq : xxh64 p ≠ xxh64 q)
include hk hpq

theorem found_ne {i : ℕ} (hi : icacheLookup fs.icache (xxh64 q) = some i) :
    ∃ e, fs.icache.slots i = some e ∧ e.key ≠ some p := by
  obtain ⟨-, e, he, hh⟩ := of_lookup hi
  exact ⟨e, he, key_ne hk hpq he hh⟩

theorem source_cached {n : Inode} (hn : icacheInode fs.icache (xxh64 q) = some n) :
    Source env fs p q n := by
  obtain ⟨i, hi, hx⟩ := Option.bind_eq_some_iff.mp hn
  obtain ⟨e, he, hinode⟩ := Option.map_eq_some_iff.mp hx
  obtain ⟨e', he', hne⟩ := found_ne hk hpq hi
  obtain rfl := Option.some.inj (he.symm.trans he')
  exact .inl ⟨i, e, hi, he, hne, hinode⟩

omit hk hpq in
theorem source_indexed {fs' : Fs} {n : Inode} {l : Lock} (hn : icacheInode fs.icache (xxh64 q) = none)
    (hx : inodePagedGet env q { fs with lock := l } = some (.ok n, fs')) : Source env fs p q n := by
  refine .inr ⟨?_, l, fs', hx⟩
  cases hl : icacheLookup fs.icache (xxh64 q) with
  | none => rfl
  | some i =>
    obtain ⟨-, e, he, -⟩ := of_lookup hl
    rw [icacheInode, hl, Option.bind_some, he] at hn
    cases hn

theorem source_current {fs' : Fs} {n : Inode} (hx : currentInode env q fs = some (.ok n, fs')) :
    Source env fs p q n := by
  simp only [currentInode, bind_apply, get_apply, Option.bind_some] at hx
  cases hn : icacheInode fs.icache (xxh64 q) with
  | some n' =>
    rw [hn] at hx
    obtain ⟨hn', -⟩ := Prod.mk.inj (Option.some.inj hx)
    cases hn'
    exact source_cached hk hpq hn
  | none =>
    rw [hn] at hx
    exact source_indexed hn hx

theorem source_fetched {fs' : Fs} {n : Inode} (hx : fetchInode env q fs = some (some n, fs')) :
    Source env fs p q n := by
  simp only [fetchInode, bind_apply, get_apply, Option.bind_some] at hx
  cases hn : icacheInode fs.icache (xxh64 q) with
  | some n' =>
    rw [hn] at hx
    obtain ⟨hn', -⟩ := Prod.mk.inj (Option.some.inj hx)
    cases hn'
    exact source_cached hk hpq hn
  | none =>
    rw [hn] at hx
    obtain ⟨r, fs₃, hget, hx⟩ := of_bind hx
    cases r with
    | error rc => cases hx
    | ok n' =>
      obtain ⟨u, fs₄, -, hx⟩ := of_bind hx
      obtain ⟨hn', -⟩ := Prod.mk.inj (Option.some.inj hx)
      cases hn'
      exact source_indexed hn hget

theorem source_stat {path : Path} {n : Inode} {fs' : Fs} (hq : pathNormalize path = q)
    (hx : xxfsStat env path fs = some (.ok n, fs')) : Source env fs p q n := by
  subst hq
  obtain ⟨l, hx⟩ := locked_cases hx
  simp only [bind_apply, get_apply, Option.bind_some] at hx
  cases hn : icacheInode fs.icache (xxh64 (pathNormalize path)) with
  | some n' =>
    rw [hn] at hx
    obtain ⟨hn', -⟩ := unlocked_cases hx
    cases hn'
    exact source_cached hk hpq hn
  | none =>
    rw [hn] at hx
    obtain ⟨r, fs₁, hget, hx⟩ := of_bind hx
    cases r with
    | error rc =>
      obtain ⟨hn', -⟩ := unlocked_cases hx
      cases hn'
    | ok n' =>
      obtain ⟨u, fs₂, -, hx⟩ := of_bind hx
      obtain ⟨hn', -⟩ := unlocked_cases hx
      cases hn'
      exact source_indexed hn hget

end sources

section main

variable {env : Env} {fs : Fs} {p q : Path}

end main

section first

theorem first_cached {K : Path → Prop} (hK : Names K) (path : Path) (hp : K (pathNormalize path))
    (hne : pathNormalize path ≠ rootPath) (hpar : getParentPath (pathNormalize path) = rootPath) :
    ∃ fs i e, Reachable steady fs ∧ fs.icache.count < icacheMaxEntries ∧
      icacheLookup fs.icache (xxh64 (pathNormalize path)) = some i ∧
      fs.icache.slots i = some e ∧ e.key = some (pathNormalize path) := by
  obtain ⟨m, fs, -, hr, hs, -, hA⟩ := first_create hK (C := Careful K)
    (careful_first hK 0 0 0 hp hne hpar) hp hne hpar
  have ht : (createdInode (pathNormalize path) 0 0 0 (freshFs steady 1 0).cowGen).iFileType ≠
      ftDir := by
    rw [createdInode, (sameBody_sealed _).type]
    exact show ftReg ≠ ftDir by decide
  obtain ⟨fs', hw, hb, hcell, -, -⟩ : ∃ fs',
      xxfsWrite steady path (fun _ ↦ 0) 0 1 fs = some (.ok, fs') ∧ _ :=
    hs.basis.writeInline steady_healthy hK hp hA.fresh ht (by decide) (by decide)
  obtain ⟨i, e, hi, hkey, -⟩ := hb.settled.cell_iff.mp
    ((congrFun hcell (pathNormalize path)).trans (update_self _ _ _))
  have hfound := hb.settled.found i e hi
  rw [(hb.settled.hash_eq hi hkey).2] at hfound
  have hstep : exec steady (.write path (fun _ ↦ 0) 0 1) fs = some ((), fs') := exec_discard hw
  exact ⟨fs', i, e, hr.reachable.step hstep, hb.settled.roomy.below _ .refl, hfound, hi, hkey⟩

/-- A name of 47 bytes whose last two words may change places without a change of the hash. -/
def twinPath (a b : UInt8) : Path :=
  slash :: (List.replicate 31 97 ++ List.replicate 8 a ++ List.replicate 8 b)

theorem twinPath_hash : xxh64 (twinPath 98 99) = xxh64 (twinPath 99 98) := by decide +kernel

end first

end Xxfs.CacheAliases

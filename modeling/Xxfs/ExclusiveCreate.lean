import Xxfs.FreshIndex
import Xxfs.Reach
import Xxfs.StoredInode

namespace Xxfs.ExclusiveCreate

open Xxfs.DiskFormat Xxfs.Machine Xxfs.Allocator Xxfs.PageCache Xxfs.PagedIndex Xxfs.InodeCache
open Xxfs.DirCache Xxfs.Volume Xxfs.Operations Xxfs.Runs Xxfs.Hash Xxfs.PathName
open Xxfs.Lib.ProbeTable Xxfs.IndexRep Xxfs.StoredInode Xxfs.CacheKeys Xxfs.FreshVolume Xxfs.FreshIndex
open Xxfs.OperationFrames Xxfs.Reach Xxfs.Lib.Computation Xxfs.Lib.Computation.Comp

section codes

variable (env : Env)

def NotExist (rc : Rc) : Prop := rc ≠ .eexist

instance : DecidablePred NotExist := fun rc ↦ inferInstanceAs (Decidable (rc ≠ .eexist))

theorem writeRecord_codes (key : Path) (val : List UInt8) :
    Yields (fun r ↦ ∀ rc, r = .error rc → NotExist rc) (writeRecord env key val) := by
  refine .last fun off ↦ .ite (.pure ?_) (.last fun r ↦ ?_)
  · rintro rc ⟨⟩
    decide
  · cases r with
    | none => exact .pure (by rintro rc ⟨⟩; decide)
    | some _ =>
      refine .last fun ok ↦ .ite (.pure ?_) (.pure ?_)
      · rintro rc ⟨⟩
      · rintro rc ⟨⟩
        decide

theorem appendSlot_codes (pg : PagedPage) (off h : UInt64) (key : Path) (val : List UInt8) :
    Yields NotExist (appendSlot env pg off h key val) := by
  refine .ite (.last fun _ ↦ .pure (by decide)) (.bind (writeRecord_codes env key val) fun r hr ↦ ?_)
  cases r with
  | error rc => exact .last fun _ ↦ .pure (hr rc rfl)
  | ok off => exact .last fun _ ↦ .pure (by decide)

theorem updateSlot_codes (pg : PagedPage) (off : UInt64) (i : ℕ) (key : Path) (val : List UInt8) :
    Yields NotExist (updateSlot env pg off i key val) := by
  refine .ite (.last fun _ ↦ .pure (by decide)) (.ite ?_
    (.bind (writeRecord_codes env key val) fun r hr ↦ ?_))
  · exact .last fun _ ↦ .last fun _ ↦ .pure (by decide)
  · cases r with
    | error rc => exact .pure (hr rc rfl)
    | ok off => exact .last fun _ ↦ .pure (by decide)

theorem ensureBucket_codes (i : ℕ) : Yields NotExist (ensureBucket env i) :=
  .last fun _ ↦ .ite (.last fun _ ↦ .ite (.pure (by decide)) (.last fun _ ↦ .last fun _ ↦
    .ite (.last fun _ ↦ .pure (by decide)) (.pure (by decide)))) (.pure (by decide))

theorem addOverflow_codes (pg : PagedPage) (off : UInt64) :
    Yields (fun r ↦ ∀ rc, r = some (.error rc) → NotExist rc) (addOverflow env pg off) := by
  refine .last fun _ ↦ .ite (.pure ?_) (.last fun _ ↦ .last fun _ ↦
    .ite (.last fun _ ↦ .pure ?_) (.pure ?_))
  · rintro rc ⟨⟩
  · rintro rc ⟨⟩
  · rintro rc ⟨⟩
    decide

theorem split_codes {retry : FsM Rc} (hr : Yields NotExist retry) (off : UInt64) :
    Yields NotExist (pageSplitAndRetry env retry off) := by
  have hsplit (pg : PagedPage) : Yields NotExist (pageSplitAndRetry.split env retry off pg) :=
    .last fun _ ↦ .ite (.pure (by decide)) (.last fun _ ↦ .last fun _ ↦ .last fun _ ↦
      .last fun _ ↦ hr)
  refine .last fun r ↦ ?_
  cases r with
  | none => exact .pure (by decide)
  | some pg =>
    refine .last fun _ ↦ .ite (.ite (.pure (by decide)) (.last fun _ ↦
      .ite (.last fun r ↦ ?_) (.pure (by decide)))) (hsplit pg)
    cases r with
    | none => exact .pure (by decide)
    | some pg => exact hsplit pg

theorem putWalk_codes {retry : FsM Rc} (hr : Yields NotExist retry) (h : UInt64) (key : Path)
    (val : List UInt8) (n : ℕ) (off : UInt64) :
    Yields NotExist (putWalk env retry h key val n off) := by
  induction n generalizing off with
  | zero => exact .diverge
  | succ n ih =>
    refine .ite (.pure (by decide)) (.last fun r ↦ ?_)
    cases r with
    | none => exact .pure (by decide)
    | some pg =>
      dsimp only
      split
      · exact updateSlot_codes env _ _ _ _ _
      · refine .ite (.ite (.bind (addOverflow_codes env _ _) fun r hrc ↦ ?_) (ih _))
          (appendSlot_codes env _ _ _ _ _)
        rcases r with _ | rc | off
        · exact split_codes env hr _
        · exact .pure (hrc rc rfl)
        · exact ih off

theorem pagedPut_codes (key : Path) (val : List UInt8) : Yields NotExist (pagedPut env key val) := by
  suffices h : ∀ n, Yields NotExist (pagedPutN env n key val) from h _
  intro n
  induction n with
  | zero => exact .diverge
  | succ n ih =>
    refine .last fun _ ↦ .last fun fs ↦ .bind (ensureBucket_codes env _) fun rc hrc ↦ ?_
    split
    · exact .last fun _ ↦ putWalk_codes env ih _ _ _ _ _
    · exact .pure hrc

theorem pagedInsert_codes (key : Path) (val : List UInt8) :
    Yields NotExist (pagedInsert env key val) := by
  have hwalk (n : ℕ) (off : UInt64) :
      Yields NotExist (insertWalk env (xxh64 key) key val n off) := by
    induction n generalizing off with
    | zero => exact .diverge
    | succ n ih =>
      refine .ite (.pure (by decide)) (.last fun r ↦ ?_)
      cases r with
      | none => exact .pure (by decide)
      | some pg =>
        refine .ite (.ite (.bind (addOverflow_codes env _ _) fun r hrc ↦ ?_) (ih _))
          (appendSlot_codes env _ _ _ _ _)
        rcases r with _ | rc | off
        · exact split_codes env (pagedPut_codes env key val) _
        · exact .pure (hrc rc rfl)
        · exact ih off
  refine .last fun _ ↦ .last fun fs ↦ .bind (ensureBucket_codes env _) fun rc hrc ↦ ?_
  split
  · exact .last fun _ ↦ hwalk _ _
  · exact .pure hrc

end codes

section views

variable (env : Env)

/-- What callers can see of a state without changing a path. -/
structure SameViews (fs fs' : Fs) : Prop where
  stat : ∀ path, (xxfsStat env path fs').map Prod.fst = (xxfsStat env path fs).map Prod.fst
  read : ∀ path buf off len, (xxfsRead env path buf off len fs').map Prod.fst =
    (xxfsRead env path buf off len fs).map Prod.fst
  readdir : ∀ path, (xxfsReaddir env path fs').map Prod.fst =
    (xxfsReaddir env path fs).map Prod.fst
  count : xxfsCount fs' = xxfsCount fs

/-- Whatever is done next, the two states show the same. -/
def Unnoticed (fs fs' : Fs) : Prop :=
  ∀ ops : List Op, ∀ fs₁, (ops.forM (exec env)) fs = some ((), fs₁) →
    ∃ fs₁', (ops.forM (exec env)) fs' = some ((), fs₁') ∧ SameViews env fs₁ fs₁'

theorem unnoticed_refl (fs : Fs) : Unnoticed env fs fs := fun _ fs₁ h ↦
  ⟨fs₁, h, fun _ ↦ rfl, fun _ _ _ _ ↦ rfl, fun _ ↦ rfl, rfl⟩

def Refuses (m : FsM Rc) (fs : Fs) : Prop :=
  ∃ fs', m fs = some (.eexist, fs') ∧ Unnoticed env fs fs'

def StatOk (path : Path) (fs : Fs) : Prop := ∃ n fs', xxfsStat env path fs = some (.ok n, fs')

def AllRefuse (path target : Path) (mode uid gid : UInt16) (fs : Fs) : Prop :=
  Refuses env (xxfsCreate env path mode uid gid) fs ∧
  Refuses env (xxfsMkdir env path mode uid gid) fs ∧
  Refuses env (xxfsSymlink env target path) fs

def Cached (path : Path) (fs : Fs) : Prop :=
  (icacheLookup fs.icache (xxh64 (pathNormalize path))).isSome

variable {env} {path target : Path} {mode uid gid : UInt16} {fs : Fs}

theorem xxfsCreate_cached (hf : LockFree fs) (hc : Cached path fs) :
    xxfsCreate env path mode uid gid fs = some (.eexist, fs) := by
  rw [xxfsCreate, fsWlock, bracket_eq hf, bind_apply]
  simp only [get_apply, Option.bind_some, held_icache]
  rw [Cached] at hc
  rw [if_pos hc]
  exact unlock_bracket hf .write _

theorem xxfsMkdir_cached (hf : LockFree fs) (hc : Cached path fs) :
    xxfsMkdir env path mode uid gid fs = some (.eexist, fs) := by
  rw [xxfsMkdir, fsWlock, bracket_eq hf, bind_apply]
  simp only [get_apply, Option.bind_some, held_icache]
  rw [Cached] at hc
  rw [if_pos hc]
  exact unlock_bracket hf .write _

theorem icacheInode_some {c : Icache} {h : UInt64} (hc : (icacheLookup c h).isSome) :
    ∃ n, icacheInode c h = some n := by
  obtain ⟨idx, hidx⟩ := Option.isSome_iff_exists.mp hc
  have hslot : (c.slots idx).isSome := by
    unfold icacheLookup at hidx
    split at hidx
    · cases hidx
    · split at hidx
      · obtain rfl := Option.some.inj hidx
        assumption
      · cases hidx
  obtain ⟨e, he⟩ := Option.isSome_iff_exists.mp hslot
  exact ⟨e.inode, by rw [icacheInode, hidx, Option.bind_some, he, Option.map_some]⟩

theorem xxfsSymlink_cached (hf : LockFree fs) (hc : Cached path fs) (ht : target.length ≤ inlineMax) :
    xxfsSymlink env target path fs = some (.eexist, fs) := by
  obtain ⟨n, hn⟩ := icacheInode_some hc
  rw [xxfsSymlink, if_neg (by omega), fsWlock, bracket_eq hf, bind_apply, fetchInode]
  simp only [bind_apply, get_apply, Option.bind_some, held_icache, hn, pure_apply]
  exact unlock_bracket hf .write _

theorem xxfsCreate_codes (hc : ¬Cached path fs) (hf : LockFree fs) {rc : Rc} {fs' : Fs}
    (h : xxfsCreate env path mode uid gid fs = some (rc, fs')) : rc ≠ .eexist := by
  rw [xxfsCreate, fsWlock, bracket_eq hf, bind_apply] at h
  simp only [get_apply, Option.bind_some, held_icache] at h
  rw [Cached] at hc
  rw [if_neg hc] at h
  refine Yields.bind (Q := NotExist) (pagedInsert_codes env _ _) (fun rc hrc ↦ ?_) _ rc fs' h
  exact .ite (.last fun _ ↦ .last fun _ ↦ .last fun _ ↦ .last fun _ ↦ .pure hrc)
    (.last fun _ ↦ .pure hrc)

/-- An existing path is refused by all three calls exactly if its inode is cached and the
target is short. -/
theorem allRefuse_iff_cached (hr : Reachable env fs) :
    (StatOk env path fs → AllRefuse env path target mode uid gid fs) ↔
      (StatOk env path fs → Cached path fs ∧ target.length ≤ inlineMax) := by
  have hf := (reachable_orderly env hr).lock
  refine imp_congr_right fun hok ↦ ⟨?_, ?_⟩
  · rintro ⟨⟨fs₁, hcreate, -⟩, -, fs₂, hlink, -⟩
    refine ⟨?_, ?_⟩
    · by_contra hc
      exact xxfsCreate_codes hc hf hcreate rfl
    · by_contra ht
      rw [xxfsSymlink, if_pos (by omega)] at hlink
      cases (Prod.mk.inj (Option.some.inj hlink)).1
  · rintro ⟨hc, ht⟩
    exact ⟨⟨fs, xxfsCreate_cached hf hc, unnoticed_refl env fs⟩,
      ⟨fs, xxfsMkdir_cached hf hc, unnoticed_refl env fs⟩,
      ⟨fs, xxfsSymlink_cached hf hc ht, unnoticed_refl env fs⟩⟩

theorem allRefuse_iff_cached_fresh :
    (StatOk steady rootPath (freshFs steady 1 0) →
      AllRefuse steady rootPath [97] 0 0 0 (freshFs steady 1 0)) ↔
    (StatOk steady rootPath (freshFs steady 1 0) →
      Cached rootPath (freshFs steady 1 0) ∧ [(97 : UInt8)].length ≤ inlineMax) :=
  allRefuse_iff_cached (.fresh (fresh_apply steady_healthy goodSize_one 0))

theorem fresh_not_cached (sizeMb flags : UInt64) : ¬Cached path (freshFs env sizeMb flags) := by
  rw [Cached, show icacheLookup (freshFs env sizeMb flags).icache (xxh64 (pathNormalize path)) =
    none from rfl]
  exact Bool.false_ne_true

def oneEntry (e : IcacheEntry) : Icache :=
  ⟨store (fun _ ↦ none) (home icacheCapInit e.hash) (some e), icacheCapInit, 1, 0⟩

theorem icachePut_init (env : Env) (hash : UInt64) (key : Path) (n : Inode)
    (hempty : fs.icache = icacheInit) : ∃ k, icachePut env hash key n fs =
      some ((), { fs with icache := oneEntry ⟨hash, true, k, n⟩, clock := fs.clock + 1 }) := by
  have hroom : icacheRoom env fs = some ((), fs) := by
    simp only [icacheRoom, bind_apply, get_apply, Option.bind_some, hempty]
    rfl
  have hprobe : probe (fun e : IcacheEntry ↦ e.hash == hash) (fun _ ↦ none) (icacheCapInit - 1)
      icacheCapInit (home icacheCapInit hash) = some (home icacheCapInit hash) := rfl
  refine ⟨if env.mem fs.clock then some key else none, ?_⟩
  rw [icachePut, bind_apply, hroom, Option.bind_some]
  simp only [icachePlace, bind_apply, get_apply, Option.bind_some, hempty, icacheInit, hprobe,
    osAlloc, tick_apply, pure_apply, modify_apply, oneEntry]

theorem oneEntry_inode (e : IcacheEntry) : icacheInode (oneEntry e) e.hash = some e.inode := by
  have hslot : (oneEntry e).slots (home icacheCapInit e.hash) = some e := by
    simp only [oneEntry, store_eq]
  have hlookup : icacheLookup (oneEntry e) e.hash = some (home icacheCapInit e.hash) := by
    rw [icacheLookup, show (oneEntry e).cap = icacheCapInit from rfl, probe, hslot]
    simp [hslot]
  rw [icacheInode, hlookup, Option.bind_some, hslot, Option.map_some]

/-- A first `xxfs_stat` that finds the path in the index puts its inode into the cache. -/
theorem xxfsStat_found (he : Healthy env) (hf : LockFree fs) (hempty : fs.icache = icacheInit)
    {L : Chain} (h : Represents fs L) (hk : (pathNormalize path).length < 2 ^ 32)
    {val : List UInt8} (hv : found (ents L) (pathNormalize path) inodeSize = .ok val) :
    ∃ k fs', xxfsStat env path fs = some (.ok (readBack val), fs') ∧
      fs'.icache = oneEntry ⟨xxh64 (pathNormalize path), true, k, readBack val⟩ := by
  obtain ⟨fs₁, hget, -, -⟩ := inodePagedGet_apply he hk
    (h.same (held_img .read fs) (held_sb .read fs) (held_pdir .read fs) (held_pcache .read fs))
  have hio := inodePagedGet_indexOnly (P := fun _ ↦ True) env _ _ _ _ hget
  have hc : fs₁.icache = icacheInit := by rw [hio.icache, held_icache, hempty]
  obtain ⟨k, hput⟩ := icachePut_init env (xxh64 (pathNormalize path)) (pathNormalize path)
    (readBack val) hc
  have hheld : Holds .read { fs₁ with
      icache := oneEntry ⟨xxh64 (pathNormalize path), true, k, readBack val⟩
      clock := fs₁.clock + 1 } := (holds_held .read fs).of_same ⟨hio.lock, hio.flags⟩
  have hmiss : icacheInode icacheInit (xxh64 (pathNormalize path)) = none := rfl
  refine ⟨k, _, ?_, held_icache .free { fs₁ with
    icache := oneEntry ⟨xxh64 (pathNormalize path), true, k, readBack val⟩
    clock := fs₁.clock + 1 }⟩
  rw [xxfsStat, fsRlock, bracket_eq hf, bind_apply]
  simp only [get_apply, Option.bind_some, held_icache, hempty, hmiss]
  rw [bind_apply, hget, Option.bind_some, hv]
  simp only [Except.map]
  rw [bind_apply, hput, Option.bind_some]
  exact unlock_apply hheld _

theorem fresh_stat_root : ∃ n k fs', xxfsStat steady rootPath (freshFs steady 1 0) =
    some (.ok n, fs') ∧ fs'.icache = oneEntry ⟨xxh64 rootPath, true, k, n⟩ :=
  ⟨_, xxfsStat_found steady_healthy
    (reachable_orderly steady (.fresh (fresh_apply steady_healthy goodSize_one 0))).lock rfl
    (fresh_represents steady goodSize_one 0) (by decide) (fresh_found _ _)⟩

/-- The root of a fresh mount is not cached: it exists, and yet it is not refused. -/
theorem fresh_root_not_refused : ¬∀ (env : Env) (fs : Fs) (path target : Path)
    (mode uid gid : UInt16), Healthy env → Reachable env fs → StatOk env path fs →
      AllRefuse env path target mode uid gid fs := by
  intro hall
  have hfresh := fresh_apply steady_healthy goodSize_one 0
  have hr : Reachable steady (freshFs steady 1 0) := .fresh hfresh
  have hfree := (reachable_orderly steady hr).lock
  obtain ⟨n, -, fs₁, hstat, -⟩ := fresh_stat_root
  have hok : StatOk steady rootPath (freshFs steady 1 0) := ⟨n, fs₁, hstat⟩
  obtain ⟨⟨fs', hcreate, -⟩, -⟩ := hall steady _ rootPath [] 0 0 0 steady_healthy hr hok
  exact xxfsCreate_codes (fresh_not_cached 1 0) hfree hcreate rfl

end views

end Xxfs.ExclusiveCreate

import Xxfs.Answers
import Xxfs.NamespaceRuns

namespace Xxfs.Soundness

open Function
open Xxfs.DiskFormat Xxfs.Machine Xxfs.PagedIndex Xxfs.PageStore Xxfs.InodeCache Xxfs.DirCache
open Xxfs.Volume Xxfs.Operations Xxfs.Hash Xxfs.PathName Xxfs.IndexRep Xxfs.CacheMap
open Xxfs.IndexState Xxfs.OperationFrames Xxfs.Checksum Xxfs.CacheKeys Xxfs.Frames
open Xxfs.FreshVolume Xxfs.FreshIndex Xxfs.NamespaceRuns Xxfs.Runs
open Xxfs.Lib Xxfs.Lib.Computation Xxfs.Lib.Computation.Comp

/-- A call that sets attributes of a path. -/
inductive AttrCall
  | chmod (mode : UInt16)
  | chown (uid gid : UInt16)
  | utime (atime mtime : UInt64)

def AttrCall.run (env : Env) (path : Path) : AttrCall → FsM Rc
  | .chmod mode => xxfsChmod env path mode
  | .chown uid gid => xxfsChown env path uid gid
  | .utime atime mtime => xxfsUtime env path atime mtime

def AttrCall.set : AttrCall → Inode → Inode
  | .chmod mode => fun n ↦ { n with iMode := mode }
  | .chown uid gid => fun n ↦ { n with iUid := uid, iGid := gid }
  | .utime atime mtime => fun n ↦ { n with iAtime := atime, iMtime := mtime }

/-- `n'` is `n` with what the call sets, but for `i_ctime`, the checksum and the code. -/
def AttrCall.Only (c : AttrCall) (n n' : Inode) : Prop :=
  ∃ now sum ecc, n' = { c.set n with iCtime := now, iChecksum := sum, iEcc := ecc }

/-- The call changes nothing else that `xxfs_stat` and `xxfs_read` show. -/
structure AttrCall.Keeps (c : AttrCall) (P : Path → Prop) (env : Env) (path : Path) (fs fs' : Fs) :
    Prop where
  own : ∀ n, result (xxfsStat env path) fs = some (.ok n) →
    ∃ n', result (xxfsStat env path) fs' = some (.ok n') ∧ c.Only n n'
  reads : SameReads env path fs fs'
  others : ∀ q, P (pathNormalize q) → pathNormalize q ≠ pathNormalize path →
    result (xxfsStat env q) fs' = result (xxfsStat env q) fs ∧ SameReads env q fs fs'

section only

variable {c : AttrCall} {n n' : Inode}

theorem AttrCall.run_eq (c : AttrCall) (env : Env) (path : Path) :
    c.run env path = Operations.setAttr env c.set path := by
  cases c <;> rfl

theorem AttrCall.sameBody (c : AttrCall) (n : Inode) : SameBody n (c.set n) := by
  cases c <;> exact ⟨rfl, rfl, rfl, rfl⟩

theorem AttrCall.Only.sameBody (h : c.Only n n') : SameBody n n' := by
  obtain ⟨now, sum, ecc, rfl⟩ := h
  have hb := c.sameBody n
  exact ⟨hb.type, hb.size, hb.blocks, hb.content⟩

theorem AttrCall.only_attrInode_iff (now : UInt64) :
    c.Only n (attrInode c.set n' now) ↔ c.Only n (c.set n') := by
  obtain ⟨sum, ecc, -, heq⟩ := inodeSetChecksumEcc_eq { c.set n' with iCtime := now }
  rw [attrInode, heq]
  constructor
  · rintro ⟨now', sum', ecc', h⟩
    refine ⟨(c.set n').iCtime, (c.set n').iChecksum, (c.set n').iEcc, ?_⟩
    exact congrArg (fun x : Inode ↦ { x with
      iCtime := (c.set n').iCtime, iChecksum := (c.set n').iChecksum, iEcc := (c.set n').iEcc }) h
  · rintro ⟨now', sum', ecc', h⟩
    rw [h]
    exact ⟨now, sum, ecc, rfl⟩

end only

section step

variable {env : Env} (he : Healthy env) {K : Path → Prop} (hK : Names K) {m : Inodes} {fs fs' : Fs}
  {p : Path} {n : Inode} {rc : Rc}
include he hK

theorem Basis.stored (h : Basis K m fs) (hp : K p) (hs : Sealed n)
    (hx : Soundness.storeTail env p n fs = some (rc, fs')) (hl : Live fs') :
    Basis K (update m p (some n)) fs' ∧
      cell fs'.icache = update (cell fs.icache) p (some (n, true)) := by
  obtain ⟨rc₁, fs₁, hput, hrest⟩ := of_bind hx
  have hspends : Within Spends
      (if rc₁ = .ok then icachePut env (xxh64 p) p n >>= fun _ ↦ wreturn rc₁ else wreturn rc₁) :=
    .ite (fun _ ↦ .bind (spends_of_inside (icachePut_inside env p n)) fun _ ↦ wreturn_spends _)
      fun _ ↦ wreturn_spends _
  have hl₁ : Live fs₁ := live_before hspends hrest hl
  have hl₀ : Live fs :=
    hl₁.of_spent (pagedPut_indexOnly (P := fun _ ↦ True) env p trivial _ _ _ hput).spent
  obtain ⟨F, L, hb⟩ := h.backed
  obtain ⟨rc₂, fs₂, hput', hgood⟩ := hb.pagedPut he hK hp hs hl₀
  obtain ⟨rfl, rfl⟩ := Prod.mk.inj (Option.some.inj (hput.symm.trans hput'))
  obtain ⟨rfl, hk, L', hb'⟩ := hgood hl₁
  have hset : Settled K fs₁.icache := by
    rw [hk.only.icache]
    exact h.settled
  obtain ⟨ic, t, hcache, hset', hcell, -⟩ := icachePut_apply he hK.distinct hset hp n
  rw [if_pos rfl, bind_apply, hcache, Option.bind_some] at hrest
  obtain ⟨-, l, rfl⟩ := unlocked_cases hrest
  refine ⟨⟨hset', F, L', hb'.same rfl rfl rfl rfl⟩, ?_⟩
  rw [← hk.only.icache]
  exact hcell

theorem Basis.attrStored (h : Basis K m fs) {path : Path} {set : Inode → Inode}
    (hp : K (pathNormalize path)) (hx : Operations.setAttr env set path fs = some (.ok, fs'))
    (hl : Live fs') : ∃ x now, m (pathNormalize path) = some x ∧
      Basis K (update m (pathNormalize path) (some (attrInode set x now))) fs' ∧
      cell fs'.icache =
        update (cell fs.icache) (pathNormalize path) (some (attrInode set x now, true)) := by
  rw [Operations.setAttr] at hx
  obtain ⟨l, hx⟩ := locked_cases hx
  generalize pathNormalize path = p at *
  obtain ⟨F, L, hb⟩ := h.backed
  have hb₀ : Backed K m F { fs with lock := l } L := hb.same rfl rfl rfl rfl
  obtain ⟨fs₁, hget, hb₁, hk, -⟩ := hb₀.inodePagedGet he (hK.length_lt hp)
  rw [bind_apply, hget, Option.bind_some] at hx
  cases hm : m p with
  | none =>
    rw [hm] at hx
    obtain ⟨hrc, -⟩ := unlocked_cases hx
    cases hrc
  | some x =>
    rw [hm] at hx
    have h₁ : Basis K m { fs₁ with clock := fs₁.clock + 1 } := by
      refine ⟨?_, F, L, hb₁.same rfl rfl rfl rfl⟩
      have hset := h.settled
      rw [← hk.only.icache] at hset
      exact hset
    change Soundness.storeTail env p (attrInode set x (env.time fs₁.clock))
      { fs₁ with clock := fs₁.clock + 1 } = some (.ok, fs') at hx
    obtain ⟨hb', hcell⟩ := h₁.stored he hK hp (sealed_inodeSetChecksumEcc _) hx hl
    refine ⟨x, _, rfl, hb', ?_⟩
    rw [hcell]
    exact congrArg (fun c ↦ update c p _) (congrArg cell hk.only.icache)

end step

section main

variable {env : Env} (he : Healthy env) {K : Path → Prop} (hK : Names K) {fs fs' : Fs}
  {path : Path} {n : Inode}
include he hK

theorem Sound.attr_keeps {m : Inodes} (h : Sound K m ∅ fs) (hp : K (pathNormalize path))
    {c : AttrCall} (hx : c.run env path fs = some (.ok, fs')) (hl : Live fs')
    (hn : seen m fs (pathNormalize path) = some n)
    (hc : ∀ x, m (pathNormalize path) = some x → c.Only n (c.set x)) :
    c.Keeps (Untwinned K) env path fs fs' := by
  have hu := hK.untwinned hp
  rw [c.run_eq] at hx
  have hbody (x : Inode) (hx : m (pathNormalize path) = some x) : SameBody n x :=
    (hc x hx).sameBody.trans (c.sameBody x).symm
  have hsame (y x : Inode) (hy : seen m fs (pathNormalize path) = some y)
      (hx : m (pathNormalize path) = some x) : SameBody y x := by
    rw [hn] at hy
    exact Option.some.inj hy ▸ hbody x hx
  have hA := h.setAttr he hK c.sameBody hp hsame hx hl
  cases hm : m (pathNormalize path) with
  | none =>
    rw [hm] at hA
    cases hA.1
  | some x =>
    rw [hm] at hA
    obtain ⟨-, now, m', hs, hR⟩ := hA
    have honly : c.Only n (attrInode c.set x now) := (AttrCall.only_attrInode_iff now).mpr (hc x hm)
    refine ⟨fun y hy ↦ ?_, ?_, fun q hq hne ↦ ?_⟩
    · rw [h.stat_ok_iff he hK hu, hn] at hy
      obtain rfl := Option.some.inj hy
      exact ⟨_, (hs.stat_ok_iff he hK hu).mpr hR.now, honly⟩
    · exact h.sameReads he hK hs hu hn hR.now honly.sameBody (hR.bytes n hn)
    · exact hR.toEffect.same_answers he hK h hs hq hne

/-- `xxfs_chmod`, `xxfs_chown` and `xxfs_utime` change only what they set exactly when the inode
that is seen and the one in the index differ in nothing else. -/
theorem attr_only_iff (hr : CarefulRun K env fs) (hu : Untwinned K (pathNormalize path)) (c : AttrCall)
    (hx : c.run env path fs = some (.ok, fs')) (hl : Live fs')
    (hn : result (xxfsStat env path) fs = some (.ok n)) :
    c.Keeps (Untwinned K) env path fs fs' ↔
      ∀ x, indexed fs (pathNormalize path) = some x → c.Only n (c.set x) := by
  have h := hr.sound he hK
  generalize indexed fs = m at *
  have hseen := (h.stat_ok_iff he hK hu).mp hn
  obtain ⟨z, hz, -⟩ := h.stored_some hseen
  have hp : K (pathNormalize path) := h.names (by rw [hz]; exact Option.some_ne_none z)
  constructor
  · intro hkeeps x hm
    obtain ⟨n', hn', honly⟩ := hkeeps.own n hn
    rw [c.run_eq] at hx
    obtain ⟨y, now, hy, hb, hcell⟩ := h.basis.attrStored he hK hp hx hl
    obtain rfl := Option.some.inj (hm.symm.trans hy)
    rw [hb.result_stat he hK hu, seen, cur, hcell, update_self] at hn'
    obtain rfl : attrInode c.set x now = n' := by
      injection hn' with hn'
      injection hn'
    exact (AttrCall.only_attrInode_iff now).mp honly
  · exact h.attr_keeps he hK hp hx hl hseen

end main

section first

/-- A new file, and what `xxfs_chmod` of it answers. -/
theorem attr_only_iff_new : ∃ fs fs', CarefulRun (· ∈ fewPaths) steady fs ∧
    xxfsChmod steady [slash, 97] 5 fs = some (.ok, fs') ∧
      (AttrCall.chmod 5).Keeps (Untwinned (· ∈ fewPaths)) steady [slash, 97] fs fs' := by
  have hmem : pathNormalize [slash, 97] ∈ fewPaths := by decide
  obtain ⟨m, fs, hr, hs, ha, hA⟩ := first_file fewPaths_names
    (careful_first fewPaths_names 0 0 0 hmem (by decide) (by decide)) hmem (by decide) (by decide)
  obtain ⟨now, fs', hx, hF⟩ : ∃ now fs', xxfsChmod steady [slash, 97] 5 fs = some (.ok, fs') ∧
      Filed (· ∈ fewPaths) m (pathNormalize [slash, 97]) (attrInode (AttrCall.chmod 5).set _ now) fs fs' :=
    hs.basis.setAttr steady_healthy fewPaths_names hmem hA.stored (ha.mono (by decide))
  have hl : Live fs' := hF.spares.live (ha.mono (by decide))
  refine ⟨fs, fs', hr, hx, (attr_only_iff steady_healthy fewPaths_names hr (fewPaths_names.untwinned hmem) (.chmod 5) hx hl
    ((hs.stat_ok_iff steady_healthy fewPaths_names (fewPaths_names.untwinned hmem)).mpr hA.fresh)).mpr fun x hx ↦ ?_⟩
  rw [hs.indexed_eq fewPaths_names, hA.stored] at hx
  obtain rfl := Option.some.inj hx
  exact ⟨_, _, _, rfl⟩

/-- A file is written, and `xxfs_chmod` takes the size of the index. -/
theorem chmod_shrinks : ¬∀ (env : Env) (fs fs' : Fs) (path : Path) (c : AttrCall) (n : Inode),
    Healthy env → Reachable env fs → c.run env path fs = some (.ok, fs') →
      result (xxfsStat env path) fs = some (.ok n) →
      c.Keeps (fun _ ↦ True) env path fs fs' := by
  intro hall
  have hmem : pathNormalize [slash, 97] ∈ fewPaths := by decide
  obtain ⟨m, fs₁, hr, hs, ha, hA⟩ := first_file fewPaths_names
    (careful_first fewPaths_names 0 0 0 hmem (by decide) (by decide)) hmem (by decide) (by decide)
  have hH : Hollow (createdInode (pathNormalize [slash, 97]) 0 0 0 (freshFs steady 1 0).cowGen) :=
    hollow_sealed rfl rfl rfl
  have ht : (createdInode (pathNormalize [slash, 97]) 0 0 0 (freshFs steady 1 0).cowGen).iFileType =
      ftReg := (sameBody_sealed _).type
  generalize createdInode (pathNormalize [slash, 97]) 0 0 0 (freshFs steady 1 0).cowGen = n at *
  obtain ⟨fs₂, hw, hb, hcell, -, hsb⟩ : ∃ fs₂,
      xxfsWrite steady [slash, 97] (fun _ ↦ 117) 0 2 fs₁ = some (.ok, fs₂) ∧ _ :=
    hs.basis.writeInline steady_healthy fewPaths_names hmem hA.fresh (by rw [ht]; decide)
      (by decide) (by decide)
  obtain ⟨now, fs₃, hx, hF⟩ : ∃ now fs₃, xxfsChmod steady [slash, 97] 5 fs₂ = some (.ok, fs₃) ∧
      Filed (· ∈ fewPaths) m (pathNormalize [slash, 97]) (attrInode (AttrCall.chmod 5).set n now)
        fs₂ fs₃ :=
    hb.setAttr steady_healthy fewPaths_names hmem hA.stored
      (spares_sb hsb 2 (ha.mono (by decide)))
  have hseen : seen m fs₂ (pathNormalize [slash, 97]) = some (inlined n (fun _ ↦ 117) 0 2) := by
    rw [seen, cur, hcell, update_self]
    rfl
  have hstat := hb.result_stat steady_healthy fewPaths_names (fewPaths_names.untwinned hmem)
  rw [hseen] at hstat
  have hexec : exec steady (.write [slash, 97] (fun _ ↦ 117) 0 2) fs₁ = some ((), fs₂) :=
    exec_discard hw
  have hreach : Reachable steady fs₂ := .step hr.reachable hexec
  obtain ⟨n', hn', honly⟩ := (hall steady fs₂ fs₃ [slash, 97] (.chmod 5) _ steady_healthy hreach hx
    hstat).own _ hstat
  rw [hF.basis.result_stat steady_healthy fewPaths_names (fewPaths_names.untwinned hmem), hF.seen, update_self] at hn'
  obtain rfl : attrInode (AttrCall.chmod 5).set n now = n' := by
    injection hn' with hn'
    injection hn'
  have hsize := honly.sameBody.size
  have hmax : (maxSize n.iSize (0 + (2 : UInt32).toUInt64)).toNat = max n.iSize.toNat _ :=
    maxSize_toNat (by decide) n.iSize
  rw [(sameBody_attr (AttrCall.chmod 5).sameBody n now).size] at hsize
  change n.iSize = maxSize n.iSize (0 + (2 : UInt32).toUInt64) at hsize
  rw [← hsize, hH.size] at hmax
  exact absurd hmax (by decide)

end first

end Xxfs.Soundness

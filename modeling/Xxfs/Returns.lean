import Xxfs.Careful

namespace Xxfs.Soundness

open Function
open Xxfs.DiskFormat Xxfs.Machine Xxfs.Allocator Xxfs.PageCache Xxfs.PagedIndex Xxfs.PageStore
open Xxfs.InodeCache Xxfs.DirCache Xxfs.Volume Xxfs.Operations Xxfs.Hash Xxfs.PathName
open Xxfs.IndexRep Xxfs.CacheMap Xxfs.IndexState Xxfs.OperationFrames Xxfs.Checksum Xxfs.CacheKeys
open Xxfs.Frames Xxfs.FreshVolume Xxfs.FreshIndex Xxfs.Runs
open Xxfs.Lib Xxfs.Lib.Computation Xxfs.Lib.Computation.Comp

/-- At most `k` blocks of an ample pool have been used. -/
def Spares (k : ℕ) (fs fs' : Fs) : Prop := ∀ j, Ample (k + j) fs → Ample j fs'

section spares

variable {j k : ℕ} {fs fs₁ fs₂ : Fs}

theorem spares_same (hd : fs₁.sb.sDataOff = fs.sb.sDataOff)
    (hc : fs₁.sb.sBlockCount = fs.sb.sBlockCount) (hf : fs₁.sb.sFreeBlocks = fs.sb.sFreeBlocks) :
    Spares 0 fs fs₁ := by
  intro j ha
  rw [Nat.zero_add] at ha
  have hfront : front fs₁.sb = front fs.sb := by rw [front, front, hd, hc, hf]
  exact ⟨by rw [hf]; exact ha.pool, by rw [hfront]; exact ha.addr⟩

theorem spares_sb (hsb : fs₁.sb = fs.sb) : Spares 0 fs fs₁ :=
  spares_same (by rw [hsb]) (by rw [hsb]) (by rw [hsb])

theorem Spares.of_cost (h : Cost k fs fs₁) (hp : PoolOk fs.sb) : Spares k fs fs₁ :=
  fun _ ha ↦ h.ample hp ha

theorem Spares.trans (h : Spares j fs fs₁) (h' : Spares k fs₁ fs₂) : Spares (j + k) fs fs₂ :=
  fun i ha ↦ h' i (h (k + i) (by rwa [← Nat.add_assoc]))

theorem Spares.live (h : Spares k fs fs₁) (ha : Ample k fs) : Live fs₁ := (h 0 ha).live

end spares

section index

variable {env : Env} (he : Healthy env) {K : Path → Prop} (hK : Names K) {m : Inodes} {F : Set ℕ}
  {fs : Fs} {L : Chain} (h : Backed K m F fs L) {p : Path} (hp : K p) {n : Inode}
include he hK h hp

omit he h in
theorem names_fit (n : Inode) : 8 + p.length + (inodeToVal n).length ≤ 4096 := by
  have := inodeToVal_length n
  have := hK.short p hp
  omega

theorem put_returns (hs : Sealed n) (ha : Ample 2 fs) : ∃ fs',
    pagedPut env p (inodeToVal n) fs = some (.ok, fs') ∧ Spares 2 fs fs' ∧ Kept F fs fs' ∧
      ∃ L', Backed K (update m p (some n)) F fs' L' := by
  obtain ⟨rc, fs', hput, hE⟩ := pagedPut_apply he (names_fit hK hp n) h.rep ha.live
    (IndexMap.noClash (fun k k' hk hk' ↦ hK.hash_inj hk hk') h.keys hp)
  have hsp := Spares.of_cost (hE.cheap ha) h.rep.pool
  obtain ⟨rc', fs₁, hput', hgood⟩ := h.pagedPut he hK hp hs ha.live
  obtain ⟨rfl, rfl⟩ := Prod.mk.inj (Option.some.inj (hput.symm.trans hput'))
  obtain ⟨rfl, hkept, hL⟩ := hgood (hsp.live ha)
  exact ⟨fs', hput, hsp, hkept, hL⟩

theorem insert_returns (hs : Sealed n) (hnew : m p = none) (ha : Ample 2 fs) : ∃ fs',
    pagedInsert env p (inodeToVal n) fs = some (.ok, fs') ∧ Spares 2 fs fs' := by
  obtain ⟨rc, fs', hput, hE⟩ := pagedInsert_apply he (names_fit hK hp n) h.rep ha.live
  have hsp := Spares.of_cost (hE.cheap ha) h.rep.pool
  obtain ⟨rc', fs₁, hput', hgood⟩ := h.pagedInsert he hK hp hs ha.live hnew
  obtain ⟨rfl, rfl⟩ := Prod.mk.inj (Option.some.inj (hput.symm.trans hput'))
  obtain ⟨rfl, -⟩ := hgood (hsp.live ha)
  exact ⟨fs', hput, hsp⟩

end index

section dirs

theorem slot_clean {fs : Fs} {d : Path} (hfind : dcacheFind fs d = none) (hslot : rivals fs d = ∅) :
    ¬((fs.dcache (dcIndex d)).valid = true ∧ (fs.dcache (dcIndex d)).dirty = true) := by
  rintro ⟨hv, hdirty⟩
  have hne : (fs.dcache (dcIndex d)).path ≠ d := fun hpath ↦ by
    rw [dcacheFind, if_pos ⟨hv, hpath⟩] at hfind
    cases hfind
  exact Set.notMem_empty _ (hslot ▸ (show (fs.dcache (dcIndex d)).path ∈ rivals fs d from
    ⟨⟨hv, hdirty, rfl⟩, hne⟩))

theorem dcacheAlloc_clean {env : Env} {fs : Fs} {d : Path} (hfind : dcacheFind fs d = none)
    (hslot : rivals fs d = ∅) : DirCache.dcacheAlloc env d fs =
      some ((), withListing fs (dcIndex d) ⟨d, [], 0, false, true⟩) := by
  simp only [DirCache.dcacheAlloc, bind_apply, get_apply, Option.bind_some,
    slot_clean hfind hslot, ↓reduceIte]
  rfl

variable {env : Env} (he : Healthy env) {K : Path → Prop} (hK : Names K) {m : Inodes} {fs : Fs}
  (h : Sound K m ∅ fs) {d : Path} {n : Inode}
include he hK h

/-- A directory that is in the cache, or whose slot there holds nothing to write back, is opened. -/
theorem Sound.dirOpen_returns (hd : K d) (hn : m d = some n) (ht : n.iFileType = ftDir)
    (hslot : rivals fs d = ∅) : ∃ fs', DirCache.dirOpen env d fs = some (.ok, fs') ∧
      fs'.sb = fs.sb := by
  cases hfind : dcacheFind fs d with
  | some e =>
    refine ⟨fs, ?_, rfl⟩
    simp only [DirCache.dirOpen, bind_apply, get_apply, Option.bind_some, hfind, pure_apply]
  | none =>
    obtain ⟨fs', hopen, -, -, -, hsb⟩ := h.openClaimed he hK hd hn ht hfind
      fun hv hdirty ↦ (slot_clean hfind hslot ⟨hv, hdirty⟩).elim
    refine ⟨fs', ?_, hsb⟩
    rw [dirOpen_miss hfind, bind_apply, dcacheAlloc_clean hfind hslot, Option.bind_some, hopen]

theorem Sound.dirAddChild_returns (hd : K d) (hn : m d = some n) (ht : n.iFileType = ftDir)
    (hslot : rivals fs d = ∅) (name : Path) (type : UInt8) : ∃ rc fs',
      DirCache.dirAddChild env d name type fs = some (rc, fs') ∧ fs'.sb = fs.sb := by
  obtain ⟨fs₁, hopen, hsb⟩ := h.dirOpen_returns he hK hd hn ht hslot
  rw [DirCache.dirAddChild, bind_apply, hopen, Option.bind_some]
  simp only [bind_apply, get_apply, Option.bind_some, if_apply]
  split
  · rw [he.osAlloc_apply]
    exact ⟨_, _, rfl, hsb⟩
  · exact ⟨_, _, rfl, hsb⟩

theorem Sound.dirRemoveChild_returns (hd : K d) (hn : m d = some n) (ht : n.iFileType = ftDir)
    (hslot : rivals fs d = ∅) (name : Path) : ∃ rc fs',
      DirCache.dirRemoveChild env d name fs = some (rc, fs') ∧ fs'.sb = fs.sb := by
  obtain ⟨fs₁, hopen, hsb⟩ := h.dirOpen_returns he hK hd hn ht hslot
  rw [DirCache.dirRemoveChild, bind_apply, hopen, Option.bind_some]
  simp only [bind_apply, get_apply, Option.bind_some]
  cases (fs₁.dcache (dcIndex d)).children.findIdx? fun c ↦ childMatches c name with
  | none => exact ⟨_, _, rfl, hsb⟩
  | some i => exact ⟨_, _, rfl, hsb⟩

end dirs

section entries

variable {env : Env} (he : Healthy env) {K : Path → Prop} (hK : Names K) {m : Inodes} {fs : Fs}
  (h : Sound K m ∅ fs) {p : Path} {n : Inode}
include he hK h

theorem Sound.makeEntry_returns (hp : K p) (hv : Vacant m fs p) (hn : Hollow n)
    (hslot : rivals fs (getParentPath p) = ∅) (type : UInt8) {count : Super → Super}
    (hcount : Counts (· + 1) count) (ha : Ample 2 fs) : ∃ fs',
      makeEntry env p n type count fs = some (.ok, fs') ∧ Spares 2 fs fs' := by
  obtain ⟨L, hb⟩ := h.backed
  obtain ⟨fs₁, hins, hsp⟩ := insert_returns he hK hb hp hn.whole hv.absent ha
  obtain ⟨rc, fs₂, hins', hgood⟩ :=
    h.insertBoth he hK hp (hv.fits h hn) hn.whole ha.live hv.absent
  obtain ⟨rfl, rfl⟩ := Prod.mk.inj (Option.some.inj (hins.symm.trans hins'))
  obtain ⟨-, fs₂, hput, hsb₂, hR⟩ := hgood (hsp.live ha)
  obtain ⟨x, hx, htx⟩ := kind_some hv.parent
  have hne : getParentPath p ≠ p := by
    intro hc
    rw [hc, hv.absent] at hx
    cases hx
  have hriv : rivals fs₂ (getParentPath p) = ∅ := by
    rw [← hslot, rivals, rivals, dirtyAt, dirtyAt, hR.dcache]
  obtain ⟨rc', fs₃, hadd, hsb₃⟩ := hR.sound.dirAddChild_returns he hK (hK.parent p hp)
    ((update_of_ne hne _ _).trans hx) htx hriv (getBasename p) type
  obtain ⟨l, hun⟩ := unlocked_eq .write { fs₃ with sb := count fs₃.sb } Rc.ok
  refine ⟨{ fs₃ with sb := count fs₃.sb, lock := l }, ?_, ?_⟩
  · rw [makeEntry, bind_apply, hins, Option.bind_some, if_pos rfl]
    simp only [bind_apply, hput, Option.bind_some, discard_apply, hadd, modify_apply]
    exact hun
  · obtain ⟨hD, hB, hF, -⟩ := hcount.pool fs₃.sb
    refine (hsp.trans (spares_sb (hsb₃.trans hsb₂))).trans (spares_same ?_ ?_ ?_)
    · exact hD
    · exact hB
    · exact hF

theorem Sound.create_returns {path : Path} {mode uid gid : UInt16} (hp : K (pathNormalize path))
    (hc : cell fs.icache (pathNormalize path) = none) (hv : Vacant m fs (pathNormalize path))
    (hslot : rivals fs (getParentPath (pathNormalize path)) = ∅) (ha : Ample 2 fs) : ∃ fs',
      xxfsCreate env path mode uid gid fs = some (.ok, fs') ∧ Spares 2 fs fs' := by
  obtain ⟨l, hl⟩ := lock_eq .write fs
  have hlook := h.lookup_isSome hK hp
  rw [hc] at hlook
  have hn : Hollow (createdInode (pathNormalize path) mode uid gid fs.cowGen) :=
    hollow_sealed rfl rfl rfl
  obtain ⟨fs', hmake, hsp⟩ := (h.relock l).sound.makeEntry_returns he hK hp (hv.relock l) hn hslot
    ftReg.toUInt8 counts_file ⟨ha.pool, ha.addr⟩
  refine ⟨fs', ?_, fun j hj ↦ hsp j ⟨hj.pool, hj.addr⟩⟩
  rw [xxfsCreate, fsWlock, bind_apply, hl, Option.bind_some]
  simp only [bind_apply, get_apply, Option.bind_some, hlook, Option.isSome_none,
    Bool.false_eq_true, ↓reduceIte]
  exact hmake

end entries

/-- A cache and an index that can be read, whatever else is wrong. -/
structure Basis (K : Path → Prop) (m : Inodes) (fs : Fs) : Prop where
  settled : Settled K fs.icache
  backed : ∃ F L, Backed K m F fs L

theorem Sound.basis {K : Path → Prop} {m : Inodes} {fs : Fs} (h : Sound K m ∅ fs) : Basis K m fs :=
  ⟨h.settled, _, h.backed⟩

section basis

variable {env : Env} (he : Healthy env) {K : Path → Prop} (hK : Names K) {m : Inodes} {fs : Fs}
  (h : Basis K m fs) {p : Path}

theorem Basis.same {fs' : Fs} (h : Basis K m fs) (hi : fs'.img = fs.img) (hs : fs'.sb = fs.sb)
    (hd : fs'.pdir = fs.pdir) (hc : fs'.pcache = fs.pcache) (hset : Settled K fs'.icache) :
    Basis K m fs' := by
  obtain ⟨F, L, hb⟩ := h.backed
  exact ⟨hset, F, L, hb.same hi hs hd hc⟩

include he hK h

theorem Basis.current (hp : K p) : ∃ fs',
    currentInode env p fs = some (answered (seen m fs p), fs') ∧ Basis K m fs' ∧
      IndexOnly (fun _ ↦ True) fs fs' ∧ fs'.sb = fs.sb := by
  have hcache : icacheInode fs.icache (xxh64 p) = (cell fs.icache p).map Prod.fst :=
    h.settled.icacheInode (hK.untwinned hp)
  cases hc : cell fs.icache p with
  | none =>
    obtain ⟨F, L, hb⟩ := h.backed
    rw [hc, Option.map_none] at hcache
    obtain ⟨fs', hget, hb', hk, hsb⟩ := hb.inodePagedGet he (hK.length_lt hp)
    refine ⟨fs', ?_, ⟨?_, F, L, hb'⟩, hk.only, hsb⟩
    · rw [seen, cur, hc]
      simp only [currentInode, bind_apply, get_apply, Option.bind_some, hcache]
      exact hget
    · rw [hk.only.icache]
      exact h.settled
  | some x =>
    rw [hc, Option.map_some] at hcache
    refine ⟨fs, ?_, h, refl_of (IndexOnly _) fs, rfl⟩
    rw [seen, cur, hc]
    simp only [currentInode, bind_apply, get_apply, Option.bind_some, hcache]
    rfl

theorem Basis.stat {path : Path} (hp : Untwinned K (pathNormalize path)) : ∃ fs',
    xxfsStat env path fs = some (answered (seen m fs (pathNormalize path)), fs') := by
  have hlen : (pathNormalize path).length < 2 ^ 32 := (pathNormalize_length path).trans (by decide)
  generalize hpn : pathNormalize path = p at *
  obtain ⟨l, hl⟩ := lock_eq .read fs
  have hcache : icacheInode fs.icache (xxh64 p) = (cell fs.icache p).map Prod.fst :=
    h.settled.icacheInode hp
  rw [xxfsStat, fsRlock, bind_apply, hl, Option.bind_some]
  simp only [bind_apply, get_apply, Option.bind_some, hpn]
  cases hc : cell fs.icache p with
  | some x =>
    rw [hc, Option.map_some] at hcache
    rw [hcache, seen, cur, hc]
    obtain ⟨l', hl'⟩ := unlocked_eq .read { fs with lock := l } (answered (some x.1))
    exact ⟨_, hl'⟩
  | none =>
    obtain ⟨F, L, hb⟩ := h.backed
    rw [hc, Option.map_none] at hcache
    have hb₀ : Backed K m F { fs with lock := l } L := hb.same rfl rfl rfl rfl
    obtain ⟨fs₁, hget, hb₁, hk, hsb⟩ := hb₀.inodePagedGet he hlen
    rw [hcache, seen, cur, hc]
    simp only [bind_apply, hget, Option.bind_some, Option.map_none, Option.none_or]
    cases hm : m p with
    | none =>
      obtain ⟨l', hl'⟩ := unlocked_eq .read fs₁ (answered none)
      exact ⟨_, hl'⟩
    | some n =>
      have hset : Settled K fs₁.icache := by
        rw [hk.only.icache]
        exact h.settled
      have hin : K p := hb.names (hm ▸ Option.some_ne_none n)
      obtain ⟨c, t, hput, -⟩ := icachePut_apply he hK.distinct hset hin n
      simp only [answered, bind_apply, hput, Option.bind_some]
      obtain ⟨l', hl'⟩ := unlocked_eq .read { fs₁ with icache := c, clock := t } (answered (some n))
      exact ⟨_, hl'⟩

theorem Basis.readdir_empty {path : Path} (hp : K (pathNormalize path))
    (hfind : dcacheFind fs (pathNormalize path) = none) {n : Inode}
    (hn : m (pathNormalize path) = some n) (ht : n.iFileType = ftDir) (h0 : n.iSize = 0) :
    ∃ fs', xxfsReaddir env path fs = some (.ok [], fs') := by
  generalize hpn : pathNormalize path = p at *
  obtain ⟨l, hl⟩ := lock_eq .read fs
  have hmiss : dcacheFind { fs with lock := l } p = none := hfind
  obtain ⟨F, L, hb⟩ := h.backed
  have hb₀ : Backed K m F { fs with lock := l } L := hb.same rfl rfl rfl rfl
  obtain ⟨fs₁, hget, -⟩ := hb₀.inodePagedGet he (hK.length_lt hp)
  obtain ⟨l', hl'⟩ := unlocked_eq .read fs₁ (Except.ok [] : Except Rc (List DirChild))
  refine ⟨{ fs₁ with lock := l' }, ?_⟩
  rw [xxfsReaddir, fsRlock, bind_apply, hl, Option.bind_some, hpn]
  simp only [bind_apply, get_apply, Option.bind_some, hmiss, hget, hn, answered]
  rw [if_neg (not_not.mpr ht), if_pos (.inl h0)]
  exact hl'

/-- What storing an inode leaves. -/
structure Filed (K : Path → Prop) (m : Inodes) (p : Path) (n : Inode) (fs fs' : Fs) : Prop where
  basis : Basis K (update m p (some n)) fs'
  cells : cell fs'.icache = update (cell fs.icache) p (some (n, true))
  dcache : fs'.dcache = fs.dcache
  count : fs'.sb.sInodesCount = fs.sb.sInodesCount
  spares : Spares 2 fs fs'

theorem Basis.storeTail (hp : K p) {n : Inode} (hs : Sealed n) (ha : Ample 2 fs) : ∃ fs',
    storeTail env p n fs = some (.ok, fs') ∧ Filed K m p n fs fs' := by
  obtain ⟨F, L, hb⟩ := h.backed
  obtain ⟨fs₁, hput, hsp, hk, L', hb'⟩ := put_returns he hK hb hp hs ha
  have hset : Settled K fs₁.icache := by
    rw [hk.only.icache]
    exact h.settled
  obtain ⟨c, t, hcache, hset', hcell, -⟩ := icachePut_apply he hK.distinct hset hp n
  obtain ⟨l, hl⟩ := unlocked_eq .write { fs₁ with icache := c, clock := t } Rc.ok
  refine ⟨{ fs₁ with icache := c, clock := t, lock := l }, ?_, ⟨hset', F, L', ?_⟩, ?_,
    hk.only.dcache, hk.only.inodes, ?_⟩
  · rw [Soundness.storeTail, bind_apply, hput, Option.bind_some, if_pos rfl, bind_apply, hcache,
      Option.bind_some]
    exact hl
  · exact hb'.same rfl rfl rfl rfl
  · rw [← hk.only.icache]
    exact hcell
  · exact fun j hj ↦ ⟨(hsp j hj).pool, (hsp j hj).addr⟩

omit he hK h in
theorem Filed.seen {n : Inode} {fs' : Fs} (hF : Filed K m p n fs fs') :
    seen (update m p (some n)) fs' = update (seen m fs) p (some n) := by
  funext q
  rw [Soundness.seen, cur, hF.cells]
  by_cases hq : q = p
  · rw [hq, update_self, update_self, update_self]
    rfl
  · rw [update_of_ne hq, update_of_ne hq, update_of_ne hq]
    rfl

omit he hK h in
theorem Filed.after {n : Inode} {fs₁ fs' : Fs} (hF : Filed K m p n fs₁ fs')
    (hi : fs₁.icache = fs.icache) (hd : fs₁.dcache = fs.dcache) (hs : fs₁.sb = fs.sb) :
    Filed K m p n fs fs' :=
  ⟨hF.basis, by rw [hF.cells, hi], hF.dcache.trans hd, by rw [hF.count, hs],
    fun j hj ↦ hF.spares j ⟨by rw [hs]; exact hj.pool, by rw [hs]; exact hj.addr⟩⟩

/-- A link is made under any path that does not exist, with or without a parent. -/
theorem Basis.symlink {target linkpath : Path} (hp : K (pathNormalize linkpath))
    (hc : cell fs.icache (pathNormalize linkpath) = none) (hm : m (pathNormalize linkpath) = none)
    (ht : target.length ≤ inlineMax) (ha : Ample 2 fs) : ∃ now fs',
      xxfsSymlink env target linkpath fs = some (.ok, fs') ∧
        Filed K m (pathNormalize linkpath) (linkInode target now) fs fs' := by
  rw [xxfsSymlink, if_neg (Nat.not_lt.mpr ht)]
  generalize pathNormalize linkpath = p at *
  obtain ⟨l, hl⟩ := lock_eq .write fs
  have hcache : icacheInode fs.icache (xxh64 p) = (cell fs.icache p).map Prod.fst :=
    h.settled.icacheInode (hK.untwinned hp)
  rw [hc, Option.map_none] at hcache
  obtain ⟨F, L, hb⟩ := h.backed
  have hb₀ : Backed K m F { fs with lock := l } L := hb.same rfl rfl rfl rfl
  obtain ⟨fs₁, hget, hb₁, hk, hsb⟩ := hb₀.inodePagedGet he (hK.length_lt hp)
  have hfetch : fetchInode env p { fs with lock := l } = some (none, fs₁) := by
    simp only [fetchInode, bind_apply, get_apply, Option.bind_some, hcache, hget, hm]
    rfl
  have h₁ : Basis K m { fs₁ with clock := fs₁.clock + 1 } := by
    refine ⟨?_, F, L, hb₁.same rfl rfl rfl rfl⟩
    have hset := h.settled
    rw [← hk.only.icache] at hset
    exact hset
  have ha₁ : Ample 2 { fs₁ with clock := fs₁.clock + 1 } :=
    ⟨by rw [hsb]; exact ha.pool, by rw [hsb]; exact ha.addr⟩
  obtain ⟨fs', hstore, hF⟩ := h₁.storeTail he hK hp
    (sealed_inodeSetChecksumEcc _ : Sealed (linkInode target (env.time fs₁.clock))) ha₁
  refine ⟨env.time fs₁.clock, fs', ?_, hF.after hk.only.icache hk.only.dcache hsb⟩
  rw [fsWlock, bind_apply, hl, Option.bind_some, bind_apply, hfetch, Option.bind_some]
  exact hstore

theorem Basis.setAttr {set : Inode → Inode} {path : Path} (hp : K (pathNormalize path)) {n : Inode}
    (hm : m (pathNormalize path) = some n) (ha : Ample 2 fs) : ∃ now fs',
      Operations.setAttr env set path fs = some (.ok, fs') ∧
        Filed K m (pathNormalize path) (attrInode set n now) fs fs' := by
  rw [Operations.setAttr]
  generalize pathNormalize path = p at *
  obtain ⟨l, hl⟩ := lock_eq .write fs
  obtain ⟨F, L, hb⟩ := h.backed
  have hb₀ : Backed K m F { fs with lock := l } L := hb.same rfl rfl rfl rfl
  obtain ⟨fs₁, hget, hb₁, hk, hsb⟩ := hb₀.inodePagedGet he (hK.length_lt hp)
  have h₁ : Basis K m { fs₁ with clock := fs₁.clock + 1 } := by
    refine ⟨?_, F, L, hb₁.same rfl rfl rfl rfl⟩
    have hset := h.settled
    rw [← hk.only.icache] at hset
    exact hset
  have ha₁ : Ample 2 { fs₁ with clock := fs₁.clock + 1 } :=
    ⟨by rw [hsb]; exact ha.pool, by rw [hsb]; exact ha.addr⟩
  obtain ⟨fs', hstore, hF⟩ := h₁.storeTail he hK hp
    (sealed_inodeSetChecksumEcc _ : Sealed (attrInode set n (env.time fs₁.clock))) ha₁
  refine ⟨env.time fs₁.clock, fs', ?_, hF.after hk.only.icache hk.only.dcache hsb⟩
  rw [fsWlock, bind_apply, hl, Option.bind_some, bind_apply, hget, Option.bind_some, hm]
  exact hstore

/-- A write that ends within the inline area only changes the cached inode, also if the file has
blocks. -/
theorem Basis.writeInline {path : Path} {buf : ℕ → UInt8} {off : UInt64} {len : UInt32}
    (hp : K (pathNormalize path)) {n : Inode} (hn : seen m fs (pathNormalize path) = some n)
    (ht : n.iFileType ≠ ftDir) (hlen : len ≠ 0) (hend : off.toNat + len.toNat ≤ inlineMax) : ∃ fs',
      xxfsWrite env path buf off len fs = some (.ok, fs') ∧ Basis K m fs' ∧
        cell fs'.icache =
          update (cell fs.icache) (pathNormalize path) (some (inlined n buf off len, true)) ∧
        fs'.dcache = fs.dcache ∧ fs'.sb = fs.sb := by
  rw [xxfsWrite, if_neg hlen]
  generalize pathNormalize path = p at *
  have h128 : inlineMax = 128 := rfl
  obtain ⟨l, hl⟩ := lock_eq .write fs
  have h₀ : Basis K m { fs with lock := l } := h.same rfl rfl rfl rfl h.settled
  obtain ⟨fs₁, hcur, h₁, hio, hsb⟩ := h₀.current he hK hp
  have hseen : seen m { fs with lock := l } p = some n := hn
  rw [hseen] at hcur
  obtain ⟨c, t, hput, hset, hcell, -⟩ := icachePut_apply he hK.distinct h₁.settled hp
    (inlined n buf off len)
  obtain ⟨l', hl'⟩ := unlocked_eq .write { fs₁ with icache := c, clock := t } Rc.ok
  refine ⟨{ fs₁ with icache := c, clock := t, lock := l' }, ?_, h₁.same rfl rfl rfl rfl hset, ?_,
    hio.dcache, hsb⟩
  · rw [fsWlock, bind_apply, hl, Option.bind_some, bind_apply, hcur, Option.bind_some]
    dsimp only [answered]
    rw [if_neg ht, if_pos (by rw [end_toNat (by omega)]; exact hend)]
    change (icachePut env (xxh64 p) p (inlined n buf off len) fs₁).bind _ = _
    rw [hput, Option.bind_some]
    exact hl'
  · dsimp only
    rw [hcell, hio.icache]

end basis

section write

variable {env : Env} (he : Healthy env) {K : Path → Prop} (hK : Names K) {m : Inodes} {fs : Fs}
  (h : Sound K m ∅ fs) {path : Path} {n : Inode} {buf : ℕ → UInt8} {off : UInt64} {len : UInt32}
include he hK h

theorem Sound.write_returns (hp : K (pathNormalize path))
    (hn : seen m fs (pathNormalize path) = some n) (ht : n.iFileType ≠ ftDir) (hlen : len ≠ 0)
    (hb : n.iBlocks = 0) (hs : n.iSize = 0) (hend : inlineMax < off.toNat + len.toNat)
    (hbound : off.toNat + len.toNat < 2 ^ 63)
    (ha : Ample ((off.toNat + len.toNat + 4095) / 4096) fs) : ∃ fs',
      xxfsWrite env path buf off len fs = some (.ok, fs') ∧
        Spares ((off.toNat + len.toNat + 4095) / 4096) fs fs' := by
  rw [xxfsWrite, if_neg hlen]
  generalize pathNormalize path = p at *
  have h128 : inlineMax = 128 := rfl
  have hend' := end_toNat hbound
  generalize hk : blocksFor (off + len.toUInt64) = k
  have hkn : k.toNat = (off.toNat + len.toNat + 4095) / 4096 := by
    rw [← hk, blocksFor_toNat (by omega), hend']
  rw [← hkn] at ha ⊢
  obtain ⟨l, hl⟩ := lock_eq .write fs
  obtain ⟨fs₁, hcur, hs₁, hkept, hsb⟩ := (h.relock l).sound.current he hK hp
  rw [(h.relock l).seen, hn] at hcur
  have hk0 : k ≠ 0 := fun h0 ↦ by
    rw [h0] at hkn
    change 0 = _ at hkn
    omega
  have hle : k ≤ fs₁.sb.sFreeBlocks := by
    rw [hsb, UInt64.le_iff_toNat_le]
    exact ha.pool.le
  have hpos : 0 < fs₁.sb.sFreeBlocks.toNat :=
    (pos_of_ne_zero hk0).trans_le (UInt64.le_iff_toNat_le.mp hle)
  have hoff := nextOff_toNat hs₁.pool hpos
  have hfront : front fs₁.sb = front fs.sb := by rw [hsb]
  have haddr := ha.addr
  have hne : nextOff fs₁.sb ≠ 0 := fun h0 ↦ by
    have hlow := hs₁.super_low
    rw [h0] at hoff
    change 0 = _ at hoff
    omega
  have hleave : leaveInline env n fs₁ = some (.ok n, fs₁) := by
    rw [leaveInline, if_neg (fun hc ↦ by rw [hs] at hc; exact absurd hc.1 (by decide))]
    rfl
  have hgrow : growExtent env n k fs₁ =
      some (.ok (withBlocks n (nextOff fs₁.sb) k.toUInt32 k), { fs₁ with sb := taken fs₁.sb k }) := by
    rw [growExtent, if_pos (by rw [hb]; exact UInt64.pos_iff_ne_zero.mpr hk0), bind_apply, hb,
      UInt64.sub_zero, pageAllocN_free env hk0 hle, Option.bind_some]
    dsimp only
    rw [if_neg hne, if_neg (fun hc ↦ absurd hc.1 (by decide))]
    rfl
  have hio := withBlocks_off n (nextOff fs₁.sb) k.toUInt32 k
  have hat : ((withBlocks n (nextOff fs₁.sb) k.toUInt32 k).iExtentOff + off).toNat < 2 ^ 63 := by
    rw [hio, UInt64.toNat_add, hoff, hfront]
    refine lt_of_le_of_lt (Nat.mod_le _ _) ?_
    omega
  obtain ⟨fs₂, hwrite, hi₂, hsb₂⟩ : ∃ fs₂, osPwrite env buf len.toNat
      ((withBlocks n (nextOff fs₁.sb) k.toUInt32 k).iExtentOff + off)
      { fs₁ with sb := taken fs₁.sb k } = some (true, fs₂) ∧ fs₂.icache = fs₁.icache ∧
        fs₂.sb = taken fs₁.sb k := ⟨_, he.osPwrite_apply _ _ _ hat, rfl, rfl⟩
  have hset : Settled K fs₂.icache := by
    rw [hi₂]
    exact hs₁.settled
  obtain ⟨c, t, hput, -⟩ := icachePut_apply he hK.distinct hset hp
    { withBlocks n (nextOff fs₁.sb) k.toUInt32 k with
      iSize := maxSize (withBlocks n (nextOff fs₁.sb) k.toUInt32 k).iSize (off + len.toUInt64) }
  obtain ⟨l', hl'⟩ := unlocked_eq .write { fs₂ with icache := c, clock := t } Rc.ok
  refine ⟨{ fs₂ with icache := c, clock := t, lock := l' }, ?_, ?_⟩
  · rw [fsWlock, bind_apply, hl, Option.bind_some, bind_apply, hcur, Option.bind_some]
    dsimp only [answered]
    rw [if_neg ht, if_neg (by rw [hend']; omega), bind_apply, hleave, Option.bind_some]
    dsimp only
    rw [bind_apply, hk, hgrow, Option.bind_some]
    dsimp only
    rw [bind_apply, hwrite, Option.bind_some, if_pos rfl, bind_apply, hput, Option.bind_some]
    exact hl'
  · have hcost : Cost k.toNat fs₁ { fs₂ with icache := c, clock := t, lock := l' } :=
      ⟨k, le_rfl, hle, hsb₂⟩
    intro j hj
    exact Spares.of_cost hcost hs₁.pool j ⟨by rw [hsb]; exact hj.pool, by rw [hsb]; exact hj.addr⟩

end write

end Xxfs.Soundness

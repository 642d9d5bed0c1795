import Xxfs.NamespaceRuns
import Xxfs.OnePage

namespace Xxfs.RenameFailures

open Function
open Xxfs.DiskFormat Xxfs.Machine Xxfs.Allocator Xxfs.PageCache Xxfs.PagedIndex Xxfs.PageStore
open Xxfs.InodeCache Xxfs.DirCache Xxfs.Volume Xxfs.Operations Xxfs.Hash Xxfs.PathName Xxfs.CacheMap
open Xxfs.Checksum Xxfs.IndexState Xxfs.IndexRep Xxfs.FreshVolume Xxfs.FreshIndex Xxfs.Runs
open Xxfs.Soundness Xxfs.NamespaceRuns Xxfs.OperationFrames Xxfs.Frames Xxfs.OnePage
open Xxfs.Lib Xxfs.Lib.Computation Xxfs.Lib.Computation.Comp Xxfs.Lib.ProbeTable

/-- An inode up to the time of its last change and the check bytes. -/
def bare (n : Inode) : Inode := { n with iCtime := 0, iChecksum := 0, iEcc := fun _ ↦ 0 }

theorem bare_iName (n : Inode) : (bare n).iName = n.iName := rfl

/-- What `xxfs_stat` answers under an operating system that starts afresh. -/
def statOut (o : Env) (path : Path) (fs : Fs) : Option (Except Rc Inode) :=
  (xxfsStat o path { fs with clock := 0 }).map fun r ↦ r.1.map bare

def readBytes (o : Env) (path : Path) (buf : ℕ → UInt8) (off : UInt64) (len : UInt32) (fs : Fs) :
    Option ReadOut :=
  (xxfsRead o path buf off len { fs with clock := 0 }).map Prod.fst

/-- `xxfs_stat` and `xxfs_read` answer the same for every path. -/
def SameView (fs fs' : Fs) : Prop := ∀ o path, Healthy o → statOut o path fs' = statOut o path fs ∧
  ∀ buf off len, readBytes o path buf off len fs' = readBytes o path buf off len fs

/-- What a lookup finds: an inode of the cache with the hash of the path, else the indexed one. -/
def glance (m : Inodes) (fs : Fs) (p : Path) : Option Inode :=
  (icacheInode fs.icache (xxh64 p)).or (m p)

section lookups

variable {o : Env} {fs : Fs} {path path' : Path} {n : Inode}

theorem stat_hit (hn : icacheInode fs.icache (xxh64 (pathNormalize path)) = some n) :
    ∃ fs', xxfsStat o path fs = some (.ok n, fs') := by
  obtain ⟨l, hlock⟩ := lock_eq .read fs
  obtain ⟨l', hunlock⟩ := unlocked_eq .read { fs with lock := l } (Except.ok n : Except Rc Inode)
  refine ⟨_, (?_ : _ = _).trans hunlock⟩
  rw [xxfsStat, fsRlock, bind_apply, hlock, Option.bind_some]
  simp only [bind_apply, get_apply, Option.bind_some, hn]
  rfl

theorem read_alias (hn : icacheInode fs.icache (xxh64 (pathNormalize path)) = some n)
    (hh : xxh64 (pathNormalize path') = xxh64 (pathNormalize path)) (buf : ℕ → UInt8) (off : UInt64)
    (len : UInt32) : xxfsRead o path buf off len fs = xxfsRead o path' buf off len fs := by
  have hfetch (p : Path) (hp : xxh64 p = xxh64 (pathNormalize path)) (l : Lock) :
      fetchInode o p { fs with lock := l } = some (some n, { fs with lock := l }) := by
    simp only [fetchInode, bind_apply, get_apply, Option.bind_some, hp, hn, pure_apply]
  obtain ⟨l, hlock⟩ := lock_eq .read fs
  simp only [xxfsRead, fsRlock]
  split
  · rfl
  · simp only [bind_apply, hlock, Option.bind_some, hfetch _ rfl l, hfetch _ hh l]

end lookups

section views

variable {K : Path → Prop} (hK : Names K) {m : Inodes} {fs fs' : Fs} (h : Sound K m ∅ fs)
include hK h

theorem glance_named {p : Path} (hp : K p) : glance m fs p = seen m fs p := by
  rw [glance, h.cacheGet (hK.untwinned hp)]
  rfl

omit hK in
theorem glance_hit {p : Path} {n : Inode} (hn : icacheInode fs.icache (xxh64 p) = some n) :
    ∃ k, K k ∧ xxh64 k = xxh64 p := by
  obtain ⟨i, hi, hx⟩ := Option.bind_eq_some_iff.mp hn
  obtain ⟨-, e, he, hh⟩ := of_lookup hi
  obtain ⟨k, hk, -, hhash⟩ := h.settled.entry i e he
  exact ⟨k, hk, hhash.symm.trans hh⟩

omit hK in
theorem unnamed_absent {p : Path} (hp : ¬K p) : m p = none := by
  by_contra hne
  exact hp (h.names hne)

variable {o : Env} (ho : Healthy o) (path : Path)
include ho

theorem stat_glance : ∃ fs', xxfsStat o path fs =
    some (answered (glance m fs (pathNormalize path)), fs') := by
  cases hn : icacheInode fs.icache (xxh64 (pathNormalize path)) with
  | some n =>
    rw [glance, hn]
    exact stat_hit hn
  | none =>
    by_cases hp : K (pathNormalize path)
    · rw [glance_named hK h hp]
      obtain ⟨fs', hx, -⟩ := h.stat ho hK (hK.untwinned hp)
      exact ⟨fs', hx⟩
    · have hlen : (pathNormalize path).length < 2 ^ 32 :=
        (pathNormalize_length path).trans (by decide)
      have hm := unnamed_absent h hp
      obtain ⟨l, hlock⟩ := lock_eq .read fs
      obtain ⟨fs₁, hget, -⟩ := (h.relock l).sound.indexGet ho hlen
      obtain ⟨l', hunlock⟩ := unlocked_eq .read fs₁ (Except.error .enoent : Except Rc Inode)
      rw [hm] at hget
      refine ⟨{ fs₁ with lock := l' }, ?_⟩
      rw [glance, hn, hm, xxfsStat, fsRlock, bind_apply, hlock, Option.bind_some]
      simp only [bind_apply, get_apply, Option.bind_some, hn, hget, answered]
      exact hunlock

theorem read_glance (buf : ℕ → UInt8) (off : UInt64) {len : UInt32} (hlen : len ≠ 0) : ∃ fs',
    xxfsRead o path buf off len fs =
      some (readOut fs.img (glance m fs (pathNormalize path)) buf off len, fs') := by
  by_cases hp : K (pathNormalize path)
  · obtain ⟨fs', hx, -⟩ := h.read ho hK (hK.untwinned hp) hlen
    rw [glance_named hK h hp]
    exact ⟨fs', hx⟩
  cases hn : icacheInode fs.icache (xxh64 (pathNormalize path)) with
  | some n =>
    obtain ⟨k, hk, hh⟩ := glance_hit h hn
    have hnorm := hK.normalize hk
    have hlone : Untwinned K (pathNormalize k) := hnorm.symm ▸ hK.untwinned hk
    obtain ⟨fs', hx, -⟩ := h.read ho hK hlone hlen
    refine ⟨fs', (read_alias hn (hnorm.symm ▸ hh) buf off len).trans (hx.trans ?_)⟩
    rw [hnorm, ← glance_named hK h hk, glance, glance, hh, hn]
    rfl
  | none =>
    have hshort : (pathNormalize path).length < 2 ^ 32 :=
      (pathNormalize_length path).trans (by decide)
    have hm := unnamed_absent h hp
    obtain ⟨l, hlock⟩ := lock_eq .read fs
    obtain ⟨fs₁, hget, -⟩ := (h.relock l).sound.indexGet ho hshort
    obtain ⟨l', hunlock⟩ := unlocked_eq .read fs₁ (⟨.enoent, 0, buf⟩ : ReadOut)
    rw [hm] at hget
    refine ⟨{ fs₁ with lock := l' }, ?_⟩
    rw [glance, hn, hm]
    simp only [xxfsRead, hlen, ↓reduceIte, fsRlock, bind_apply, hlock, Option.bind_some, fetchInode,
      get_apply, hn, hget, answered, pure_apply]
    exact hunlock

omit ho path in
/-- Nothing shows if the cached inodes stay and the rest has only been looked at. -/
theorem sameView_looked (hL : Looked K m fs fs') (hi : fs'.icache = fs.icache) : SameView fs fs' := by
  intro o path ho
  have hglance : glance m fs' (pathNormalize path) = glance m fs (pathNormalize path) := by
    rw [glance, glance, hi]
  refine ⟨?_, fun buf off len ↦ ?_⟩
  · obtain ⟨fs₁, hx⟩ := stat_glance hK (h.clockTo 0) ho path
    obtain ⟨fs₂, hx'⟩ := stat_glance hK (hL.sound.clockTo 0) ho path
    rw [statOut, statOut, hx, hx', Option.map_some, Option.map_some]
    exact congrArg (fun g ↦ some ((answered g).map bare)) hglance
  · by_cases hlen : len = 0
    · simp only [readBytes, xxfsRead, hlen, ↓reduceIte, pure_apply, Option.map_some]
    obtain ⟨fs₁, hx⟩ := read_glance hK (h.clockTo 0) ho path buf off hlen
    obtain ⟨fs₂, hx'⟩ := read_glance hK (hL.sound.clockTo 0) ho path buf off hlen
    rw [readBytes, readBytes, hx, hx', Option.map_some, Option.map_some]
    refine congrArg some ?_
    change readOut fs'.img (glance m fs' (pathNormalize path)) buf off len =
      readOut fs.img (glance m fs (pathNormalize path)) buf off len
    rw [hglance]
    -- what is found is what is seen under some path
    by_cases hp : K (pathNormalize path)
    · rw [glance_named hK h hp]
      exact h.readOut_looked hL _ buf off len
    cases hn : icacheInode fs.icache (xxh64 (pathNormalize path)) with
    | some n =>
      obtain ⟨k, hk, hh⟩ := glance_hit h hn
      have hseen : glance m fs (pathNormalize path) = seen m fs k := by
        rw [← glance_named hK h hk, glance, glance, hh, hn]
        rfl
      rw [hseen]
      exact h.readOut_looked hL _ buf off len
    | none =>
      rw [glance, hn, unnamed_absent h hp]
      rfl

end views

section caches

variable {env : Env} {K : Path → Prop} {fs fs' : Fs} (hc : Settled K fs.icache) {p : Path}
include hc

theorem icacheRoom_settled (hx : icacheRoom env fs = some ((), fs')) : Settled K fs'.icache := by
  have hlt : ¬fs.icache.count ≥ icacheMaxEntries := Nat.not_le.mpr (hc.roomy.below _ .refl)
  simp only [icacheRoom, bind_apply, get_apply, Option.bind_some, if_apply, hlt, ↓reduceIte] at hx
  split at hx
  · rename_i hfull
    obtain ⟨b, fs₁, halloc, hend⟩ := of_bind hx
    have hsame : fs₁.icache = fs.icache := by
      rw [← (Prod.mk.inj (Option.some.inj halloc)).2]
    cases b with
    | true =>
      rw [← (Prod.mk.inj (Option.some.inj hend)).2]
      change Settled K (growTable fs₁.icache)
      rw [hsame]
      exact (hc.grow hfull).1
    | false =>
      rw [← (Prod.mk.inj (Option.some.inj hend)).2, hsame]
      exact hc
  · rw [← (Prod.mk.inj (Option.some.inj hx)).2]
    exact hc

/-- Whatever the operating system does, `icache_put` leaves the inode where it is found. -/
theorem icachePut_found (hp : K p) {n : Inode}
    (hx : icachePut env (xxh64 p) p n fs = some ((), fs')) :
    icacheInode fs'.icache (xxh64 p) = some n := by
  obtain ⟨_, fs₁, hroom, hplace⟩ := of_bind hx
  have hs := icacheRoom_settled hc hroom
  obtain ⟨i, hslot⟩ := Option.isSome_iff_exists.mp (hs.roomy.reaches _ p .refl hp)
  have hprobe := probe_mono hs.cap_le hslot
  -- the slot of the probe gets an entry with the hash of the path
  have hstored : ∃ e, fs'.icache.slots = store fs₁.icache.slots i (some e) ∧
      fs'.icache.cap = fs₁.icache.cap ∧ e.hash = xxh64 p ∧ e.inode = n := by
    simp only [icachePlace, bind_apply, get_apply, Option.bind_some, hprobe] at hplace
    cases hi : fs₁.icache.slots i with
    | none =>
      rw [hi] at hplace
      obtain ⟨b, fs₂, halloc, hend⟩ := of_bind hplace
      have hsame : fs₂.icache = fs₁.icache := by
        rw [← (Prod.mk.inj (Option.some.inj halloc)).2]
      rw [← (Prod.mk.inj (Option.some.inj hend)).2, ← hsame]
      exact ⟨_, rfl, rfl, rfl, rfl⟩
    | some e =>
      rw [hi] at hplace
      rw [← (Prod.mk.inj (Option.some.inj hplace)).2]
      refine ⟨_, rfl, rfl, ?_, rfl⟩
      rcases of_probe hslot with hn | ⟨x, hx, hh⟩
      · rw [hi] at hn
        cases hn
      · obtain rfl := Option.some.inj (hi.symm.trans hx)
        simpa using hh
  obtain ⟨e, hslots, hcap, hhash, hinode⟩ := hstored
  have hfound : slotFor fs'.icache 16 (xxh64 p) = some i := by
    rw [slotFor, hslots, hcap]
    exact probe_store hslot (by simp [hhash])
  have hat : fs'.icache.slots i = some e := by rw [hslots, store_eq]
  rw [icacheInode, icacheLookup_eq, hfound, Option.filter_some_pos (by rw [hat]; rfl),
    Option.bind_some, hat, Option.map_some, hinode]

theorem icachePut_returns (env : Env) (hp : K p) (n : Inode) :
    ∃ fs', icachePut env (xxh64 p) p n fs = some ((), fs') := by
  have hlt : ¬fs.icache.count ≥ icacheMaxEntries := Nat.not_le.mpr (hc.roomy.below _ .refl)
  obtain ⟨fs₁, hroom⟩ : ∃ fs₁, icacheRoom env fs = some ((), fs₁) := by
    simp only [icacheRoom, bind_apply, get_apply, Option.bind_some, if_apply, hlt, ↓reduceIte,
      icacheGrow, osAlloc, tick_apply, pure_apply]
    split
    · split
      · exact ⟨_, rfl⟩
      · exact ⟨_, rfl⟩
    · exact ⟨_, rfl⟩
  have hs := icacheRoom_settled hc hroom
  obtain ⟨i, hslot⟩ := Option.isSome_iff_exists.mp (hs.roomy.reaches _ p .refl hp)
  have hprobe := probe_mono hs.cap_le hslot
  rw [icachePut, bind_apply, hroom, Option.bind_some]
  simp only [icachePlace, bind_apply, get_apply, Option.bind_some, hprobe]
  cases fs₁.icache.slots i with
  | none => exact ⟨_, rfl⟩
  | some e => exact ⟨_, rfl⟩

end caches

/-- The lookup of a path meets no failure of the operating system. -/
def CalmGet (env : Env) (fs : Fs) (p : Path) : Prop := ∃ o, Healthy o ∧
  ∀ l, inodePagedGet env p { fs with lock := l } = inodePagedGet o p { fs with lock := l }

def renamedInode (n : Inode) (now : UInt64) (new : Path) : Inode :=
  inodeSetChecksumEcc { n with iCtime := now, iName := nameTerminated n.iName new }

theorem renamedInode_iName (n : Inode) (now : UInt64) (new : Path) :
    (renamedInode n now new).iName = nameTerminated n.iName new := by
  obtain ⟨c, e, -, hseal⟩ :=
    inodeSetChecksumEcc_eq { n with iCtime := now, iName := nameTerminated n.iName new }
  rw [renamedInode, hseal]
  rfl

section failures

variable {env out : Env} (he : Healthy env) {K : Path → Prop} (hK : Names K) {m : Inodes}
  {fs fs' : Fs} {old new : Path} {rc : Rc}
include hK

theorem rename_absent (h : Sound K m ∅ fs) (hcalm : CalmGet out fs (pathNormalize old))
    (hm : m (pathNormalize old) = none) (hx : xxfsRename out old new fs = some (rc, fs')) :
    SameView fs fs' := by
  have hlen : (pathNormalize old).length < 2 ^ 32 := (pathNormalize_length old).trans (by decide)
  obtain ⟨l, hx⟩ := locked_cases hx
  obtain ⟨o, ho, heq⟩ := hcalm
  have hL₀ := h.relock l
  obtain ⟨fs₁, hget, hs₁, hk₁, -⟩ := hL₀.sound.indexGet ho hlen
  rw [← heq l, hm] at hget
  rw [bind_apply, hget, Option.bind_some] at hx
  obtain ⟨-, l', rfl⟩ := unlocked_cases hx
  have hL₁ := hL₀.trans (hL₀.sound.looked_kept hk₁ hs₁) h.coherent
  refine sameView_looked hK h (hL₁.trans (hs₁.relock l') h.coherent) ?_
  exact hk₁.only.icache

/-- A path that is in the index: after a failed call `xxfs_stat` shows it under the new name. -/
theorem rename_shows (h : Sound K m ∅ fs) (hcalm : CalmGet out fs (pathNormalize old))
    (hfree : Frees K fs.icache (pathNormalize old)) {n : Inode} (hn : m (pathNormalize old) = some n)
    (hx : xxfsRename out old new fs = some (rc, fs')) (hrc : rc ≠ .ok) : ∃ now,
      icacheInode fs'.icache (xxh64 (pathNormalize old)) =
        some (renamedInode n now (pathNormalize new)) := by
  have hp : K (pathNormalize old) := h.names (by rw [hn]; exact Option.some_ne_none n)
  obtain ⟨l, hx⟩ := locked_cases hx
  obtain ⟨o, ho, heq⟩ := hcalm
  obtain ⟨fs₁, hget, hs₁, hk₁, -⟩ := (h.relock l).sound.indexGet ho (hK.length_lt hp)
  rw [← heq l, hn] at hget
  rw [bind_apply, hget, Option.bind_some] at hx
  dsimp only [answered] at hx
  rw [bind_apply, osTime_apply, Option.bind_some, ← renamedInode] at hx
  refine ⟨out.time fs₁.clock, ?_⟩
  generalize renamedInode n (out.time fs₁.clock) (pathNormalize new) = n' at hx ⊢
  obtain ⟨_, fs₂, hdel, hrest⟩ := of_bind hx
  obtain ⟨_, fs₃, hdrop, hrest⟩ := of_bind hrest
  obtain ⟨rc', fs₄, hput, hend⟩ := of_bind hrest
  -- whatever becomes of the index, only the entry of the old path leaves the inode cache
  have hsame₂ : fs₂.icache = fs.icache := by
    have hR := discard_indexOnly (pagedDel_indexOnly (P := fun _ ↦ True) out _) _ _ _ hdel
    exact hR.icache.trans hk₁.only.icache
  have hset₂ : Settled K fs₂.icache := hsame₂.symm ▸ h.settled
  obtain ⟨c, hdrop', hset, -⟩ := icacheDel_apply hK.distinct hset₂ hp
    (hsame₂.symm ▸ hfree _ .refl)
  rw [hdrop'] at hdrop
  obtain ⟨-, rfl⟩ := Prod.mk.inj (Option.some.inj hdrop)
  have hR₄ := pagedPut_indexOnly (P := fun _ ↦ True) out (pathNormalize new) trivial _ _ _ hput
  have hset₄ : Settled K fs₄.icache := hR₄.icache.symm ▸ hset
  by_cases hok : rc' = .ok
  · rw [if_pos hok] at hend
    obtain ⟨_, fs₅, -, hend⟩ := of_bind hend
    exact (hrc ((unlocked_cases hend).1.trans hok)).elim
  · rw [if_neg hok] at hend
    obtain ⟨_, fs₅, hback, hend⟩ := of_bind hend
    obtain ⟨_, fs₆, hcache, hend⟩ := of_bind hend
    obtain ⟨-, l', rfl⟩ := unlocked_cases hend
    have hR₅ := discard_indexOnly (pagedPut_indexOnly (P := fun _ ↦ True) out _ trivial) _ _ _ hback
    have hfound := icachePut_found (hR₅.icache.symm ▸ hset₄) hp hcache
    exact hfound

/-- The new path ends in the name that the inode of the old one has. -/
def KeepsName (fs : Fs) (old new : Path) : Prop := ∃ n x, indexed fs old = some n ∧
  seen (indexed fs) fs old = some x ∧ x.iName = nameTerminated n.iName new

include he

/-- A failed `xxfs_rename` of a path that is not in the index shows nowhere. Of one that is in the
index it shows in the name of the inode, unless the new path has the same last component. -/
theorem failed_rename_unseen (h : CarefulRun K env fs) (hcalm : CalmGet out fs (pathNormalize old))
    (hx : xxfsRename out old new fs = some (rc, fs')) (hrc : rc ≠ .ok) :
    (indexed fs (pathNormalize old) = none → SameView fs fs') ∧
    (Frees K fs.icache (pathNormalize old) → SameView fs fs' →
      indexed fs (pathNormalize old) = none ∨
        KeepsName fs (pathNormalize old) (pathNormalize new)) := by
  have hs := h.sound he hK
  refine ⟨fun hm ↦ rename_absent hK hs hcalm hm hx, fun hfree hsame ↦ ?_⟩
  cases hn : indexed fs (pathNormalize old) with
  | none => exact .inl rfl
  | some n =>
    have hp : K (pathNormalize old) := hs.names (by rw [hn]; exact Option.some_ne_none n)
    obtain ⟨now, hafter⟩ := rename_shows hK hs hcalm hfree hn hx hrc
    obtain ⟨fs₁, hstat⟩ := @stat_hit steady { fs' with clock := 0 } _ _ hafter
    obtain ⟨fs₂, hstat', -⟩ := (hs.clockTo 0).stat steady_healthy hK (hK.untwinned hp)
    have heq := (hsame steady old steady_healthy).1
    rw [statOut, statOut, hstat, hstat', Option.map_some, Option.map_some] at heq
    change some ((Except.ok _).map bare) = some ((answered (seen (indexed fs) fs _)).map bare) at heq
    refine .inr ?_
    cases hx : seen (indexed fs) fs (pathNormalize old) with
    | none =>
      rw [hx] at heq
      cases Option.some.inj heq
    | some x =>
      rw [hx] at heq
      have hbare := Except.ok.inj (Option.some.inj heq)
      have hname := congrArg Inode.iName hbare
      rw [bare_iName, bare_iName, renamedInode_iName] at hname
      exact ⟨n, x, hn, hx, hname.symm⟩

end failures

section fresh

/-- A path that is not on a fresh image. -/
theorem failed_rename_unseen_fresh : ∃ fs fs', CarefulRun (· ∈ fewPaths) steady fs ∧
    CalmGet steady fs (pathNormalize [slash, 97]) ∧
    xxfsRename steady [slash, 97] [slash, 98] fs = some (.enoent, fs') ∧ SameView fs fs' := by
  have hrun : CarefulRun (· ∈ fewPaths) steady (freshFs steady 1 0) :=
    .fresh (fresh_apply steady_healthy goodSize_one 0)
  have hs : Sound (· ∈ fewPaths) _ ∅ (freshFs steady 1 0) :=
    sound_fresh fewPaths_names goodSize_one 0
  have hcalm : CalmGet steady (freshFs steady 1 0) (pathNormalize [slash, 97]) :=
    ⟨steady, steady_healthy, fun _ ↦ rfl⟩
  have hmiss : freshInodes (steady.time 1) (pathNormalize [slash, 97]) = none := if_neg (by decide)
  obtain ⟨fs', hx⟩ : ∃ fs', xxfsRename steady [slash, 97] [slash, 98] (freshFs steady 1 0) =
      some (.enoent, fs') := by
    obtain ⟨l, hlock⟩ := lock_eq .write (freshFs steady 1 0)
    obtain ⟨fs₁, hget, -⟩ := (hs.relock l).sound.indexGet steady_healthy
      (show (pathNormalize [slash, 97]).length < 2 ^ 32 by decide)
    obtain ⟨l', hunlock⟩ := unlocked_eq .write fs₁ Rc.enoent
    rw [hmiss] at hget
    refine ⟨{ fs₁ with lock := l' }, ?_⟩
    rw [xxfsRename, fsWlock, bind_apply, hlock, Option.bind_some, bind_apply, hget, Option.bind_some]
    exact hunlock
  refine ⟨_, fs', hrun, hcalm, hx, (failed_rename_unseen steady_healthy fewPaths_names hrun hcalm hx
    (by decide)).1 ?_⟩
  rw [hs.indexed_eq fewPaths_names]
  exact hmiss

end fresh

section starved

/-- An operating system that refuses one allocation. -/
def starved : Env := { steady with mem := fun n ↦ decide (n ≠ 18) }

/-- A path too long for the inline area of an index page. -/
def longPath : Path := slash :: List.replicate 900 98

theorem replicate_shape {k : ℕ} (h1 : 1 < k) (hk : k < 4000) :
    k < (pathNormalize (slash :: List.replicate k 98)).length ∧
      0 < (getBasename (pathNormalize (slash :: List.replicate k 98))).length ∧
      bytesAt (getBasename (pathNormalize (slash :: List.replicate k 98))) 0 = 98 := by
  have hplain : Plain (List.replicate k 98) := by
    refine ⟨fun h ↦ ?_, fun h ↦ ?_, fun h ↦ ?_⟩
    · have := congrArg List.length h
      rw [List.length_replicate] at this
      exact absurd this (by simp only [List.length_nil]; omega)
    · exact absurd (List.eq_of_mem_replicate h) (by decide)
    · have := congrArg List.length h
      rw [List.length_replicate] at this
      exact absurd this (by simp only [List.length_cons, List.length_nil]; omega)
  have hpath : slash :: List.replicate k 98 = joinPath ([] ++ [List.replicate k 98]) := by
    rw [joinPath_snoc]
    rfl
  have hclean : Clean (slash :: List.replicate k 98) :=
    ⟨[List.replicate k 98], fun c hc ↦ List.mem_singleton.mp hc ▸ hplain, hpath⟩
  have hlen : (slash :: List.replicate k (98 : UInt8)).length = k + 1 := by simp
  have hmax : maxPath = 4096 := rfl
  rw [hclean.normalize (by rw [hlen, hmax]; omega), hlen, hpath, getBasename_joinPath hplain,
    List.length_replicate]
  refine ⟨by omega, by omega, ?_⟩
  rw [bytesAt, List.getD_eq_getElem?_getD, List.getElem?_replicate_of_lt (by omega)]
  rfl

theorem longPath_shape : 900 < (pathNormalize longPath).length ∧
    0 < (getBasename (pathNormalize longPath)).length ∧
    bytesAt (getBasename (pathNormalize longPath)) 0 = 98 :=
  replicate_shape (by decide) (by decide)

theorem nameTerminated_first {new : Path} (hpos : 0 < (getBasename new).length)
    (old : Fin 256 → UInt8) : nameTerminated old new 0 = bytesAt (getBasename new) 0 := by
  have hmin : 0 < min (getBasename new).length maxName := lt_min hpos (by decide)
  have hend : ¬(min (getBasename new).length maxName ≤ (0 : Fin 256).val ∧
      (0 : Fin 256).val < min (getBasename new).length maxName + 1) := fun hc ↦
    absurd hc.1 (Nat.not_le.mpr hmin)
  have hin : 0 ≤ (0 : Fin 256).val ∧
      (0 : Fin 256).val < 0 + min (getBasename new).length maxName :=
    ⟨Nat.zero_le _, by rw [Nat.zero_add]; exact hmin⟩
  rw [nameTerminated, arrCopy, if_neg hend, storeName, arrCopy, if_pos hin]
  rfl

/-- The root cannot be put under a long path, and comes back with another name. -/
theorem rename_starved {path : Path} (hlong : 900 < (pathNormalize path).length)
    (hpos : 0 < (getBasename (pathNormalize path)).length) : ∃ fs' n,
    xxfsRename starved rootPath path (freshFs steady 1 0) = some (.enomem, fs') ∧
      icacheInode fs'.icache (xxh64 rootPath) = some n ∧
      n.iName 0 = bytesAt (getBasename (pathNormalize path)) 0 := by
  have hshort : (pathNormalize path).length < 4096 := pathNormalize_length path
  have hlive := fresh_live steady goodSize_one 0
  have hfree := hlive.ne_zero
  have hoff := hlive.nextOff_ne_zero (fresh_represents steady goodSize_one 0).pool
  obtain ⟨l, hlock⟩ := lock_eq .write (freshFs steady 1 0)
  -- the page is loaded, and the root found in its record
  obtain ⟨n, fs₁, head, pg, hget, hH₁, hR, hc₁, hi₁, hsb₁⟩ := cold_root starved l
    (freshFs steady 1 0).dcache (by decide) (by decide) (by decide) (by decide)
  obtain ⟨n', hn'⟩ : ∃ n', n' = renamedInode n (starved.time fs₁.clock) (pathNormalize path) :=
    ⟨_, rfl⟩
  have hH₂ : Handy { fs₁ with clock := fs₁.clock + 1 } head pg := hH₁.same rfl rfl
  -- it is deleted
  obtain ⟨fs₃, hdel, hH₃, hi₃, hc₃, hsb₃⟩ := hH₂.del starved hR.found
  have hempty : fs₃.icache = icacheInit := hi₃.trans hi₁
  have hdrop : icacheDel (xxh64 rootPath) fs₃ = some ((), fs₃) := by
    have hmiss : icacheLookup icacheInit (xxh64 rootPath) = none := rfl
    simp only [icacheDel, bind_apply, get_apply, Option.bind_some, hempty, hmiss, pure_apply]
  have hgone : (removeSlot pg 0).count = 0 ∧ (removeSlot pg 0).inlineUsed = 0 := by
    have hlast : ¬0 < pg.count.toNat - 1 := by
      rw [hR.count]
      decide
    rw [removeSlot, if_neg hlast, hR.count, hR.unused]
    exact ⟨rfl, rfl⟩
  -- the long path needs a record, for which there is no memory
  have hval := inodeToVal_length n'
  have hsb : fs₃.sb = (freshFs steady 1 0).sb := hsb₃.trans hsb₁
  have hclock : fs₃.clock = 18 := hc₃.trans (congrArg (· + 1) hc₁)
  have hspace : inlineSpace = 1392 := rfl
  have hsum : (UInt32.ofNat ((pathNormalize path).length + 560)).toNat =
      (pathNormalize path).length + 560 := UInt32.toNat_ofNat_of_lt' (by
        change _ < 2 ^ 32
        omega)
  obtain ⟨fs₄, pg₄, hput, hH₄, h0₄, hu₄, hi₄⟩ := hH₃.put_starved starved
    (pathNormalize path) (inodeToVal n') hgone.1
    (by rw [hgone.2, hval, UInt32.zero_add, hsum]; omega) (by rw [hsb]; exact hfree)
    (by rw [hsb]; exact hoff) (by rw [recLen, hval]; omega) (by rw [hclock]; decide)
  obtain ⟨fs₅, hback, hi₅⟩ := hH₄.put_fits starved rootPath (inodeToVal n')
    h0₄ (by rw [hu₄, hgone.2, hval]; decide)
  have hset : Settled (· ∈ fewPaths) fs₅.icache := by
    rw [hi₅, hi₄, hempty]
    exact settled_init fewPaths_names
  have hroot : rootPath ∈ fewPaths := by decide
  obtain ⟨fs₆, hcached⟩ := icachePut_returns hset starved hroot n'
  obtain ⟨l', hunlock⟩ := unlocked_eq .write fs₆ Rc.enomem
  have hfound := icachePut_found hset hroot hcached
  refine ⟨{ fs₆ with lock := l' }, n', ?_, hfound, ?_⟩
  · have hnorm : pathNormalize rootPath = rootPath := by decide
    rw [xxfsRename, fsWlock, bind_apply, hlock, Option.bind_some, hnorm, bind_apply, hget,
      Option.bind_some]
    dsimp only
    rw [bind_apply, osTime_apply, Option.bind_some, ← renamedInode, ← hn']
    simp only [bind_apply, discard_apply, hdel, Option.bind_some, hdrop, hput]
    rw [if_neg (by decide)]
    simp only [bind_apply, discard_apply, hback, Option.bind_some, hcached]
    exact hunlock
  · rw [hn', renamedInode_iName]
    exact nameTerminated_first hpos n.iName

/-- A failed rename of the root changes its name. -/
theorem failed_rename_shows : ¬∀ (env out : Env) (fs fs' : Fs) (old new : Path) (rc : Rc),
    Healthy env → Reachable env fs → xxfsRename out old new fs = some (rc, fs') → rc ≠ .ok →
    SameView fs fs' := by
  intro hall
  obtain ⟨hlong, hpos, hbyte⟩ := longPath_shape
  obtain ⟨fs', n, hx, hn, hname⟩ := rename_starved hlong hpos
  have hs : Sound (· ∈ fewPaths) _ ∅ (freshFs steady 1 0) :=
    sound_fresh fewPaths_names goodSize_one 0
  have hsame := (hall steady starved _ _ _ _ _ steady_healthy
    (.fresh (fresh_apply steady_healthy goodSize_one 0)) hx (by decide) steady rootPath
    steady_healthy).1
  obtain ⟨fs₁, hstat⟩ := @stat_hit steady { fs' with clock := 0 } rootPath _ hn
  have hmem : pathNormalize rootPath ∈ fewPaths := by decide
  obtain ⟨fs₂, hstat', -⟩ :=
    (hs.clockTo 0).stat steady_healthy fewPaths_names (fewPaths_names.untwinned hmem)
  have hroot : seen (freshInodes (steady.time 1)) { freshFs steady 1 0 with clock := 0 }
      (pathNormalize rootPath) = some (rootInode (steady.time 1)) :=
    (congrFun (seen_fresh steady 1 0) _).trans (freshInodes_root _)
  rw [hroot] at hstat'
  rw [statOut, statOut, hstat, hstat', Option.map_some, Option.map_some] at hsame
  have hbare := Except.ok.inj (Option.some.inj hsame)
  have hfirst : n.iName 0 = (rootInode (steady.time 1)).iName 0 :=
    congrFun (congrArg Inode.iName hbare) 0
  rw [hname, hbyte] at hfirst
  have hslash : (rootInode (steady.time 1)).iName 0 = slash := rfl
  rw [hslash] at hfirst
  cases hfirst

end starved

end Xxfs.RenameFailures

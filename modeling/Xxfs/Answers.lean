import Xxfs.FreshRuns

namespace Xxfs.Soundness

open Function
open Xxfs.DiskFormat Xxfs.Machine Xxfs.PageStore Xxfs.InodeCache Xxfs.DirCache Xxfs.Volume
open Xxfs.Operations Xxfs.Hash Xxfs.PathName Xxfs.CacheMap Xxfs.IndexState
open Xxfs.Lib Xxfs.Lib.Computation Xxfs.Lib.Computation.Comp

def result {α : Type} (c : FsM α) (fs : Fs) : Option α := (c fs).map Prod.fst

theorem result_of {α : Type} {c : FsM α} {a : α} {fs fs' : Fs} (h : c fs = some (a, fs')) :
    result c fs = some a := by
  rw [result, h]
  rfl

/-- `xxfs_read` of a path answers the same in both states, whatever is read. -/
def SameReads (env : Env) (path : Path) (fs fs' : Fs) : Prop :=
  ∀ buf off len, result (xxfsRead env path buf off len) fs' =
    result (xxfsRead env path buf off len) fs

def unsealed (n : Inode) : Inode := { n with iChecksum := 0, iEcc := fun _ ↦ 0 }

/-- `xxfs_stat` of a path answers the same in both states, but for the checksum and the code. -/
def SameStat (env : Env) (path : Path) (fs fs' : Fs) : Prop :=
  (result (xxfsStat env path) fs').map (Except.map unsealed) =
    (result (xxfsStat env path) fs).map (Except.map unsealed)

/-- `xxfs_stat`, `xxfs_read` and `xxfs_readdir` of a path answer the same in both states. -/
structure SameAt (env : Env) (path : Path) (fs fs' : Fs) : Prop where
  stat : SameStat env path fs fs'
  reads : SameReads env path fs fs'
  listing : result (xxfsReaddir env path) fs' = result (xxfsReaddir env path) fs

section answers

variable {env : Env} (he : Healthy env) {K : Path → Prop} (hK : Names K) {m m' : Inodes}
  {fs fs' : Fs} (h : Sound K m ∅ fs) (h' : Sound K m' ∅ fs') {path : Path}
  (hp : Untwinned K (pathNormalize path)) {n n' : Inode}

theorem SameBody.bytes (hb : SameBody n n') (img : Image) :
    Soundness.content img n' = Soundness.content img n := by
  funext i
  rw [Soundness.content, Soundness.content, hb.blocks, hb.content, hb.extentOff]

theorem SameBody.readOut (hb : SameBody n n') (img : Image) (buf : ℕ → UInt8) (off : UInt64)
    (len : UInt32) : readOut img (some n') buf off len = Soundness.readOut img (some n) buf off len := by
  rw [Soundness.readOut, Soundness.readOut, hb.size, hb.bytes]

include he hK hp

theorem Basis.result_stat (h : Basis K m fs) :
    result (xxfsStat env path) fs = some (answered (seen m fs (pathNormalize path))) := by
  obtain ⟨fs', hx⟩ := h.stat he hK hp
  exact result_of hx

include h

theorem Sound.result_stat :
    result (xxfsStat env path) fs = some (answered (seen m fs (pathNormalize path))) :=
  h.basis.result_stat he hK hp

theorem Sound.stat_ok_iff :
    result (xxfsStat env path) fs = some (.ok n) ↔ seen m fs (pathNormalize path) = some n := by
  rw [h.result_stat he hK hp]
  cases seen m fs (pathNormalize path) with
  | none => simp [answered]
  | some x => simp [answered]

theorem Sound.result_read {len : UInt32} (hlen : len ≠ 0) (buf : ℕ → UInt8) (off : UInt64) :
    result (xxfsRead env path buf off len) fs =
      some (readOut fs.img (seen m fs (pathNormalize path)) buf off len) := by
  obtain ⟨fs', hx, -⟩ : ∃ fs', xxfsRead env path buf off len fs = some (_, fs') ∧ _ :=
    h.read he hK hp hlen
  exact result_of hx

omit hK hp in
theorem Sound.result_readdir :
    result (xxfsReaddir env path) fs = some (dirOut m fs (pathNormalize path)) := by
  obtain ⟨fs', hx, -⟩ := h.readdir he
  exact result_of hx

include h'

omit hK hp in
/-- A directory whose cached children and whose stored children are the same is listed the same. -/
theorem Sound.same_listing
    (hfound : (dcacheFind fs' (pathNormalize path)).map DirCacheEntry.children =
      (dcacheFind fs (pathNormalize path)).map DirCacheEntry.children)
    (hkind : kind m' (pathNormalize path) = kind m (pathNormalize path))
    (hlist : kind m (pathNormalize path) = some ftDir →
      listing m' fs' (pathNormalize path) = listing m fs (pathNormalize path)) :
    result (xxfsReaddir env path) fs' = result (xxfsReaddir env path) fs := by
  rw [h.result_readdir he, h'.result_readdir he]
  generalize pathNormalize path = p at *
  congr 1
  rw [dirOut, dirOut]
  cases hf : dcacheFind fs p with
  | some e =>
    rw [hf] at hfound
    obtain ⟨e', hf', he'⟩ := Option.map_eq_some_iff.mp hfound
    rw [hf']
    exact congrArg Except.ok he'
  | none =>
    rw [hf] at hfound
    have hf' : dcacheFind fs' p = none := Option.map_eq_none_iff.mp hfound
    rw [hf']
    rw [listing, listing, hf, hf'] at hlist
    rw [kind, kind] at hkind
    cases hm : m p with
    | none =>
      rw [hm] at hkind
      rw [Option.map_eq_none_iff.mp hkind]
    | some n =>
      rw [hm] at hkind
      obtain ⟨n', hm', ht⟩ := Option.map_eq_some_iff.mp hkind
      rw [hm']
      dsimp only
      rw [ht]
      split
      · rfl
      · rename_i hd
        have hd := not_not.mp hd
        rw [kind, hm, hm'] at hlist
        exact congrArg Except.ok (Option.some.inj (hlist (congrArg some hd)))

theorem Sound.sameReads_of
    (hout : ∀ buf off len, readOut fs'.img (seen m' fs' (pathNormalize path)) buf off len =
      readOut fs.img (seen m fs (pathNormalize path)) buf off len) : SameReads env path fs fs' := by
  intro buf off len
  by_cases hlen : len = 0
  · rw [result, result, xxfsRead, if_pos hlen]
    rfl
  · rw [h.result_read he hK hp hlen, h'.result_read he hK hp hlen, hout]

theorem Sound.sameReads (hn : seen m fs (pathNormalize path) = some n)
    (hn' : seen m' fs' (pathNormalize path) = some n') (hb : SameBody n n')
    (hdata : ∀ i ∈ extent n, fs'.img.data i = fs.img.data i) : SameReads env path fs fs' := by
  refine h.sameReads_of he hK h' hp fun buf off len ↦ ?_
  rw [hn, hn', hb.readOut]
  refine readOut_congr (fun x hx i hi ↦ ?_) buf len
  obtain rfl := Option.some.inj hx
  exact h.content_eq hn hdata hi

theorem Sound.sameReads_none (hn : seen m fs (pathNormalize path) = none)
    (hn' : seen m' fs' (pathNormalize path) = none) : SameReads env path fs fs' := by
  refine h.sameReads_of he hK h' hp fun buf off len ↦ ?_
  rw [hn, hn']
  rfl

/-- An operation on other paths changes neither what `xxfs_stat` nor what `xxfs_read` answers. -/
theorem Effect.same_answers {P D : Set Path} (hE : Effect P D ∅ m m' fs fs')
    (hP : pathNormalize path ∉ P) :
    result (xxfsStat env path) fs' = result (xxfsStat env path) fs ∧ SameReads env path fs fs' := by
  have hseen : seen m' fs' (pathNormalize path) = seen m fs (pathNormalize path) := by
    rcases hE.inodes _ hP with ⟨-, hseen⟩ | ⟨hW, -⟩
    · exact hseen
    · exact hW.elim
  refine ⟨by rw [h.result_stat he hK hp, h'.result_stat he hK hp, hseen], ?_⟩
  cases hn : seen m fs (pathNormalize path) with
  | none => exact h.sameReads_none he hK h' hp hn (hseen.trans hn)
  | some n =>
    exact h.sameReads he hK h' hp hn (hseen.trans hn) (.refl n)
      (hE.data _ n hP hn fun _ ↦ Set.notMem_empty _)

end answers

end Xxfs.Soundness

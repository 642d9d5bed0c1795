import Mathlib.Algebra.Group.Action.Defs
import Mathlib.Algebra.Order.BigOperators.Group.List
import Mathlib.Data.Set.Card
import Mathlib.Data.Set.Finite.List
import Xxfs.FreshMount
import Xxfs.FreshRuns

namespace Xxfs.NamespaceRuns

open Function
open Xxfs.DiskFormat Xxfs.Machine Xxfs.InodeCache Xxfs.DirCache Xxfs.Volume Xxfs.Operations
open Xxfs.PathName Xxfs.IndexRep Xxfs.CacheMap Xxfs.IndexState Xxfs.FreshVolume Xxfs.FreshIndex
open Xxfs.Runs Xxfs.Soundness Xxfs.Lib Xxfs.Lib.Computation Xxfs.Lib.Computation.Comp

section stat

variable {env : Env} (he : Healthy env) {K : Path → Prop} (hK : Names K) {m : Inodes} {fs fs' : Fs}
  (h : Sound K m ∅ fs) {path : Path}
include he hK h

/-- What `xxfs_stat` answers is what the caches and the index hold. -/
theorem stat_iff (hp : Untwinned K (pathNormalize path)) {n : Inode} :
    (∃ fs', xxfsStat env path fs = some (.ok n, fs')) ↔ seen m fs (pathNormalize path) = some n := by
  obtain ⟨fs₁, hstat, -⟩ := h.stat he hK hp
  rw [hstat]
  cases seen m fs (pathNormalize path) with
  | none => simp [answered]
  | some x => simp [answered]

theorem stat_named {p : Path} (hnorm : pathNormalize p = p) (hp : Untwinned K p) {n : Inode} :
    (∃ fs', xxfsStat env p fs = some (.ok n, fs')) ↔ seen m fs p = some n := by
  have hiff := stat_iff he hK h (hnorm.symm ▸ hp : Untwinned K (pathNormalize p)) (n := n)
  rwa [hnorm] at hiff

end stat

section tree

variable {env : Env} (he : Healthy env) {K : Path → Prop} (hK : Names K) {fs : Fs}
  (h : CarefulRun K env fs)
include he hK h

/-- Along a careful run every path that exists has a parent, and that is a directory. -/
theorem stat_parent {path : Path} (hu : Untwinned K (pathNormalize path)) (hne : pathNormalize path ≠ rootPath)
    (hok : ∃ n fs', xxfsStat env path fs = some (.ok n, fs')) : ∃ d fs',
      xxfsStat env (getParentPath (pathNormalize path)) fs = some (.ok d, fs') ∧
        d.iFileType = ftDir := by
  have hs := h.sound he hK
  obtain ⟨n, hn⟩ := hok
  have hseen := (stat_iff he hK hs hu).mp hn
  obtain ⟨x, hx, -⟩ := hs.stored_some hseen
  have hkind : kind (indexed fs) (pathNormalize path) ≠ none := by
    rw [kind, hx]
    exact Option.some_ne_none _
  obtain ⟨d, hd, ht⟩ := kind_some (hs.tree.parent _ hne hkind)
  have hp : K (getParentPath (pathNormalize path)) :=
    hK.parent _ (hs.names (by rw [hx]; exact Option.some_ne_none x))
  obtain ⟨fs', hstat⟩ := (stat_named he hK hs (hK.normalize hp) (hK.untwinned hp)).mpr
    (cur_dir (hs.coherent _) hd ht)
  exact ⟨d, fs', hstat, ht⟩

end tree

def fewPaths : List Path := [rootPath, [slash, 97], [slash, 97, slash, 98]]

theorem fewPaths_names : Names (· ∈ fewPaths) := names_list (by decide +kernel)

theorem stat_parent_few : ∃ fs, CarefulRun (· ∈ fewPaths) steady fs ∧
    (∃ n fs', xxfsStat steady [slash, 97] fs = some (.ok n, fs')) ∧ ∃ d fs',
      xxfsStat steady (getParentPath (pathNormalize [slash, 97])) fs = some (.ok d, fs') ∧
        d.iFileType = ftDir := by
  have hnorm : pathNormalize [slash, 97] = [slash, 97] := by decide
  have hmem : pathNormalize [slash, 97] ∈ fewPaths := by decide
  obtain ⟨m, fs, hr, hs, -, hA⟩ := first_file fewPaths_names
    (careful_first fewPaths_names 0 0 0 hmem (by decide) (by decide)) hmem (by decide) (by decide)
  have hok := (stat_iff steady_healthy fewPaths_names hs (fewPaths_names.untwinned hmem)).mpr hA.fresh
  exact ⟨fs, hr, ⟨_, hok⟩, stat_parent steady_healthy fewPaths_names hr (fewPaths_names.untwinned hmem) (by decide) ⟨_, hok⟩⟩

/-- A link is made in a directory that does not exist. -/
theorem orphan_link : ¬∀ (env : Env) (fs : Fs) (path : Path), Healthy env → Reachable env fs →
    pathNormalize path ≠ rootPath → (∃ n fs', xxfsStat env path fs = some (.ok n, fs')) →
    ∃ d fs', xxfsStat env (getParentPath (pathNormalize path)) fs = some (.ok d, fs') ∧
      d.iFileType = ftDir := by
  intro hall
  have hmem : pathNormalize [slash, 97, slash, 98] ∈ fewPaths := by decide
  have hpar : pathNormalize (getParentPath (pathNormalize [slash, 97, slash, 98])) = [slash, 97] := by
    decide
  obtain ⟨now, fs, -, hr, hF⟩ := first_link fewPaths_names [116] hmem (by decide) (by decide)
  obtain ⟨fs₁, hstat⟩ := hF.basis.stat steady_healthy fewPaths_names (fewPaths_names.untwinned hmem)
  rw [hF.seen, update_self] at hstat
  obtain ⟨d, fs₂, hd, -⟩ := hall steady fs _ steady_healthy hr (by decide) ⟨_, fs₁, hstat⟩
  have hmem' : pathNormalize (getParentPath (pathNormalize [slash, 97, slash, 98])) ∈ fewPaths := by
    decide
  obtain ⟨fs₃, hstat'⟩ := hF.basis.stat steady_healthy fewPaths_names (fewPaths_names.untwinned hmem')
  rw [hF.seen, hpar, update_of_ne (by decide), seen_fresh, freshInodes, if_neg (by decide)] at hstat'
  rw [hstat'] at hd
  cases hd

def existing (m : Inodes) : Set Path := { p | kind m p ≠ none }

section count

variable {K : Path → Prop} {m m' : Inodes} {fs fs' : Fs} {p : Path}

theorem pages_le {L : Chain} (h : Represents fs L) : L.length ≤ 2 ^ 51 := by
  have hin (o : UInt64) (ho : o ∈ offs L) : o.toNat % 4096 = 0 ∧ o.toNat < 2 ^ 63 := by
    obtain ⟨hmod, -, hfront⟩ := h.within o (List.mem_append_left _ ho)
    have := h.bound
    exact ⟨hmod, by omega⟩
  have hnd : ((offs L).map fun o ↦ o.toNat / 4096).Nodup := by
    refine List.Nodup.map_on (fun a ha b hb hab ↦ ?_) (List.nodup_append.mp h.nodup).1
    have h₁ := (hin a ha).1
    have h₂ := (hin b hb).1
    exact UInt64.toNat_inj.mp (by omega)
  have hsub : (offs L).map (fun o ↦ o.toNat / 4096) ⊆ List.range (2 ^ 51) := by
    intro x hx
    obtain ⟨o, ho, rfl⟩ := List.mem_map.mp hx
    have := (hin o ho).2
    exact List.mem_range.mpr (by omega)
  have hle := (List.subperm_of_subset hnd hsub).length_le
  rwa [List.length_map, List.length_range, offs, List.length_map] at hle

def keysOf (L : Chain) : List Path := (contents L).flatten.map Prod.fst

theorem keysOf_length {L : Chain} (h : Represents fs L) : (keysOf L).length ≤ 56 * 2 ^ 51 := by
  have hpage (p : List (Path × List UInt8)) (hp : p ∈ contents L) : p.length ≤ 56 := by
    obtain ⟨x, hx, rfl⟩ := List.mem_map.mp hp
    rw [pairs, List.length_map]
    exact (h.reps x hx).cap
  have hsum : ((contents L).map List.length).sum ≤ (contents L).length * 56 := by
    have := List.sum_le_card_nsmul ((contents L).map List.length) 56 fun k hk ↦ by
      obtain ⟨p, hp, rfl⟩ := List.mem_map.mp hk
      exact hpage p hp
    rwa [List.length_map, smul_eq_mul] at this
  have hlen := pages_le h
  rw [contents, List.length_map] at hsum
  rw [keysOf, List.length_map, List.length_flatten, contents]
  omega

theorem existing_bound (h : Sound K m ∅ fs) : (existing m).Finite ∧ (existing m).ncard < 2 ^ 63 := by
  obtain ⟨L, hb⟩ := h.backed
  have hkeys : PagedMap.AllKeys (· ∈ keysOf L) (contents L) := fun p hp e he ↦
    List.mem_map_of_mem (List.mem_flatten_of_mem hp he)
  have hsub : existing m ⊆ ((keysOf L).toFinset : Set Path) := by
    intro p hp
    rw [Finset.mem_coe, List.mem_toFinset]
    refine hkeys.of_get ?_
    rw [hb.get, ne_eq, Option.map_eq_none_iff]
    exact fun hm ↦ hp (by rw [kind, hm]; rfl)
  refine ⟨(Finset.finite_toSet _).subset hsub, ?_⟩
  have hcard := Set.ncard_le_ncard hsub (Finset.finite_toSet _)
  rw [Set.ncard_coe_finset] at hcard
  have := List.toFinset_card_le (keysOf L)
  have := keysOf_length hb.rep
  omega

theorem existing_added (hold : kind m p = none) (hnew : kind m' p ≠ none)
    (hrest : ∀ q, q ≠ p → kind m' q = kind m q) : existing m' = insert p (existing m) ∧
      p ∉ existing m := by
  refine ⟨Set.ext fun q ↦ ?_, fun hp ↦ hp hold⟩
  rw [Set.mem_insert_iff]
  by_cases hq : q = p
  · subst hq
    exact ⟨fun _ ↦ .inl rfl, fun _ ↦ hnew⟩
  · have hsame : q ∈ existing m' ↔ q ∈ existing m := not_congr (by rw [hrest q hq])
    exact ⟨fun h ↦ .inr (hsame.mp h), fun h ↦ hsame.mpr (h.resolve_left hq)⟩

theorem existing_same (hrest : ∀ q, kind m' q = kind m q) : existing m' = existing m :=
  Set.ext fun q ↦ not_congr (by rw [hrest q])

end count

/-- The counter is the number of the paths that exist. -/
def Exact (m : Inodes) (fs : Fs) : Prop := (xxfsCount fs).toNat = (existing m).ncard

section exact

variable {K : Path → Prop} {m m' : Inodes} {fs fs' : Fs} {p : Path}

theorem Exact.same (h : Exact m fs) (hk : ∀ q, kind m' q = kind m q)
    (hc : fs'.sb.sInodesCount = fs.sb.sInodesCount) : Exact m' fs' := by
  rw [Exact, xxfsCount, hc, existing_same hk]
  exact h

theorem Exact.added (h : Exact m fs) (hs : Sound K m ∅ fs) (hs' : Sound K m' ∅ fs')
    (hold : kind m p = none) (hnew : kind m' p ≠ none) (hrest : ∀ q, q ≠ p → kind m' q = kind m q)
    (hc : fs'.sb.sInodesCount = fs.sb.sInodesCount + 1) : Exact m' fs' := by
  obtain ⟨hset, hp⟩ := existing_added hold hnew hrest
  obtain ⟨hfin, -⟩ := existing_bound hs
  obtain ⟨-, hlt⟩ := existing_bound hs'
  rw [Exact, xxfsCount] at h
  rw [hset, Set.ncard_insert_of_notMem hp hfin] at hlt
  rw [Exact, xxfsCount, hc, hset, Set.ncard_insert_of_notMem hp hfin, UInt64.toNat_add, h]
  exact Nat.mod_eq_of_lt (by change _ + 1 < _; omega)

theorem Exact.removed (h : Exact m fs) (hs : Sound K m ∅ fs) (hs' : Sound K m' ∅ fs')
    (hold : kind m p ≠ none) (hnew : kind m' p = none) (hrest : ∀ q, q ≠ p → kind m' q = kind m q)
    (hc : fs'.sb.sInodesCount = fs.sb.sInodesCount - 1) : Exact m' fs' := by
  obtain ⟨hset, hp⟩ := existing_added hnew hold fun q hq ↦ (hrest q hq).symm
  obtain ⟨hfin, -⟩ := existing_bound hs'
  obtain ⟨-, hlt⟩ := existing_bound hs
  rw [Exact, xxfsCount] at h
  rw [hset, Set.ncard_insert_of_notMem hp hfin] at h hlt
  rw [Exact, xxfsCount, hc, UInt64.toNat_sub_of_le, h]
  · rfl
  · rw [UInt64.le_iff_toNat_le, h]
    exact Nat.le_add_left 1 _

theorem Exact.moved (h : Exact m fs) (hs : Sound K m ∅ fs) {old new : Path} (hne : new ≠ old)
    (hold : kind m old ≠ none) (hgone : kind m' old = none) (habsent : kind m new = none)
    (hnew : kind m' new ≠ none) (hrest : ∀ q, q ≠ old → q ≠ new → kind m' q = kind m q)
    (hc : fs'.sb.sInodesCount = fs.sb.sInodesCount) : Exact m' fs' := by
  -- the paths that stay
  have hmid : kind (update m old none) old = none := by rw [kind, update_self]; rfl
  have hkeep (q : Path) (hq : q ≠ old) : kind (update m old none) q = kind m q := by
    rw [kind, kind, update_of_ne hq]
  obtain ⟨hset, hp⟩ := existing_added hmid hold fun q hq ↦ (hkeep q hq).symm
  have hstay (q : Path) (hq : q ≠ new) : kind m' q = kind (update m old none) q := by
    by_cases hqo : q = old
    · rw [hqo, hmid, hgone]
    · rw [hkeep q hqo, hrest q hqo hq]
  obtain ⟨hset', hp'⟩ := existing_added ((hkeep new hne).trans habsent) hnew hstay
  have hfin : (existing (update m old none)).Finite := (existing_bound hs).1.subset (by rw [hset]; simp)
  rw [Exact, xxfsCount, hset, Set.ncard_insert_of_notMem hp hfin] at h
  rw [Exact, xxfsCount, hc, hset', Set.ncard_insert_of_notMem hp' hfin, h]

end exact

/-- Careful operations, without the links that are made: these are not counted. -/
def Tallied (K : Path → Prop) (fs : Fs) (op : Op) : Prop :=
  Careful K fs op ∧ ∀ target linkpath, op = .symlink target linkpath →
    inlineMax < target.length ∨ indexed fs (pathNormalize linkpath) ≠ none

section tally

variable {env : Env} (he : Healthy env) {K : Path → Prop} (hK : Names K) {m m' : Inodes} {fs fs' : Fs}

theorem kind_restored (hs : Sound K m ∅ fs) {p : Path} {n n' : Inode} (hn : seen m fs p = some n)
    (ht : n'.iFileType = n.iFileType) (hR : Restored p n' m m' fs fs') (q : Path) :
    kind m' q = kind m q := by
  by_cases hq : q = p
  · rw [hq, ← cur_kind (hs.coherent p), kind, kind, hR.stored]
    change _ = (seen m fs p).map _
    rw [hn, Option.map_some, Option.map_some, ht]
  · exact hR.toEffect.kind hq

theorem exact_fresh (sizeMb flags : UInt64) :
    Exact (freshInodes (env.time 1)) (freshFs env sizeMb flags) := by
  have hone : existing (freshInodes (env.time 1)) = {rootPath} := by
    refine Set.ext fun p ↦ ⟨fun hp ↦ ?_, ?_⟩
    · by_contra hne
      exact hp (by rw [kind, freshInodes, if_neg (by simpa using hne)]; rfl)
    · rintro rfl hnone
      rw [(tree_fresh _).root] at hnone
      cases hnone
  have hs : FreshSuper (freshFs env sizeMb flags).sb _ := fresh_super sizeMb flags
  rw [Exact, xxfsCount, hs.inodes, hone, Set.ncard_singleton]
  rfl

include hK in
theorem exact_step {op : Op} (hs : Sound K m ∅ fs) (h : Exact m fs) (hc : Tallied K fs op)
    (hs' : Sound K m' ∅ fs') (ho : Outcome K m m' fs fs' op) : Exact m' fs' := by
  cases ho with
  | looked hm hL => exact h.same (fun _ ↦ by rw [hm]) hL.count
  | added _ _ hv _ hA hcount =>
    refine h.added hs hs' ?_ ?_ (fun q hq ↦ hA.toEffect.kind hq) hcount
    · rw [kind, hv.absent]
      rfl
    · rw [kind, hA.stored]
      exact Option.some_ne_none _
  | removed _ _ hn _ hR hcount =>
    refine h.removed hs hs' ?_ ?_ (fun q hq ↦ hR.toEffect.kind hq) hcount
    · rw [kind, hn]
      exact Option.some_ne_none _
    · rw [kind, hR.gone]
      rfl
  | wrote hm _ _ hW => exact h.same (fun _ ↦ by rw [hm]) hW.count
  | poured hm _ _ _ _ _ hsb => exact h.same (fun _ ↦ by rw [hm]) (by rw [hsb])
  | restored hn ht _ hR => exact h.same (kind_restored hs hn ht.type hR) hR.count
  | linked hlen _ hspot _ =>
    rcases hc.2 _ _ rfl with hlong | hex
    · omega
    · rw [hs.indexed_eq hK] at hex
      exact (hex hspot.absent).elim
  | @renamed old new _ _ hn _ _ hspot hR =>
    have hne : pathNormalize new ≠ pathNormalize old := by
      intro heq
      rw [← heq, hspot.absent] at hn
      cases hn
    refine h.moved hs hne ?_ ?_ ?_ ?_ (fun q hq hq' ↦ hR.toEffect.kind ?_) hR.count
    · rw [kind, hn]
      exact Option.some_ne_none _
    · rw [kind, hR.gone]
      rfl
    · rw [kind, hspot.absent]
      rfl
    · rw [kind, hR.stored]
      exact Option.some_ne_none _
    · simp [hq, hq']
  | synced hS => exact h.same hS.kinds hS.count
  | remounted hR => exact h.same (fun q ↦ hR.toEffect.kind (Set.notMem_empty _)) hR.count

include he hK

/-- Along a careful run that makes no links, the counter is the number of the paths that exist. -/
theorem count_exact (h : RunBy (Tallied K) env fs) : (xxfsCount fs).toNat =
    Set.ncard { p | pathNormalize p = p ∧ Untwinned K p ∧ ∃ n fs', xxfsStat env p fs = some (.ok n, fs') } := by
  obtain ⟨hs, hx⟩ := h.invariant he hK (fun _ _ hc ↦ hc.1) (I := Exact)
    (fun sizeMb flags _ ↦ exact_fresh sizeMb flags) (exact_step hK)
  rw [hx]
  congr 1
  refine Set.ext fun p ↦ ⟨fun hp ↦ ?_, ?_⟩
  · have hKp : K p := hs.names fun hm ↦ hp (by rw [kind, hm]; rfl)
    have hkind := cur_kind (hs.coherent p)
    obtain ⟨n, hn⟩ := Option.ne_none_iff_exists'.mp fun hnone : seen (indexed fs) fs p = none ↦
      hp (by rw [← hkind, kind]; exact Option.map_eq_none_iff.mpr hnone)
    have hnorm := hK.normalize hKp
    obtain ⟨fs', hstat⟩ := (stat_named he hK hs hnorm (hK.untwinned hKp)).mpr hn
    exact ⟨hnorm, hK.untwinned hKp, n, fs', hstat⟩
  · rintro ⟨hnorm, hu, n, hn⟩ hnone
    obtain ⟨x, hx, -⟩ := hs.stored_some ((stat_named he hK hs hnorm hu).mp hn)
    rw [kind, hx] at hnone
    cases hnone

end tally

theorem count_exact_few : ∃ fs, RunBy (Tallied (· ∈ fewPaths)) steady fs ∧
    (∃ n fs', xxfsStat steady [slash, 97] fs = some (.ok n, fs')) ∧ (xxfsCount fs).toNat =
      Set.ncard { p | pathNormalize p = p ∧ Untwinned (· ∈ fewPaths) p ∧
        ∃ n fs', xxfsStat steady p fs = some (.ok n, fs') } := by
  have hmem : pathNormalize [slash, 97] ∈ fewPaths := by decide
  have hC : Tallied (· ∈ fewPaths) (freshFs steady 1 0) (.create [slash, 97] 0 0 0) :=
    ⟨careful_first fewPaths_names 0 0 0 hmem (by decide) (by decide), fun _ _ h ↦ by cases h⟩
  obtain ⟨m, fs, hr, hs, -, hA⟩ := first_file fewPaths_names hC hmem (by decide) (by decide)
  have hok := (stat_iff steady_healthy fewPaths_names hs (fewPaths_names.untwinned hmem)).mpr hA.fresh
  exact ⟨fs, hr, ⟨_, hok⟩, count_exact steady_healthy fewPaths_names hr⟩

/-- There are two paths, the root and a link, and the counter says one. -/
theorem link_not_counted : ¬∀ (env : Env) (fs : Fs), Healthy env → Reachable env fs →
    (xxfsCount fs).toNat = Set.ncard { p | pathNormalize p = p ∧
      ∃ n fs', xxfsStat env p fs = some (.ok n, fs') } := by
  intro hall
  have hmem : pathNormalize [slash, 97] ∈ fewPaths := by decide
  obtain ⟨now, fs, -, hr, hF⟩ := first_link fewPaths_names [116] hmem (by decide) (by decide)
  have hcount : (xxfsCount fs).toNat = 1 := by
    have hs : FreshSuper (freshFs steady 1 0).sb _ := fresh_super 1 0
    rw [xxfsCount, hF.count, hs.inodes]
    rfl
  have hstat {p : Path} (hp : p ∈ fewPaths) (hnorm : pathNormalize p = p) {n : Inode}
      (hn : update (freshInodes (steady.time 1)) (pathNormalize [slash, 97])
        (some (linkInode [116] now)) p = some n) : ∃ n fs', xxfsStat steady p fs = some (.ok n, fs') := by
    have hmem' : pathNormalize p ∈ fewPaths := hnorm.symm ▸ hp
    obtain ⟨fs', h⟩ := hF.basis.stat steady_healthy fewPaths_names (fewPaths_names.untwinned hmem')
    rw [hF.seen, hnorm, seen_fresh, hn] at h
    exact ⟨n, fs', h⟩
  have hfin : { p | pathNormalize p = p ∧
      ∃ n fs', xxfsStat steady p fs = some (.ok n, fs') }.Finite := by
    have : Finite UInt8 := .of_injective UInt8.toFin fun _ _ h ↦ UInt8.toFin_inj.mp h
    refine (List.finite_length_lt UInt8 maxPath).subset fun p hp ↦ ?_
    have := pathNormalize_length p
    rwa [hp.1] at this
  have hsub : ({rootPath, [slash, 97]} : Set Path) ⊆ { p | pathNormalize p = p ∧
      ∃ n fs', xxfsStat steady p fs = some (.ok n, fs') } := by
    rintro p (rfl | rfl)
    · exact ⟨by decide, hstat (by decide) (by decide)
        ((update_of_ne (by decide) _ _).trans (freshInodes_root _))⟩
    · exact ⟨by decide, hstat (by decide) (by decide) (update_self _ _ _)⟩
  have hle := Set.ncard_le_ncard hsub hfin
  rw [Set.ncard_pair (by decide), ← hall steady fs steady_healthy hr, hcount] at hle
  exact absurd hle (by decide)

end Xxfs.NamespaceRuns

import Xxfs.NamespaceRuns

namespace Xxfs.ListingFailures

open Function
open Xxfs.DiskFormat Xxfs.Machine Xxfs.PagedIndex Xxfs.InodeCache Xxfs.DirCache Xxfs.Volume
open Xxfs.Operations Xxfs.Hash Xxfs.PathName Xxfs.CacheMap Xxfs.IndexState Xxfs.FreshVolume
open Xxfs.FreshIndex Xxfs.IndexRep Xxfs.Runs Xxfs.Soundness Xxfs.NamespaceRuns
open Xxfs.Lib Xxfs.Lib.Computation Xxfs.Lib.Computation.Comp

/-- What `xxfs_readdir` answers under an operating system that starts afresh. -/
def readdirOut (o : Env) (path : Path) (fs : Fs) : Option (Except Rc (List DirChild)) :=
  (xxfsReaddir o path { fs with clock := 0 }).map Prod.fst

/-- `xxfs_readdir` answers the same for every path. -/
def SameListings (fs fs' : Fs) : Prop :=
  ∀ o path, Healthy o → readdirOut o path fs' = readdirOut o path fs

theorem sameListings_clock (fs : Fs) (t : ℕ) : SameListings fs { fs with clock := t } :=
  fun _ _ _ ↦ rfl

section calls

variable {env : Env} {fs fs' : Fs} {dir name : Path} {rc : Rc}

theorem dirOpen_cached (h : (dcacheFind fs dir).isSome) : dirOpen env dir fs = some (.ok, fs) := by
  obtain ⟨e, he⟩ := Option.isSome_iff_exists.mp h
  simp only [dirOpen, bind_apply, get_apply, Option.bind_some, he, pure_apply]

/-- When `dir_add_child` fails it has opened the directory at most. -/
theorem dirAddChild_failed {type : UInt8} (hx : dirAddChild env dir name type fs = some (rc, fs'))
    (hrc : rc ≠ .ok) : ∃ rc₁ fs₁ t, dirOpen env dir fs = some (rc₁, fs₁) ∧
      fs' = { fs₁ with clock := t } := by
  obtain ⟨rc₁, fs₁, hopen, hrest⟩ := of_bind hx
  cases rc₁ with
  | ok =>
    simp only [bind_apply, get_apply, Option.bind_some] at hrest
    split at hrest
    · obtain ⟨b, fs₂, halloc, hend⟩ := of_bind hrest
      have hclock : fs₂ = { fs₁ with clock := fs₁.clock + 1 } := by
        simp only [osAlloc, bind_apply, tick_apply, Option.bind_some, pure_apply] at halloc
        exact (Prod.mk.inj (Option.some.inj halloc)).2.symm
      cases b with
      | true => exact (hrc (Prod.mk.inj (Option.some.inj hend)).1.symm).elim
      | false =>
        have hfs := (Prod.mk.inj (Option.some.inj hend)).2
        exact ⟨.ok, fs₁, _, hopen, hfs.symm.trans hclock⟩
    · exact (hrc (Prod.mk.inj (Option.some.inj hrest)).1.symm).elim
  | _ => exact ⟨_, fs₁, fs₁.clock, hopen, (Prod.mk.inj (Option.some.inj hrest)).2.symm⟩

theorem dirRemoveChild_failed (hx : dirRemoveChild env dir name fs = some (rc, fs'))
    (hrc : rc ≠ .ok) : ∃ rc₁, dirOpen env dir fs = some (rc₁, fs') := by
  obtain ⟨rc₁, fs₁, hopen, hrest⟩ := of_bind hx
  cases rc₁ with
  | ok =>
    simp only [bind_apply, get_apply, Option.bind_some] at hrest
    cases hfind : (fs₁.dcache (dcIndex dir)).children.findIdx? (fun c ↦ childMatches c name) with
    | none =>
      rw [hfind] at hrest
      exact ⟨.ok, hopen.trans (by rw [(Prod.mk.inj (Option.some.inj hrest)).2])⟩
    | some i =>
      rw [hfind] at hrest
      exact (hrc (Prod.mk.inj (Option.some.inj hrest)).1.symm).elim
  | _ => exact ⟨_, hopen.trans (by rw [(Prod.mk.inj (Option.some.inj hrest)).2])⟩

end calls

section answers

variable {K : Path → Prop} {m m' : Inodes} {fs fs' : Fs}

theorem readdirOut_sound (h : Sound K m ∅ fs) {o : Env} (ho : Healthy o) (path : Path) :
    readdirOut o path fs = some (dirOut m fs (pathNormalize path)) := by
  obtain ⟨fs₁, hx, -⟩ : ∃ fs₁, xxfsReaddir o path { fs with clock := 0 } =
      some (dirOut m { fs with clock := 0 } (pathNormalize path), fs₁) ∧ _ :=
    (h.clockTo 0).readdir ho
  rw [readdirOut, hx]
  rfl

theorem readdirOut_empty {o : Env} {path : Path} {e : DirCacheEntry}
    (hfind : dcacheFind fs (pathNormalize path) = some e) (hnil : e.children = []) :
    readdirOut o path fs = some (.ok []) := by
  obtain ⟨l, hlock⟩ := lock_eq .read { fs with clock := 0 }
  obtain ⟨l', hunlock⟩ := unlocked_eq .read { fs with clock := 0, lock := l }
    (Except.ok [] : Except Rc (List DirChild))
  have hsame : dcacheFind { fs with clock := 0, lock := l } (pathNormalize path) = some e := hfind
  rw [readdirOut, xxfsReaddir, fsRlock, bind_apply, hlock, Option.bind_some]
  simp only [bind_apply, get_apply, Option.bind_some, hsame, hnil, ↓reduceIte]
  exact congrArg (Option.map Prod.fst) hunlock

theorem dirOut_dir {p : Path} (hd : kind m p = some ftDir) {cs : List DirChild}
    (hcs : listing m fs p = some cs) : dirOut m fs p = .ok cs := by
  obtain ⟨n, hn, ht⟩ := kind_some hd
  rw [listing] at hcs
  rw [dirOut]
  cases hfind : dcacheFind fs p with
  | some e =>
    rw [hfind] at hcs
    exact congrArg Except.ok (Option.some.inj hcs)
  | none =>
    rw [hfind, hn] at hcs
    dsimp only
    rw [hn]
    exact (if_neg (not_not.mpr ht)).trans (congrArg Except.ok (Option.some.inj hcs))

theorem dirOut_file (h : Sound K m ∅ fs) {p : Path} {t : UInt16} (hk : kind m p = some t)
    (ht : t ≠ ftDir) : dirOut m fs p = .error .enotdir := by
  obtain ⟨n, hn, rfl⟩ := kind_some hk
  have hfind : dcacheFind fs p = none := by
    rw [dcacheFind]
    refine if_neg fun hc ↦ ht (h.listings.typed _ n hc.1 ?_)
    rw [hc.2]
    exact hn
  rw [dirOut, hfind, hn]
  exact if_pos ht

/-- Bringing a directory into the cache shows in no listing, as long as the directory exists and so
does the one that makes room. -/
theorem dirOut_opened {dir : Path} {W : Set Path} (h : Sound K m ∅ fs) (h' : Sound K m' ∅ fs')
    (hR : Rewrites W m m' fs fs') (ho : Opened dir m fs fs') (hdir : kind m dir = some ftDir)
    (hrival : (fs.dcache (dcIndex dir)).valid = true → m (fs.dcache (dcIndex dir)).path ≠ none)
    (q : Path) : dirOut m' fs' q = dirOut m fs q := by
  have hkind : kind m' q = kind m q := hR.toEffect.kind (Set.notMem_empty q)
  cases hk : kind m q with
  | some t =>
    obtain ⟨x, hx, hxt⟩ := kind_some hk
    by_cases ht : t = ftDir
    · rw [ht] at hk
      obtain ⟨cs, hcs⟩ := listing_some fs hx
      rw [dirOut_dir hk hcs]
      refine dirOut_dir (hkind.trans hk) ?_
      exact (hR.toEffect.listing q x (Set.notMem_empty q) (Set.notMem_empty q) hx
        (hxt.trans ht)).trans hcs
    · rw [dirOut_file h hk ht, dirOut_file h' (hkind.trans hk) ht]
  | none =>
    have hm : m q = none := Option.map_eq_none_iff.mp hk
    have hm' : m' q = none := Option.map_eq_none_iff.mp (hkind.trans hk)
    have hqd : dir ≠ q := fun hc ↦ by
      rw [hc, hk] at hdir
      cases hdir
    have hfind : dcacheFind fs' q = dcacheFind fs q := by
      rw [dcacheFind, dcacheFind]
      by_cases hi : dcIndex q = dcIndex dir
      · rw [hi]
        -- neither the directory nor the one that left its slot is `q`
        have hnew : ¬((fs'.dcache (dcIndex dir)).valid = true ∧
            (fs'.dcache (dcIndex dir)).path = q) := fun hc ↦ hqd (ho.path.symm.trans hc.2)
        have hold : ¬((fs.dcache (dcIndex dir)).valid = true ∧
            (fs.dcache (dcIndex dir)).path = q) := fun hc ↦ hrival hc.1 (hc.2.symm ▸ hm)
        rw [if_neg hnew, if_neg hold]
      · rw [ho.others _ hi]
    rw [dirOut, dirOut, hfind, hm, hm']

end answers

/-- The directory exists, so does the one whose listing has to leave the cache for it, and bringing
it into the cache meets no failure of the operating system and leaves free blocks. -/
structure Loads (env : Env) (fs : Fs) (dir : Path) : Prop where
  directory : kind (indexed fs) dir = some ftDir
  rival : (fs.dcache (dcIndex dir)).valid = true →
    indexed fs (fs.dcache (dcIndex dir)).path ≠ none
  calm : ∃ o, Healthy o ∧ dirOpen env dir fs = dirOpen o dir fs
  room : ∀ rc fs', dirOpen env dir fs = some (rc, fs') → Live fs'

section failures

variable {env out : Env} (he : Healthy env) {K : Path → Prop} (hK : Names K) {fs : Fs} {dir : Path}
include he hK

theorem opened_sameListings (hc : (dcacheFind fs dir).isSome ∨
    CarefulRun K env fs ∧ Loads out fs dir) {rc : Rc} {fs₁ : Fs}
    (hopen : dirOpen out dir fs = some (rc, fs₁)) (t : ℕ) :
    SameListings fs { fs₁ with clock := t } := by
  rcases hc with hc | ⟨hr, hl⟩
  · rw [dirOpen_cached hc] at hopen
    obtain ⟨-, rfl⟩ := Prod.mk.inj (Option.some.inj hopen)
    exact sameListings_clock fs t
  · have hs := hr.sound he hK
    obtain ⟨n, hn, ht⟩ := kind_some hl.directory
    obtain ⟨o, ho, heq⟩ := hl.calm
    obtain ⟨-, m', hs', hR, hO⟩ := hs.dirOpen ho hK (hs.names (by rw [hn]; simp)) hn ht
      (heq.symm.trans hopen) (hl.room _ _ hopen)
    intro o path ho
    rw [readdirOut_sound hs ho]
    exact (readdirOut_sound (hs'.clockTo t) ho path).trans
      (congrArg some (dirOut_opened hs hs' hR hO hl.directory hl.rival _))

/-- A failed change to a directory shows in no listing if the directory is in the cache, or can be
brought there at the end of a careful run. -/
theorem failed_update_unseen (hc : (dcacheFind fs dir).isSome ∨
    CarefulRun K env fs ∧ Loads out fs dir) (name : Path) :
    (∀ type rc fs', dirAddChild out dir name type fs = some (rc, fs') → rc ≠ .ok →
      SameListings fs fs') ∧
    ∀ rc fs', dirRemoveChild out dir name fs = some (rc, fs') → rc ≠ .ok → SameListings fs fs' := by
  refine ⟨fun type rc fs' hx hrc ↦ ?_, fun rc fs' hx hrc ↦ ?_⟩
  · obtain ⟨rc₁, fs₁, t, hopen, rfl⟩ := dirAddChild_failed hx hrc
    exact opened_sameListings he hK hc hopen t
  · obtain ⟨rc₁, hopen⟩ := dirRemoveChild_failed hx hrc
    exact opened_sameListings he hK hc hopen fs'.clock

end failures

section fresh

theorem loads_fresh : Loads steady (freshFs steady 1 0) rootPath := by
  have hs : Sound (· ∈ fewPaths) _ ∅ (freshFs steady 1 0) :=
    sound_fresh fewPaths_names goodSize_one 0
  have hroot := freshInodes_root (steady.time 1)
  obtain ⟨fs₁, hopen, hsb⟩ := hs.dirOpen_returns steady_healthy fewPaths_names (by decide) hroot
    (rootInode_type _) (fresh_rivals steady 1 0 rootPath)
  refine ⟨?_, fun hv ↦ (by cases hv), ⟨steady, steady_healthy, rfl⟩, fun rc fs' hx ↦ ?_⟩
  · rw [hs.indexed_eq fewPaths_names]
    exact (tree_fresh _).root
  · obtain ⟨-, rfl⟩ := Prod.mk.inj (Option.some.inj (hopen.symm.trans hx))
    exact ((spares_sb hsb) 240 (by rw [Nat.zero_add]; exact freshOne_ample)).live

/-- Removing a name that the root does not have. -/
theorem failed_update_unseen_root : ∃ fs fs', CarefulRun (· ∈ fewPaths) steady fs ∧
    Loads steady fs rootPath ∧ dirRemoveChild steady rootPath [97] fs = some (.enoent, fs') ∧
    SameListings fs fs' := by
  have hrun : CarefulRun (· ∈ fewPaths) steady (freshFs steady 1 0) :=
    .fresh (fresh_apply steady_healthy goodSize_one 0)
  have hs : Sound (· ∈ fewPaths) _ ∅ (freshFs steady 1 0) :=
    sound_fresh fewPaths_names goodSize_one 0
  obtain ⟨fs₁, hopen, hsb⟩ := hs.dirOpen_returns steady_healthy fewPaths_names (by decide)
    (freshInodes_root (steady.time 1)) (rootInode_type _) (fresh_rivals steady 1 0 rootPath)
  obtain ⟨-, m', -, -, hO⟩ := hs.dirOpen steady_healthy fewPaths_names (by decide)
    (freshInodes_root _) (rootInode_type _) hopen (loads_fresh.room _ _ hopen)
  have hnil : (fs₁.dcache (dcIndex rootPath)).children = [] :=
    (Option.some.inj ((listing_fresh steady 1 0).symm.trans hO.children)).symm
  have hx : dirRemoveChild steady rootPath [97] (freshFs steady 1 0) = some (.enoent, fs₁) := by
    rw [dirRemoveChild, bind_apply, hopen, Option.bind_some]
    simp only [bind_apply, get_apply, Option.bind_some, hnil, List.findIdx?_nil, pure_apply]
  exact ⟨_, fs₁, hrun, loads_fresh, hx, (failed_update_unseen steady_healthy fewPaths_names
    (.inr ⟨hrun, loads_fresh⟩) [97]).2 _ _ hx (by decide)⟩

/-- A directory that does not exist has an empty listing after the attempt to add to it. -/
theorem failed_update_listed : ¬∀ (env out : Env) (fs fs' : Fs) (dir name : Path) (type : UInt8)
    (rc : Rc), Healthy env → Reachable env fs → dirAddChild out dir name type fs = some (rc, fs') →
    rc ≠ .ok → SameListings fs fs' := by
  intro hall
  have hs : Sound (· ∈ fewPaths) _ ∅ (freshFs steady 1 0) :=
    sound_fresh fewPaths_names goodSize_one 0
  have hmiss : freshInodes (steady.time 1) [slash, 97] = none := if_neg (by decide)
  obtain ⟨L, hb⟩ := hs.backed
  have hb₀ : Backed (· ∈ fewPaths) (freshInodes (steady.time 1)) _
      (withListing (freshFs steady 1 0) (dcIndex [slash, 97]) ⟨[slash, 97], [], 0, false, true⟩) L :=
    hb.same rfl rfl rfl rfl
  obtain ⟨fs₁, hget, -, hk, -⟩ := hb₀.inodePagedGet steady_healthy
    (show ([slash, 97] : Path).length < 2 ^ 32 by decide)
  rw [hmiss] at hget
  have hopen : dirOpen steady [slash, 97] (freshFs steady 1 0) = some (.enoent, fs₁) := by
    have hfind : dcacheFind (freshFs steady 1 0) [slash, 97] = none := rfl
    have hslot : ¬(((freshFs steady 1 0).dcache (dcIndex [slash, 97])).valid = true ∧
        ((freshFs steady 1 0).dcache (dcIndex [slash, 97])).dirty = true) := fun hc ↦ by cases hc.1
    have halloc : dcacheAlloc steady [slash, 97] (freshFs steady 1 0) = some ((), withListing
        (freshFs steady 1 0) (dcIndex [slash, 97]) ⟨[slash, 97], [], 0, false, true⟩) := by
      simp only [dcacheAlloc, bind_apply, get_apply, Option.bind_some, if_neg hslot]
      rfl
    have hcold : icacheInode (withListing (freshFs steady 1 0) (dcIndex [slash, 97])
        ⟨[slash, 97], [], 0, false, true⟩).icache (xxh64 [slash, 97]) = none := by
      have := hs.cacheGet (p := [slash, 97]) (fewPaths_names.untwinned (by decide))
      rw [show cell (freshFs steady 1 0).icache [slash, 97] = none from cell_init _] at this
      exact this
    simp only [dirOpen, bind_apply, get_apply, Option.bind_some, hfind, halloc, hcold,
      Option.filter_none, hget, answered, pure_apply]
  have hx : dirAddChild steady [slash, 97] [98] 0 (freshFs steady 1 0) = some (.enoent, fs₁) := by
    rw [dirAddChild, bind_apply, hopen, Option.bind_some]
    rfl
  have hsame := hall steady steady _ _ _ _ _ _ steady_healthy
    (.fresh (fresh_apply steady_healthy goodSize_one 0)) hx (by decide) steady [slash, 97]
    steady_healthy
  rw [readdirOut_sound hs steady_healthy] at hsame
  have hbefore : dirOut (freshInodes (steady.time 1)) (freshFs steady 1 0)
      (pathNormalize [slash, 97]) = .error .enoent := by
    rw [dirOut, fresh_dcacheFind, show pathNormalize [slash, 97] = [slash, 97] by decide, hmiss]
  have hafter : dcacheFind fs₁ (pathNormalize [slash, 97]) =
      some ⟨[slash, 97], [], 0, false, true⟩ := by
    rw [dcacheFind_congr hk.only.dcache, show pathNormalize [slash, 97] = [slash, 97] by decide]
    simp only [dcacheFind, withListing, ↓reduceIte, and_self]
  rw [hbefore, readdirOut_empty hafter rfl] at hsame
  cases Option.some.inj hsame

end fresh

end Xxfs.ListingFailures

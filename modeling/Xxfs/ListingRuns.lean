import Xxfs.FormatRoundTrip
import Xxfs.NamespaceRuns

namespace Xxfs.ListingRuns

open Function
open Xxfs.DiskFormat Xxfs.Machine Xxfs.PagedIndex Xxfs.InodeCache Xxfs.DirCache Xxfs.Volume
open Xxfs.Operations Xxfs.Hash Xxfs.PathName Xxfs.CacheMap Xxfs.IndexState Xxfs.FreshVolume
open Xxfs.FreshIndex Xxfs.Runs Xxfs.Soundness Xxfs.NamespaceRuns
open Xxfs.Lib Xxfs.Lib.Computation Xxfs.Lib.Computation.Comp

/-- The name in `dc_name`: the bytes before the first NUL. -/
def childName (c : DirChild) : Path := (List.ofFn c.dcName).takeWhile (· ≠ 0)

/-- A C string that `dc_name` holds in full. -/
structure Fitting (name : Path) : Prop where
  short : name.length ≤ maxName
  noNul : 0 ∉ name

section names

variable {name q : Path} (hn : Fitting name) (t : UInt8)

theorem bytesAt_of_le {l : Path} {i : ℕ} (h : l.length ≤ i) : bytesAt l i = 0 := by
  rw [bytesAt, List.getD_eq_getElem?_getD, List.getElem?_eq_none h]
  rfl

theorem bytesAt_ne {l : Path} (hl : 0 ∉ l) {i : ℕ} (h : i < l.length) : bytesAt l i ≠ 0 := by
  rw [bytesAt, List.getD_eq_getElem?_getD, List.getElem?_eq_getElem h, Option.getD_some]
  exact fun h0 ↦ hl (h0 ▸ List.getElem_mem h)

theorem eq_of_bytes {l l' : Path} (hl : 0 ∉ l) (hl' : 0 ∉ l')
    (h : ∀ i ≤ l'.length, bytesAt l i = bytesAt l' i) : l = l' := by
  have hle : l.length ≤ l'.length := by
    by_contra hlt
    refine bytesAt_ne hl (Nat.not_le.mp hlt) ?_
    rw [h _ le_rfl, bytesAt_of_le le_rfl]
  have hge : l'.length ≤ l.length := by
    by_contra hlt
    have hlt := Nat.not_le.mp hlt
    refine bytesAt_ne hl' hlt ?_
    rw [← h _ hlt.le, bytesAt_of_le le_rfl]
  refine List.ext_getElem (le_antisymm hle hge) fun i hi hi' ↦ ?_
  have := h i hi'.le
  rwa [bytesAt, bytesAt, List.getD_eq_getElem?_getD, List.getD_eq_getElem?_getD,
    List.getElem?_eq_getElem hi, List.getElem?_eq_getElem hi', Option.getD_some,
    Option.getD_some] at this

theorem newChild_byte (name : Path) (t : UInt8) {j : ℕ} (hj : j < 256) :
    (newChild name t).encode (8 + j) = if j < min name.length maxName then bytesAt name j else 0 := by
  have hname : (newChild name t).encode (8 + j) = (newChild name t).dcName ⟨j, hj⟩ := by
    conv_rhs => rw [← DirChild.decode_encode (newChild name t)]
    rfl
  rw [hname]
  change (if 0 ≤ j ∧ j < 0 + min name.length maxName then bytesAt name (j - 0) else 0) = _
  rw [Nat.zero_add, Nat.sub_zero]
  simp

include hn

theorem newChild_dcName (i : Fin 256) : (newChild name t).dcName i = bytesAt name i := by
  have hmin : min name.length maxName = name.length := min_eq_left hn.short
  change (if 0 ≤ i.val ∧ i.val < 0 + min name.length maxName then bytesAt name (i.val - 0) else 0) = _
  rw [hmin, Nat.zero_add, Nat.sub_zero]
  split
  · rfl
  · exact (bytesAt_of_le (by omega)).symm

theorem newChild_dcHash : (newChild name t).dcHash = xxh64 name := by
  change xxh64 (name.take maxName) = _
  rw [List.take_of_length_le hn.short]

theorem childName_newChild : childName (newChild name t) = name := by
  have hmax : maxName = 255 := rfl
  have hlen := hn.short
  have hbytes : List.ofFn (newChild name t).dcName =
      name ++ List.replicate (255 - name.length + 1) 0 := by
    refine List.ext_getElem ?_ fun i hi hi' ↦ ?_
    · rw [List.length_ofFn, List.length_append, List.length_replicate]
      omega
    · rw [List.getElem_ofFn, newChild_dcName hn]
      dsimp only
      by_cases h : i < name.length
      · rw [List.getElem_append_left h, bytesAt, List.getD_eq_getElem?_getD,
          List.getElem?_eq_getElem h, Option.getD_some]
      · rw [List.getElem_append_right (Nat.not_lt.mp h), List.getElem_replicate,
          bytesAt_of_le (Nat.not_lt.mp h)]
  rw [childName, hbytes, List.takeWhile_append_of_pos]
  · rw [List.replicate_succ, List.takeWhile_cons_of_neg (by simp), List.append_nil]
  · intro b hb
    have : b ≠ 0 := fun h0 ↦ hn.noNul (h0 ▸ hb)
    simpa using this

/-- What `dir_remove_child` compares tells fitting names apart. -/
theorem childMatches_newChild (hq : Fitting q) : childMatches (newChild name t) q = true ↔ name = q := by
  have hmax : maxName = 255 := rfl
  have hbyte (j : ℕ) (hj : j < 256) : (newChild name t).encode (8 + j) = bytesAt name j := by
    rw [newChild_byte name t hj, min_eq_left hn.short]
    split
    · rfl
    · exact (bytesAt_of_le (by omega)).symm
  have hlen := hq.short
  rw [childMatches, Bool.and_eq_true, beq_iff_eq, newChild_dcHash hn, sameBytes, List.all_eq_true]
  constructor
  · rintro ⟨-, hall⟩
    refine eq_of_bytes hn.noNul hq.noNul fun i hi ↦ ?_
    have := hall i (List.mem_range.mpr (by omega))
    rwa [beq_iff_eq, hbyte i (by omega)] at this
  · rintro rfl
    refine ⟨rfl, fun i hi ↦ ?_⟩
    rw [beq_iff_eq, hbyte i]
    have := List.mem_range.mp hi
    omega

end names

section removal

variable {cs : List DirChild} {name : Path}

theorem mem_without (hnd : cs.Nodup) {x : DirChild} (hx : x ∈ cs)
    (hmatch : ∀ y ∈ cs, childMatches y name = true ↔ y = x) :
    (without cs name).Nodup ∧ ∀ c, c ∈ without cs name ↔ c ∈ cs ∧ c ≠ x := by
  rw [without]
  cases hfind : cs.findIdx? (fun c ↦ childMatches c name) with
  | none =>
    have hno := List.findIdx?_eq_none_iff.mp hfind x hx
    rw [(hmatch x hx).mpr rfl] at hno
    cases hno
  | some i =>
    obtain ⟨hi, hat, -⟩ := List.findIdx?_eq_some_iff_getElem.mp hfind
    have hx' : cs[i] = x := (hmatch _ (List.getElem_mem hi)).mp hat
    have hperm := SwapRemove.swapRemove_perm hi
    refine ⟨hperm.nodup_iff.mpr (hnd.eraseIdx i), fun c ↦ hperm.mem_iff.trans ?_⟩
    rw [List.mem_eraseIdx_iff_getElem, ← hx']
    constructor
    · rintro ⟨j, hj, hne, rfl⟩
      exact ⟨List.getElem_mem hj, fun heq ↦ hne ((hnd.getElem_inj_iff).mp heq)⟩
    · rintro ⟨hc, hne⟩
      obtain ⟨j, hj, rfl⟩ := List.mem_iff_getElem.mp hc
      exact ⟨j, hj, fun h ↦ hne (by simp [h]), rfl⟩

end removal

/-- The entry of a path in the listing of its parent. -/
def ChildOf (k : Path → Option UInt16) (d : Path) (c : DirChild) : Prop :=
  ∃ p t, p ≠ rootPath ∧ getParentPath p = d ∧ k p = some t ∧ c = newChild (getBasename p) t.toUInt8

/-- The listings mirror the paths that exist, and none outlives its directory. -/
structure Mirror (m : Inodes) (fs : Fs) : Prop where
  fits : ∀ p, p ≠ rootPath → kind m p ≠ none → Fitting (getBasename p)
  current : ∀ d, dcacheFind fs d ≠ none → kind m d = some ftDir
  nodup : ∀ d cs, kind m d = some ftDir → listing m fs d = some cs → cs.Nodup
  mem : ∀ d cs, kind m d = some ftDir → listing m fs d = some cs →
    ∀ c, c ∈ cs ↔ ChildOf (kind m) d c

section mirror

variable {K : Path → Prop} (hK : Names K) {m m' : Inodes} {fs fs' : Fs} {p : Path}

theorem Mirror.same (h : Mirror m fs) (hk : ∀ q, kind m' q = kind m q)
    (hl : ∀ d, kind m d = some ftDir → listing m' fs' d = listing m fs d)
    (hc : ∀ q, dcacheFind fs' q ≠ none → dcacheFind fs q ≠ none) : Mirror m' fs' := by
  have hkind : kind m' = kind m := funext hk
  refine ⟨fun q hq hex ↦ h.fits q hq (hk q ▸ hex), fun d hd ↦ ?_, fun d cs hd hcs ↦ ?_,
    fun d cs hd hcs c ↦ ?_⟩
  · rw [hk]
    exact h.current d (hc d hd)
  · rw [hk] at hd
    exact h.nodup d cs hd ((hl d hd).symm.trans hcs)
  · rw [hk] at hd
    rw [hkind]
    exact h.mem d cs hd ((hl d hd).symm.trans hcs) c

include hK

theorem Mirror.entry_inj (h : Mirror m fs) (hs : Sound K m ∅ fs) {q : Path} (hp0 : p ≠ rootPath)
    (hq0 : q ≠ rootPath) (hpar : getParentPath p = getParentPath q) (hp : K p)
    (hfit : Fitting (getBasename p)) (hq : kind m q ≠ none) {t t' : UInt8}
    (heq : newChild (getBasename p) t = newChild (getBasename q) t') : p = q := by
  have hKq : K q := hs.names fun hm ↦ hq (by rw [kind, hm]; rfl)
  have hname := congrArg childName heq
  rw [childName_newChild hfit, childName_newChild (h.fits q hq0 hq)] at hname
  exact (hK.clean p hp).eq_of_parts (hK.clean q hKq) hp0 hq0 hpar hname

theorem Mirror.added (h : Mirror m fs) (hs : Sound K m ∅ fs) {n : Inode} (hp : K p)
    (hv : Vacant m fs p) (hfit : Fitting (getBasename p))
    (hA : Added p n n.iFileType.toUInt8 m m' fs fs') : Mirror m' fs' := by
  have hroot : p ≠ rootPath := fun hr ↦ by
    have := hs.tree.root
    rw [← hr, kind, hv.absent] at this
    cases this
  have hold : kind m p = none := by rw [kind, hv.absent]; rfl
  have hnew : kind m' p = some n.iFileType := by rw [kind, hA.stored]; rfl
  have hrest (q : Path) (hq : q ≠ p) : kind m' q = kind m q := hA.toEffect.kind hq
  have hpar : getParentPath p ≠ p := fun hc ↦ by
    have := hv.parent
    rw [hc, hold] at this
    cases this
  -- nothing was below the new path
  have hbelow (q : Path) (hq0 : q ≠ rootPath) (hq : kind m q ≠ none) : getParentPath q ≠ p :=
    fun hc ↦ by
      have := hs.tree.parent q hq0 hq
      rw [hc, hold] at this
      cases this
  have hchild (d : Path) (c : DirChild) : ChildOf (kind m') d c ↔ ChildOf (kind m) d c ∨
      d = getParentPath p ∧ c = newChild (getBasename p) n.iFileType.toUInt8 := by
    constructor
    · rintro ⟨q, t, hq0, hqd, ht, rfl⟩
      by_cases hq : q = p
      · subst hq
        rw [hnew] at ht
        exact .inr ⟨hqd.symm, by rw [Option.some.inj ht]⟩
      · exact .inl ⟨q, t, hq0, hqd, (hrest q hq).symm.trans ht, rfl⟩
    · rintro (⟨q, t, hq0, hqd, ht, rfl⟩ | ⟨rfl, rfl⟩)
      · have hq : q ≠ p := fun hc ↦ by rw [hc, hold] at ht; cases ht
        exact ⟨q, t, hq0, hqd, (hrest q hq).trans ht, rfl⟩
      · exact ⟨p, _, hroot, rfl, hnew, rfl⟩
  obtain ⟨cs, hcs, hnow⟩ := hA.now
  have hlist (d : Path) (hd : kind m d = some ftDir) (hdp : d ≠ getParentPath p) :
      listing m' fs' d = listing m fs d := by
    obtain ⟨x, hx, ht⟩ := kind_some hd
    refine hA.toEffect.listing d x (fun hc ↦ ?_) hdp hx ht
    rw [Set.mem_singleton_iff.mp hc, hold] at hd
    cases hd
  refine ⟨fun q hq0 hq ↦ ?_, fun d hd ↦ ?_, fun d ds hd hds ↦ ?_, fun d ds hd hds c ↦ ?_⟩
  · by_cases hqp : q = p
    · exact hqp ▸ hfit
    · exact h.fits q hq0 (hrest q hqp ▸ hq)
  · rcases hA.cached d hd with rfl | hd'
    · rw [hrest _ hpar]
      exact hv.parent
    · have hdir := h.current d hd'
      rw [hrest d fun hc ↦ by rw [hc, hold] at hdir; cases hdir]
      exact hdir
  · by_cases hdp : d = p
    · rw [hdp, hA.own] at hds
      obtain rfl := Option.some.inj hds
      exact List.nodup_nil
    rw [hrest d hdp] at hd
    by_cases hdpar : d = getParentPath p
    · rw [hdpar, hnow] at hds
      obtain rfl := Option.some.inj hds
      rw [hdpar] at hd
      refine List.nodup_append.mpr ⟨h.nodup _ cs hd hcs, List.nodup_singleton _, fun c hc c' hc' ↦ ?_⟩
      rintro rfl
      obtain rfl := List.mem_singleton.mp hc'
      obtain ⟨q, t, hq0, hqd, ht, heq⟩ := (h.mem _ cs hd hcs _).mp hc
      have hqn : kind m q ≠ none := by rw [ht]; exact Option.some_ne_none t
      rw [← h.entry_inj hK hs hroot hq0 hqd.symm hp hfit hqn heq] at hqn
      exact hqn hold
    · exact h.nodup d ds hd ((hlist d hd hdpar).symm.trans hds)
  · rw [hchild]
    by_cases hdp : d = p
    · rw [hdp, hA.own] at hds
      obtain rfl := Option.some.inj hds
      refine ⟨fun hc ↦ absurd hc List.not_mem_nil, ?_⟩
      rintro (⟨q, t, hq0, hqd, ht, -⟩ | ⟨hd', -⟩)
      · exact (hbelow q hq0 (by rw [ht]; exact Option.some_ne_none t) (hqd.trans hdp)).elim
      · exact (hpar (hd'.symm.trans hdp)).elim
    rw [hrest d hdp] at hd
    by_cases hdpar : d = getParentPath p
    · rw [hdpar, hnow] at hds
      obtain rfl := Option.some.inj hds
      rw [hdpar] at hd ⊢
      rw [List.mem_append, List.mem_singleton, h.mem _ cs hd hcs]
      exact or_congr_right (by simp)
    · rw [h.mem d ds hd ((hlist d hd hdpar).symm.trans hds)]
      exact ⟨.inl, fun hc ↦ hc.resolve_right fun hr ↦ hdpar hr.1⟩

theorem Mirror.removed (h : Mirror m fs) (hs : Sound K m ∅ fs) {n : Inode} (hp : K p)
    (hn : m p = some n) (hleaf : Leaf K m fs p) (hcold : dcacheFind fs p = none)
    (hR : Removed p m m' fs fs') : Mirror m' fs' := by
  have hroot := hleaf.ne_root
  have hold : kind m p = some n.iFileType := by rw [kind, hn]; rfl
  have hex : kind m p ≠ none := by rw [hold]; exact Option.some_ne_none _
  have hnew : kind m' p = none := by rw [kind, hR.gone]; rfl
  have hrest (q : Path) (hq : q ≠ p) : kind m' q = kind m q := hR.toEffect.kind hq
  have hpar : getParentPath p ≠ p := hleaf.childless p hroot (by rw [hn]; exact Option.some_ne_none n)
  have hdir : kind m (getParentPath p) = some ftDir := hs.tree.parent p hroot hex
  have hfit := h.fits p hroot hex
  have hchild (d : Path) (c : DirChild) : ChildOf (kind m') d c ↔ ChildOf (kind m) d c ∧
      (d = getParentPath p → c ≠ newChild (getBasename p) n.iFileType.toUInt8) := by
    constructor
    · rintro ⟨q, t, hq0, hqd, ht, rfl⟩
      have hq : q ≠ p := fun hc ↦ by rw [hc, hnew] at ht; cases ht
      have ht' : kind m q = some t := (hrest q hq).symm.trans ht
      refine ⟨⟨q, t, hq0, hqd, ht', rfl⟩, fun hd heq ↦ hq ?_⟩
      have hqn : kind m q ≠ none := by rw [ht']; exact Option.some_ne_none t
      exact (h.entry_inj hK hs hroot hq0 (hd.symm.trans hqd.symm) hp hfit hqn heq.symm).symm
    · rintro ⟨⟨q, t, hq0, hqd, ht, rfl⟩, hne⟩
      have hq : q ≠ p := by
        rintro rfl
        rw [hold] at ht
        exact hne hqd.symm (by rw [Option.some.inj ht])
      exact ⟨q, t, hq0, hqd, (hrest q hq).trans ht, rfl⟩
  obtain ⟨cs, hcs, hnow⟩ := hR.now
  have hlist (d : Path) (hdp : d ≠ p) (hd : kind m d = some ftDir) (hdpar : d ≠ getParentPath p) :
      listing m' fs' d = listing m fs d := by
    obtain ⟨x, hx, ht⟩ := kind_some hd
    exact hR.toEffect.listing d x hdp hdpar hx ht
  have hmem : newChild (getBasename p) n.iFileType.toUInt8 ∈ cs :=
    (h.mem _ cs hdir hcs _).mpr ⟨p, _, hroot, rfl, hold, rfl⟩
  have hmatch (y : DirChild) (hy : y ∈ cs) : childMatches y (getBasename p) = true ↔
      y = newChild (getBasename p) n.iFileType.toUInt8 := by
    obtain ⟨q, t, hq0, hqd, ht, rfl⟩ := (h.mem _ cs hdir hcs y).mp hy
    have hqn : kind m q ≠ none := by rw [ht]; exact Option.some_ne_none t
    rw [childMatches_newChild (h.fits q hq0 hqn) _ hfit]
    constructor
    · intro hname
      obtain rfl : q = p := (hK.clean q (hs.names fun hm ↦ hqn (by rw [kind, hm]; rfl))).eq_of_parts
        (hK.clean p hp) hq0 hroot hqd hname
      rw [hold] at ht
      rw [Option.some.inj ht]
    · intro heq
      rw [h.entry_inj hK hs hroot hq0 hqd.symm hp hfit hqn heq.symm]
  obtain ⟨hwnd, hwmem⟩ := mem_without (h.nodup _ cs hdir hcs) hmem hmatch
  have hdp (d : Path) (hd : kind m' d = some ftDir) : d ≠ p := fun hc ↦ by
    rw [hc, hnew] at hd
    cases hd
  refine ⟨fun q hq0 hq ↦ ?_, fun d hd ↦ ?_, fun d ds hd hds ↦ ?_, fun d ds hd hds c ↦ ?_⟩
  · have hqp : q ≠ p := fun hc ↦ hq (hc ▸ hnew)
    exact h.fits q hq0 (hrest q hqp ▸ hq)
  · rcases hR.cached d hd with rfl | hd'
    · rw [hrest _ hpar]
      exact hdir
    · rw [hrest d fun hc ↦ hd' (hc ▸ hcold)]
      exact h.current d hd'
  · have hne := hdp d hd
    rw [hrest d hne] at hd
    by_cases hdpar : d = getParentPath p
    · rw [hdpar, hnow] at hds
      obtain rfl := Option.some.inj hds
      exact hwnd
    · exact h.nodup d ds hd ((hlist d hne hd hdpar).symm.trans hds)
  · have hne := hdp d hd
    rw [hrest d hne] at hd
    rw [hchild]
    by_cases hdpar : d = getParentPath p
    · rw [hdpar, hnow] at hds
      obtain rfl := Option.some.inj hds
      rw [hdpar] at hd ⊢
      rw [hwmem c, h.mem _ cs hd hcs]
      simp
    · rw [h.mem d ds hd ((hlist d hne hd hdpar).symm.trans hds)]
      exact ⟨fun hc ↦ ⟨hc, fun hd' ↦ (hdpar hd').elim⟩, And.left⟩

end mirror

/-- Careful operations that keep the listings in step: the names fit, no directory goes while its
listing is cached, and no path is made or moved by `xxfs_symlink` or `xxfs_rename`, which do not
touch the listings. -/
def Listable (K : Path → Prop) (fs : Fs) (op : Op) : Prop :=
  Careful K fs op ∧ match op with
  | .create path _ _ _ | .mkdir path _ _ _ => indexed fs (pathNormalize path) = none →
    Fitting (getBasename (pathNormalize path))
  | .rmdir path => kind (indexed fs) (pathNormalize path) = some ftDir →
    dcacheFind fs (pathNormalize path) = none
  | .rename old _ => indexed fs (pathNormalize old) = none
  | .symlink target linkpath =>
    inlineMax < target.length ∨ indexed fs (pathNormalize linkpath) ≠ none
  | _ => True

section runs

variable {env : Env} (he : Healthy env) {K : Path → Prop} (hK : Names K) {m m' : Inodes} {fs fs' : Fs}

theorem mirror_fresh (sizeMb flags : UInt64) :
    Mirror (freshInodes (env.time 1)) (freshFs env sizeMb flags) := by
  have honly (q : Path) (hq : q ≠ rootPath) : kind (freshInodes (env.time 1)) q = none := by
    rw [kind, freshInodes, if_neg hq]
    rfl
  have hroot {d : Path} (hd : kind (freshInodes (env.time 1)) d = some ftDir) : d = rootPath := by
    by_contra hne
    rw [honly d hne] at hd
    cases hd
  refine ⟨fun q hq hex ↦ (hex (honly q hq)).elim, fun d hd ↦ (hd rfl).elim, fun d cs hd hcs ↦ ?_,
    fun d cs hd hcs c ↦ ?_⟩
  · rw [hroot hd, listing_fresh] at hcs
    obtain rfl := Option.some.inj hcs
    exact List.nodup_nil
  · rw [hroot hd, listing_fresh] at hcs
    obtain rfl := Option.some.inj hcs
    refine ⟨fun hc ↦ absurd hc List.not_mem_nil, ?_⟩
    rintro ⟨q, t, hq, -, ht, -⟩
    rw [honly q hq] at ht
    cases ht

theorem listing_restored (hs : Sound K m ∅ fs) {p : Path} {n n' : Inode}
    (hn : seen m fs p = some n) (hbody : n.iFileType = ftDir → SameBody n n')
    (hR : Restored p n' m m' fs fs') {d : Path} (hd : kind m d = some ftDir) :
    listing m' fs' d = listing m fs d := by
  obtain ⟨x, hx, ht⟩ := kind_some hd
  by_cases hdp : d = p
  · subst hdp
    obtain rfl := Option.some.inj (hn.symm.trans (cur_dir (hs.coherent d) hx ht))
    exact hR.ownListing hs hx ht (hbody ht)
  · exact hR.toEffect.listing d x hdp (Set.notMem_empty d) hx ht

theorem listing_file {P : Set Path} (hE : Effect P ∅ ∅ m m fs fs')
    (hP : ∀ q ∈ P, kind m q ≠ some ftDir) {d : Path} (hd : kind m d = some ftDir) :
    listing m fs' d = listing m fs d := by
  obtain ⟨x, hx, ht⟩ := kind_some hd
  exact hE.listing d x (fun hc ↦ hP d hc hd) (Set.notMem_empty d) hx ht

theorem kind_file (hs : Sound K m ∅ fs) {p : Path} {n : Inode} (hn : seen m fs p = some n)
    (ht : n.iFileType ≠ ftDir) : ∀ q ∈ ({p} : Set Path), kind m q ≠ some ftDir := by
  rintro q rfl
  rw [← cur_kind (hs.coherent q)]
  change (seen m fs q).map _ ≠ _
  rw [hn]
  exact fun h ↦ ht (Option.some.inj h)

include hK in
theorem mirror_step {op : Op} (hs : Sound K m ∅ fs) (h : Mirror m fs) (hc : Listable K fs op)
    (_ : Sound K m' ∅ fs') (ho : Outcome K m m' fs fs' op) : Mirror m' fs' := by
  have hm := hs.indexed_eq hK
  obtain ⟨-, hc⟩ := hc
  cases ho with
  | looked hsame hL =>
    subst hsame
    exact h.same (fun _ ↦ rfl) (fun d hd ↦ hL.listing hd) fun q hq ↦ by
      rwa [dcacheFind_congr hL.dcache] at hq
  | added hop hp hv _ hA _ =>
    refine h.added hK hs hp hv ?_ hA
    cases op with
    | create path mode uid gid =>
      obtain ⟨rfl, -⟩ := hop
      exact hc (by rw [hm]; exact hv.absent)
    | mkdir path mode uid gid =>
      obtain ⟨rfl, -⟩ := hop
      exact hc (by rw [hm]; exact hv.absent)
    | _ => exact hop.elim
  | removed hop hp hn hleaf hR _ =>
    refine h.removed hK hs hp hn hleaf ?_ hR
    cases op with
    | unlink path =>
      obtain ⟨rfl, ht⟩ := hop
      by_contra hcached
      have := h.current _ hcached
      rw [kind, hn] at this
      exact ht (Option.some.inj this)
    | rmdir path =>
      obtain ⟨rfl, ht⟩ := hop
      exact hc (by rw [hm, kind, hn, ← ht]; rfl)
    | _ => exact hop.elim
  | wrote hsame hn ht hW =>
    subst hsame
    refine h.same (fun _ ↦ rfl) (fun d hd ↦ listing_file hW.toEffect (kind_file hs hn ht) hd) fun q hq ↦ ?_
    rwa [dcacheFind_congr hW.dcache] at hq
  | poured hsame hn ht hE _ hd _ =>
    subst hsame
    refine h.same (fun _ ↦ rfl) (fun d hd ↦ listing_file hE (kind_file hs hn ht) hd) fun q hq ↦ ?_
    rwa [dcacheFind_congr hd] at hq
  | restored hn ht hbody hR =>
    refine h.same (kind_restored hs hn ht.type hR) (fun d hd ↦ listing_restored hs hn hbody hR hd)
      fun q hq ↦ ?_
    rwa [dcacheFind_congr hR.dcache] at hq
  | linked hlen _ hspot _ =>
    rcases hc with hlong | hex
    · omega
    · rw [hm] at hex
      exact (hex hspot.absent).elim
  | renamed hn _ _ _ _ =>
    dsimp only at hc
    rw [hm, hn] at hc
    cases hc
  | synced hS => exact h.same hS.kinds hS.listings fun _ ↦ hS.cached
  | remounted hR =>
    refine h.same (fun q ↦ hR.toEffect.kind (Set.notMem_empty q)) (fun d hd ↦ ?_) fun q hq ↦
      (hq (hR.unlisted q)).elim
    obtain ⟨x, hx, ht⟩ := kind_some hd
    exact hR.toEffect.listing d x (Set.notMem_empty d) (Set.notMem_empty d) hx ht

theorem dirOut_ok (h : Mirror m fs) {d : Path} {cs : List DirChild} :
    dirOut m fs d = .ok cs ↔ kind m d = some ftDir ∧ listing m fs d = some cs := by
  rw [dirOut, listing]
  cases hfind : dcacheFind fs d with
  | some e =>
    have hd := h.current d (by rw [hfind]; exact Option.some_ne_none e)
    simp [hd]
  | none =>
    rw [kind]
    cases m d with
    | none => simp
    | some n =>
      by_cases ht : n.iFileType = ftDir
      · simp [ht]
      · simp [ht]

def entry (c : DirChild) : Path × UInt8 := (childName c, c.dcType)

theorem entry_newChild {name : Path} (hn : Fitting name) (t : UInt8) :
    entry (newChild name t) = (name, t) := by
  rw [entry, childName_newChild hn]
  rfl

theorem Mirror.entries (h : Mirror m fs) {d : Path} {cs : List DirChild}
    (hd : kind m d = some ftDir) (hcs : listing m fs d = some cs) : (cs.map entry).Nodup ∧
      ∀ name t, (name, t) ∈ cs.map entry ↔ ∃ p k, p ≠ rootPath ∧ getParentPath p = d ∧
        getBasename p = name ∧ kind m p = some k ∧ k.toUInt8 = t := by
  have hshow {p : Path} {k : UInt16} (hp : p ≠ rootPath) (hk : kind m p = some k) :
      entry (newChild (getBasename p) k.toUInt8) = (getBasename p, k.toUInt8) :=
    entry_newChild (h.fits p hp (by rw [hk]; exact Option.some_ne_none k)) _
  refine ⟨(h.nodup d cs hd hcs).map_on fun c hc c' hc' heq ↦ ?_, fun name t ↦ ?_⟩
  · obtain ⟨p, k, hp0, hpd, hk, rfl⟩ := (h.mem d cs hd hcs c).mp hc
    obtain ⟨q, k', hq0, hqd, hk', rfl⟩ := (h.mem d cs hd hcs c').mp hc'
    rw [hshow hp0 hk, hshow hq0 hk'] at heq
    rw [(Prod.mk.inj heq).1, (Prod.mk.inj heq).2]
  · rw [List.mem_map]
    constructor
    · rintro ⟨c, hc, heq⟩
      obtain ⟨p, k, hp0, hpd, hk, rfl⟩ := (h.mem d cs hd hcs c).mp hc
      rw [hshow hp0 hk] at heq
      exact ⟨p, k, hp0, hpd, (Prod.mk.inj heq).1, hk, (Prod.mk.inj heq).2⟩
    · rintro ⟨p, k, hp0, hpd, rfl, hk, rfl⟩
      exact ⟨_, (h.mem d cs hd hcs _).mpr ⟨p, k, hp0, hpd, hk, rfl⟩, hshow hp0 hk⟩

include he hK

/-- A directory can be listed exactly if it exists, and the listing has the names and types of
what exists in it, each once. -/
theorem readdir_agrees (h : RunBy (Listable K) env fs) {d : Path} (hnorm : pathNormalize d = d)
    (hd : Untwinned K d) :
    ((∃ cs fs', xxfsReaddir env d fs = some (.ok cs, fs')) ↔
      ∃ n fs', xxfsStat env d fs = some (.ok n, fs') ∧ n.iFileType = ftDir) ∧
    ∀ cs fs', xxfsReaddir env d fs = some (.ok cs, fs') → (cs.map entry).Nodup ∧
      ∀ name t, (name, t) ∈ cs.map entry ↔ ∃ p n fs', pathNormalize p = p ∧ Untwinned K p ∧
        p ≠ rootPath ∧ getParentPath p = d ∧ getBasename p = name ∧ xxfsStat env p fs = some (.ok n, fs') ∧ n.iFileType.toUInt8 = t := by
  obtain ⟨hs, hM⟩ := h.invariant he hK (fun _ _ hc ↦ hc.1) (I := Mirror)
    (fun sizeMb flags _ ↦ mirror_fresh sizeMb flags) (mirror_step hK)
  have hstat (p : Path) (hn : pathNormalize p = p) (hp : Untwinned K p) (k : UInt16) : kind (indexed fs) p = some k ↔
      ∃ n fs', xxfsStat env p fs = some (.ok n, fs') ∧ n.iFileType = k := by
    rw [← cur_kind (hs.coherent p), kind, Option.map_eq_some_iff]
    refine exists_congr fun n ↦ ?_
    rw [exists_and_right, stat_named he hK hs hn hp]
  have hread (cs : List DirChild) : (∃ fs', xxfsReaddir env d fs = some (.ok cs, fs')) ↔
      kind (indexed fs) d = some ftDir ∧ listing (indexed fs) fs d = some cs := by
    obtain ⟨fs₁, hx, -⟩ : ∃ fs', xxfsReaddir env d fs =
        some (dirOut (indexed fs) fs (pathNormalize d), fs') ∧ _ := hs.readdir he
    rw [hnorm] at hx
    rw [← dirOut_ok hM, hx]
    simp
  refine ⟨?_, fun cs fs' hx ↦ ?_⟩
  · rw [← hstat d hnorm hd]
    constructor
    · rintro ⟨cs, hcs⟩
      exact ((hread cs).mp hcs).1
    · intro hdir
      obtain ⟨x, hx, -⟩ := kind_some hdir
      obtain ⟨cs, hcs⟩ := listing_some fs hx
      exact ⟨cs, (hread cs).mpr ⟨hdir, hcs⟩⟩
  · obtain ⟨hdir, hcs⟩ := (hread cs).mp ⟨fs', hx⟩
    obtain ⟨hnd, hmem⟩ := hM.entries hdir hcs
    refine ⟨hnd, fun name t ↦ (hmem name t).trans ⟨?_, ?_⟩⟩
    · rintro ⟨p, k, hp0, hpd, hname, hk, rfl⟩
      have hKp : K p := hs.names fun hm ↦ by rw [kind, hm] at hk; cases hk
      have hpn := hK.normalize hKp
      have hu := hK.untwinned hKp
      obtain ⟨n, fs₁, hst, rfl⟩ := (hstat p hpn hu k).mp hk
      exact ⟨p, n, fs₁, hpn, hu, hp0, hpd, hname, hst, rfl⟩
    · rintro ⟨p, n, fs₁, hpn, hu, hp0, hpd, hname, hst, rfl⟩
      exact ⟨p, n.iFileType, hp0, hpd, hname, (hstat p hpn hu _).mpr ⟨n, fs₁, hst, rfl⟩, rfl⟩

end runs

theorem readdir_agrees_few : ∃ fs, RunBy (Listable (· ∈ fewPaths)) steady fs ∧
    ((∃ cs fs', xxfsReaddir steady rootPath fs = some (.ok cs, fs')) ↔
      ∃ n fs', xxfsStat steady rootPath fs = some (.ok n, fs') ∧ n.iFileType = ftDir) ∧
    ∀ cs fs', xxfsReaddir steady rootPath fs = some (.ok cs, fs') → (cs.map entry).Nodup ∧
      ∀ name t, (name, t) ∈ cs.map entry ↔ ∃ p n fs', pathNormalize p = p ∧
        Untwinned (· ∈ fewPaths) p ∧ p ≠ rootPath ∧ getParentPath p = rootPath ∧ getBasename p = name ∧
        xxfsStat steady p fs = some (.ok n, fs') ∧ n.iFileType.toUInt8 = t := by
  have hmem : pathNormalize [slash, 97] ∈ fewPaths := by decide
  have hC : Listable (· ∈ fewPaths) (freshFs steady 1 0) (.create [slash, 97] 0 0 0) :=
    ⟨careful_first fewPaths_names 0 0 0 hmem (by decide) (by decide), fun _ ↦ ⟨by decide, by decide⟩⟩
  obtain ⟨m, fs, hr, -⟩ := first_file fewPaths_names hC hmem (by decide) (by decide)
  exact ⟨fs, hr, readdir_agrees steady_healthy fewPaths_names hr (by decide) (fewPaths_names.untwinned (by decide))⟩

/-- A link is not in the listing of its directory. -/
theorem link_not_listed : ¬∀ (env : Env) (fs : Fs) (d : Path), Healthy env → Reachable env fs →
    pathNormalize d = d →
    ((∃ cs fs', xxfsReaddir env d fs = some (.ok cs, fs')) ↔
      ∃ n fs', xxfsStat env d fs = some (.ok n, fs') ∧ n.iFileType = ftDir) ∧
    ∀ cs fs', xxfsReaddir env d fs = some (.ok cs, fs') → (cs.map entry).Nodup ∧
      ∀ name t, (name, t) ∈ cs.map entry ↔ ∃ p n fs', pathNormalize p = p ∧ p ≠ rootPath ∧
        getParentPath p = d ∧ getBasename p = name ∧ xxfsStat env p fs = some (.ok n, fs') ∧
        n.iFileType.toUInt8 = t := by
  intro hall
  have hmem : pathNormalize [slash, 97] ∈ fewPaths := by decide
  obtain ⟨now, fs, -, hr, hF⟩ := first_link fewPaths_names [116] hmem (by decide) (by decide)
  obtain ⟨fs₁, hstat⟩ := hF.basis.stat steady_healthy fewPaths_names (fewPaths_names.untwinned hmem)
  rw [hF.seen, update_self] at hstat
  have hfind : dcacheFind fs (pathNormalize rootPath) = none := by
    rw [dcacheFind_congr hF.dcache]
    rfl
  have hroot : update (freshInodes (steady.time 1)) (pathNormalize [slash, 97])
      (some (linkInode [116] now)) (pathNormalize rootPath) = some (rootInode (steady.time 1)) :=
    (update_of_ne (by decide) _ _).trans (freshInodes_root _)
  obtain ⟨fs₂, hread⟩ := hF.basis.readdir_empty steady_healthy fewPaths_names (by decide) hfind hroot
    (rootInode_type _) (hollow_root _).size
  obtain ⟨-, hlist⟩ := hall steady fs rootPath steady_healthy hr (by decide)
  have hin := ((hlist [] fs₂ hread).2 [97] (linkInode [116] now).iFileType.toUInt8).mpr
    ⟨[slash, 97], _, fs₁, by decide, by decide, by decide, by decide, hstat, rfl⟩
  exact absurd hin List.not_mem_nil

end Xxfs.ListingRuns

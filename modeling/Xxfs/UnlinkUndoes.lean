import Xxfs.Answers
import Xxfs.ListingFailures
import Xxfs.ListingRuns

namespace Xxfs.UnlinkUndoes

open Function
open Xxfs.DiskFormat Xxfs.Machine Xxfs.PagedIndex Xxfs.PageStore Xxfs.InodeCache Xxfs.DirCache
open Xxfs.Volume Xxfs.Operations Xxfs.Hash Xxfs.PathName Xxfs.CacheMap Xxfs.IndexState
open Xxfs.IndexRep Xxfs.OperationFrames Xxfs.Checksum Xxfs.CacheKeys Xxfs.Frames
open Xxfs.FreshVolume Xxfs.FreshIndex Xxfs.Runs Xxfs.Soundness Xxfs.NamespaceRuns Xxfs.ListingRuns
open Xxfs.Lib Xxfs.Lib.Computation Xxfs.Lib.Computation.Comp

section opens

variable {env : Env} {fs fs' : Fs} {d : Path}

/-- In the directory cache only the slot of `d` may have changed, and that holds `d`. -/
structure Holds (d : Path) (fs fs' : Fs) : Prop where
  path : (fs'.dcache (dcIndex d)).path = d
  others : ∀ i, i ≠ dcIndex d → fs'.dcache i = fs.dcache i

/-- Besides, the inode cache is as it was, and the index has no key in more pages. -/
structure Quiet (d : Path) (fs fs' : Fs) : Prop extends Holds d fs fs' where
  icache : fs'.icache = fs.icache
  single : ∀ k, Single fs k → Single fs' k

theorem Holds.trans {fs'' : Fs} (h : Holds d fs fs') (h' : Holds d fs' fs'') : Holds d fs fs'' :=
  ⟨h'.path, fun i hi ↦ (h'.others i hi).trans (h.others i hi)⟩

theorem Holds.congr {fs₁ fs₁' : Fs} (h : Holds d fs fs') (hd : fs.dcache = fs₁.dcache)
    (hd' : fs₁'.dcache = fs'.dcache) : Holds d fs₁ fs₁' := by
  refine ⟨?_, fun i hi ↦ ?_⟩
  · rw [hd']
    exact h.path
  · rw [hd', ← hd]
    exact h.others i hi

theorem Holds.rivals (h : Holds d fs fs') : rivals fs' d = ∅ :=
  Set.eq_empty_of_forall_notMem fun _ hq ↦ hq.2 (hq.1.2.2.symm.trans h.path)

theorem single_same (hi : fs'.img = fs.img) (hs : fs'.sb = fs.sb) (hd : fs'.pdir = fs.pdir)
    (hc : fs'.pcache = fs.pcache) {k : Path} (h : Single fs k) : Single fs' k :=
  fun L hL ↦ h L (hL.same hi.symm hs.symm hd.symm hc.symm)

theorem single_counts {g : UInt64 → UInt64} {f : Super → Super} (hf : Counts g f) (l : Lock)
    {k : Path} (h : Single fs k) : Single { fs with sb := f fs.sb, lock := l } k := fun L hL ↦ by
  obtain ⟨hD, hB, hF, -⟩ := hf.pool fs.sb
  exact h L (hL.recount rfl rfl rfl hD.symm hB.symm hF.symm)

/-- Nothing but the slot of `d`, and the clock, has changed. -/
structure Reslots (d : Path) (fs fs' : Fs) : Prop where
  img : fs'.img = fs.img
  sb : fs'.sb = fs.sb
  pdir : fs'.pdir = fs.pdir
  pcache : fs'.pcache = fs.pcache
  icache : fs'.icache = fs.icache
  path : (fs.dcache (dcIndex d)).path = d → (fs'.dcache (dcIndex d)).path = d
  others : ∀ i, i ≠ dcIndex d → fs'.dcache i = fs.dcache i

instance : Std.Refl (Reslots d) where
  refl _ := ⟨rfl, rfl, rfl, rfl, rfl, id, fun _ _ ↦ rfl⟩

instance : IsTrans Fs (Reslots d) where
  trans _ _ _ h h' := ⟨h'.img.trans h.img, h'.sb.trans h.sb, h'.pdir.trans h.pdir,
    h'.pcache.trans h.pcache, h'.icache.trans h.icache, h'.path ∘ h.path,
    fun i hi ↦ (h'.others i hi).trans (h.others i hi)⟩

theorem setDcache_reslots {e : DirCacheEntry} (he : e.path = d) :
    Within (Reslots d) (setDcache (dcIndex d) e) := by
  refine .modify fun fs ↦ ⟨rfl, rfl, rfl, rfl, rfl, fun _ ↦ ?_, fun i hi ↦ if_neg hi⟩
  dsimp only
  rw [if_pos rfl, he]

theorem tick_reslots : Within (Reslots d) tick :=
  .bind .get fun _ ↦ .bind (.modify fun _ ↦ ⟨rfl, rfl, rfl, rfl, rfl, id, fun _ _ ↦ rfl⟩)
    fun _ ↦ .pure _

theorem loadChildren_reslots (n : Inode) : Within (Reslots d) (loadChildren env d n) := by
  refine .ite (fun _ ↦ .bind .get fun fs ↦ .bind (.bind tick_reslots fun _ ↦ .pure _) fun _ ↦
    .ite (fun _ ↦ .bind ?_ fun r ↦ setDcache_reslots rfl) fun _ ↦ .pure _) fun _ ↦ .pure _
  exact .bind tick_reslots fun _ ↦ .bind .get fun _ ↦ .ite (fun _ ↦ .pure _) fun _ ↦ .pure _

theorem Quiet.reslots {fs₁ : Fs} (h : Quiet d fs fs₁) (hr : Reslots d fs₁ fs') : Quiet d fs fs' :=
  ⟨⟨hr.path h.path, fun i hi ↦ (hr.others i hi).trans (h.others i hi)⟩, hr.icache.trans h.icache,
    fun k hk ↦ single_same hr.img hr.sb hr.pdir hr.pcache (h.single k hk)⟩

theorem quiet_withChildren {fs₁ : Fs} (h : Quiet d fs fs₁) (cs : List DirChild) (cap t : ℕ) :
    Quiet d fs (withChildren fs₁ d cs cap t) := by
  refine h.reslots ⟨rfl, rfl, rfl, rfl, rfl, fun hp ↦ ?_, fun i hi ↦ if_neg hi⟩
  simp only [withChildren, withListing, ↓reduceIte]
  exact hp

end opens

section calls

variable {env : Env} (he : Healthy env) {K : Path → Prop} (hK : Names K) {m : Inodes} {F : Set ℕ}
  {fs fs' : Fs} {L : Chain} (hb : Backed K m F fs L) {d name : Path} (hd : K d)
  (hslot : rivals fs d = ∅) {rc : Rc}
include he hK hb hd hslot

theorem dirOpen_quiet (hx : dirOpen env d fs = some (rc, fs')) : Quiet d fs fs' := by
  cases hfind : dcacheFind fs d with
  | some e =>
    simp only [dirOpen, bind_apply, get_apply, Option.bind_some, hfind, pure_apply,
      Option.some.injEq, Prod.mk.injEq] at hx
    obtain ⟨-, rfl⟩ := hx
    rw [dcacheFind] at hfind
    split at hfind
    · rename_i hv
      exact ⟨⟨hv.2, fun _ _ ↦ rfl⟩, rfl, fun _ ↦ id⟩
    · cases hfind
  | none =>
    rw [dirOpen_miss hfind, bind_apply, dcacheAlloc_clean hfind hslot, Option.bind_some] at hx
    have h₁ : Quiet d fs (withListing fs (dcIndex d) ⟨d, [], 0, false, true⟩) := by
      refine ⟨⟨?_, fun i hi ↦ if_neg hi⟩, rfl, fun k hk ↦ ?_⟩
      · simp only [withListing, ↓reduceIte]
      · exact single_same (by rfl) (by rfl) (by rfl) (by rfl) hk
    have hb₁ : Backed K m F (withListing fs (dcIndex d) ⟨d, [], 0, false, true⟩) L :=
      hb.same rfl rfl rfl rfl
    generalize withListing fs (dcIndex d) ⟨d, [], 0, false, true⟩ = fs₁ at hx h₁ hb₁
    simp only [openClaimed, bind_apply, get_apply, Option.bind_some] at hx
    cases hcached : (icacheInode fs₁.icache (xxh64 d)).filter fun n ↦ n.iFileType = ftDir with
    | some n =>
      rw [hcached] at hx
      obtain ⟨_, fs₂, hload, hend⟩ := of_bind hx
      obtain ⟨-, rfl⟩ := Prod.mk.inj (Option.some.inj hend)
      exact h₁.reslots (loadChildren_reslots _ _ _ _ hload)
    | none =>
      rw [hcached] at hx
      obtain ⟨fs₂, hget, hb₂, hk, -⟩ := hb₁.inodePagedGet he (hK.length_lt hd)
      have h₂ : Quiet d fs fs₂ := by
        refine ⟨h₁.toHolds.congr rfl hk.only.dcache, hk.only.icache.trans h₁.icache, fun k hs ↦ ?_⟩
        exact (h₁.single k hs).of_represents hb₁.rep hb₂.rep
      dsimp only at hx
      rw [bind_apply, hget, Option.bind_some] at hx
      cases hm : m d with
      | none =>
        rw [hm] at hx
        obtain ⟨-, rfl⟩ := Prod.mk.inj (Option.some.inj hx)
        exact h₂
      | some n =>
        rw [hm] at hx
        obtain ⟨_, fs₃, hload, hend⟩ := of_bind hx
        obtain ⟨-, rfl⟩ := Prod.mk.inj (Option.some.inj hend)
        exact h₂.reslots (loadChildren_reslots _ _ _ _ hload)

theorem dirAddChild_quiet {type : UInt8} (hx : dirAddChild env d name type fs = some (rc, fs')) :
    Quiet d fs fs' := by
  obtain ⟨rc₁, fs₁, hopen, hcase⟩ := dirAddChild_cases he hx
  have h₁ := dirOpen_quiet he hK hb hd hslot hopen
  rcases hcase with ⟨-, -, rfl⟩ | ⟨-, -, cap, t, rfl⟩
  · exact h₁
  · exact quiet_withChildren h₁ _ cap t

theorem dirRemoveChild_quiet (hx : dirRemoveChild env d name fs = some (rc, fs')) :
    Quiet d fs fs' := by
  obtain ⟨rc₁, fs₁, hopen, hcase⟩ := dirRemoveChild_cases hx
  have h₁ := dirOpen_quiet he hK hb hd hslot hopen
  rcases hcase with ⟨rfl, -⟩ | ⟨-, cap, t, rfl⟩
  · exact h₁
  · exact quiet_withChildren h₁ _ cap t

end calls

section create

variable {env : Env} (he : Healthy env) {K : Path → Prop} (hK : Names K) {m : Inodes} {fs fs' : Fs}
  (h : Sound K m ∅ fs) {path p : Path} {n : Inode}
include he hK h

/-- What the making of an entry leaves when the listing of the parent comes into the cache without
another one being written back. -/
structure Settles (p : Path) (fs fs' : Fs) : Prop extends Holds (getParentPath p) fs fs' where
  filled : Filled (· = p) fs.icache fs'.icache
  single : Single fs' p

theorem makeEntry_quiet {type : UInt8} {count : Super → Super} (hp : K p) (hm : m p = none)
    (hs : Sealed n) (hcount : Counts (· + 1) count) (hslot : rivals fs (getParentPath p) = ∅)
    (hx : makeEntry env p n type count fs = some (.ok, fs')) (hl : Live fs') :
    Settles p fs fs' := by
  obtain ⟨rc, fs₁, hins, hrest⟩ := of_bind hx
  have hrc : rc = .ok := by
    by_contra hne
    rw [if_neg hne] at hrest
    exact hne (unlocked_cases hrest).1.symm
  rw [if_pos hrc] at hrest
  obtain ⟨_, fs₂, hput, hrest⟩ := of_bind hrest
  obtain ⟨_, fs₃, hadd, hrest⟩ := of_bind hrest
  obtain ⟨-, l, rfl⟩ := unlocked_cases hrest
  obtain ⟨⟨rc', fs₄⟩, hadd', hfs⟩ := Option.bind_eq_some_iff.mp hadd
  obtain ⟨-, rfl⟩ := Prod.mk.inj (Option.some.inj hfs)
  have hl₂ : Live fs₂ := (hcount.live hl).of_spent (dirAddChild_inside env _ _ _ _ _ _ hadd').spent
  have hl₁ : Live fs₁ := hl₂.of_spent (icachePut_inside env p n _ _ _ hput).spent
  have hl₀ : Live fs :=
    hl₁.of_spent (pagedInsert_indexOnly (P := fun _ ↦ True) env p trivial _ _ _ hins).spent
  -- the new key is in one page of the index
  obtain ⟨L, hb⟩ := h.backed
  obtain ⟨_, _, hins', hgood⟩ := hb.pagedInsert he hK hp hs hl₀ hm
  obtain ⟨rfl, rfl⟩ := Prod.mk.inj (Option.some.inj (hins.symm.trans hins'))
  obtain ⟨-, hk, L₁, hb₁⟩ := hgood hl₁
  obtain ⟨_, _, hins', hE⟩ := pagedInsert_apply he (names_fit hK hp n) hb.rep hl₀
  obtain ⟨rfl, rfl⟩ := Prod.mk.inj (Option.some.inj (hins.symm.trans hins'))
  obtain ⟨-, L₂, hcont, hR, -⟩ := hE.good hl₁
  have hsingle : Single fs₁ p := fun L' hL' ↦ by
    have hnone : PagedMap.get (contents L) p = none := by rw [hb.get, hm, Option.map_none]
    have hle := PagedMap.copies_insert slotsPerPage p (inodeToVal n) (contents L)
    rw [PagedMap.get_eq_none.mp hnone, ← hcont] at hle
    rw [contents_unique hL' hR]
    exact hle
  have hset : Settled K fs₁.icache := by rw [hk.only.icache]; exact h.settled
  obtain ⟨c, t, hput', -, -, hfill⟩ := icachePut_apply he hK.distinct hset hp n
  obtain ⟨-, rfl⟩ := Prod.mk.inj (Option.some.inj (hput.symm.trans hput'))
  have hslot₂ : rivals { fs₁ with icache := c, clock := t } (getParentPath p) = ∅ := by
    rw [← hslot, rivals, rivals, dirtyAt, dirtyAt]
    dsimp only
    rw [hk.only.dcache]
  have hb₂ : Backed K (update m p (some n)) (ground m ∅ fs)
      { fs₁ with icache := c, clock := t } L₁ := hb₁.same rfl rfl rfl rfl
  have hquiet := dirAddChild_quiet he hK hb₂ (hK.parent p hp) hslot₂ hadd'
  refine ⟨hquiet.toHolds.congr hk.only.dcache rfl, ?_, ?_⟩
  · rw [hk.only.icache] at hfill
    exact hquiet.icache ▸ hfill
  · have hsingle₂ : Single { fs₁ with icache := c, clock := t } p :=
      single_same (by rfl) (by rfl) (by rfl) (by rfl) hsingle
    exact single_counts hcount l (hquiet.single p hsingle₂)

theorem create_quiet {mode uid gid : UInt16} (hp : K (pathNormalize path))
    (hm : m (pathNormalize path) = none)
    (hslot : rivals fs (getParentPath (pathNormalize path)) = ∅)
    (hx : xxfsCreate env path mode uid gid fs = some (.ok, fs')) (hl : Live fs') :
    Settles (pathNormalize path) fs fs' := by
  obtain ⟨l, hx⟩ := locked_cases hx
  generalize pathNormalize path = p at *
  simp only [bind_apply, get_apply, Option.bind_some] at hx
  split at hx
  · cases (unlocked_cases hx).1
  · obtain ⟨hholds, hfill, hsingle⟩ := makeEntry_quiet he hK (h.relock l).sound hp hm
      (sealed_inodeSetChecksumEcc _) counts_file hslot hx hl
    exact ⟨hholds.congr rfl rfl, hfill, hsingle⟩

end create

section unlink

variable {env : Env} (he : Healthy env) {K : Path → Prop} (hK : Names K) {m : Inodes} {fs fs' : Fs}
  (h : Sound K m ∅ fs) {path : Path} {n : Inode}
include he hK h

theorem unlink_quiet (hp : K (pathNormalize path)) (hn : seen m fs (pathNormalize path) = some n)
    (ht : n.iFileType ≠ ftDir) (hs : Loose K fs (pathNormalize path))
    (hslot : rivals fs (getParentPath (pathNormalize path)) = ∅) : ∃ fs',
      xxfsUnlink env path fs = some (.ok, fs') ∧
        Holds (getParentPath (pathNormalize path)) fs fs' ∧ Spares 0 fs fs' := by
  rw [xxfsUnlink]
  generalize pathNormalize path = p at *
  obtain ⟨l, hlock⟩ := lock_eq .write fs
  have hL := h.relock l
  obtain ⟨fs₁, hfetch, hs₁, hF⟩ := hL.sound.fetch he hK (hK.untwinned hp) (hK.length_lt hp)
  rw [hL.seen, hn] at hfetch
  obtain ⟨x, hx, htx⟩ := h.stored_some hn
  have hloose : Loose K fs₁ p :=
    ⟨hF.single p (h.single_relock hs.single l), hs.frees.filled hF.filled⟩
  have hleaf := hs₁.leaf_file hx (htx.symm ▸ ht) hloose
  obtain ⟨fs₂, fs₃, hdel, hcache, hs₃, -, hd₃, -, hsb₃⟩ := hs₁.deleted he hK hp hx hleaf
  have hs₃ := hs₃ ∅ (Set.empty_subset _)
  obtain ⟨y, hy, hty⟩ := kind_some (h.tree.parent p hleaf.ne_root (by rw [kind, hx]; simp))
  have hne : getParentPath p ≠ p := hleaf.childless p hleaf.ne_root (by rw [hx]; simp)
  have hdc : fs₃.dcache = fs.dcache := hd₃.trans hF.dcache
  have hslot₃ : rivals fs₃ (getParentPath p) = ∅ := by
    rw [← hslot, rivals, rivals, dirtyAt, dirtyAt, hdc]
  obtain ⟨rc, fs₄, hrem, hsb₄⟩ := hs₃.dirRemoveChild_returns he hK (hK.parent p hp)
    ((update_of_ne hne _ _).trans hy) hty hslot₃ (getBasename p)
  obtain ⟨L, hb⟩ := hs₃.backed
  have hquiet := dirRemoveChild_quiet he hK hb (hK.parent p hp) hslot₃ hrem
  obtain ⟨l', hunlock⟩ := unlocked_eq .write
    { fs₄ with sb.sInodesCount := fs₄.sb.sInodesCount - 1 } Rc.ok
  refine ⟨{ fs₄ with sb.sInodesCount := fs₄.sb.sInodesCount - 1, lock := l' }, ?_,
    hquiet.toHolds.congr hdc rfl, ?_⟩
  · rw [fsWlock, bind_apply, hlock, Option.bind_some, bind_apply, hfetch, Option.bind_some]
    dsimp only
    rw [if_neg ht, removeEntry]
    simp only [bind_apply, hdel, Option.bind_some, ↓reduceIte, hcache, discard_apply, hrem,
      modify_apply, pure_apply]
    exact hunlock
  · have hsb : fs₄.sb = fs.sb := hsb₄.trans (hsb₃.trans hF.sb)
    refine spares_same ?_ ?_ ?_ <;> rw [← hsb]

end unlink

section names

variable {name : Path} {t : UInt8} {cs : List DirChild}

/-- A new child is found again under its own name exactly if `dc_name` holds all of the name. -/
theorem childMatches_own (hnul : 0 ∉ name) :
    childMatches (newChild name t) name = true ↔ name.length ≤ maxName := by
  have hmax : maxName = 255 := rfl
  rw [childMatches, Bool.and_eq_true, beq_iff_eq, sameBytes, List.all_eq_true]
  constructor
  · rintro ⟨-, hall⟩
    by_contra hlong
    have hlast := hall 255 (List.mem_range.mpr (by omega))
    rw [beq_iff_eq, newChild_byte name t (by decide), if_neg (by omega)] at hlast
    exact bytesAt_ne hnul (by omega) hlast.symm
  · intro hlen
    refine ⟨?_, fun j hj ↦ ?_⟩
    · change xxh64 (name.take maxName) = _
      rw [List.take_of_length_le hlen]
    · have hj := List.mem_range.mp hj
      rw [beq_iff_eq, newChild_byte name t (by omega)]
      split
      · rfl
      · exact (bytesAt_of_le (by omega)).symm

theorem without_last (hcs : ∀ c ∈ cs, childMatches c name = false) (x : DirChild) :
    without (cs ++ [x]) name = if childMatches x name then cs else cs ++ [x] := by
  have hfind : (cs ++ [x]).findIdx? (fun c ↦ childMatches c name) =
      if childMatches x name then some cs.length else none := by
    rw [List.findIdx?_append, List.findIdx?_eq_none_iff.mpr hcs, Option.none_or,
      List.findIdx?_singleton]
    split <;> simp
  rw [without, hfind]
  cases childMatches x name with
  | false => rfl
  | true => exact SwapRemove.swapRemove_last cs x

end names

/-- Two answers of `xxfs_readdir` with the same entries. -/
inductive SameEntries : Except Rc (List DirChild) → Except Rc (List DirChild) → Prop
  | failed (rc : Rc) : SameEntries (.error rc) (.error rc)
  | listed {cs cs' : List DirChild} : (∀ c, c ∈ cs' ↔ c ∈ cs) → SameEntries (.ok cs) (.ok cs')

instance : Std.Refl SameEntries where
  refl r := by
    cases r with
    | error rc => exact .failed rc
    | ok cs => exact .listed fun _ ↦ Iff.rfl

/-- `xxfs_stat`, `xxfs_readdir` and `xxfs_count` answer as before. -/
structure Undone (P : Path → Prop) (env : Env) (fs fs' : Fs) : Prop where
  stat : ∀ path, P (pathNormalize path) →
    result (xxfsStat env path) fs' = result (xxfsStat env path) fs
  readdir : ∀ path, ∃ r r', result (xxfsReaddir env path) fs = some r ∧
    result (xxfsReaddir env path) fs' = some r' ∧ SameEntries r r'
  count : xxfsCount fs' = xxfsCount fs

/-- The listing of a directory comes into the directory cache without another one being lost, and
no child in it passes for `name`. -/
structure Ready (m : Inodes) (fs : Fs) (d name : Path) : Prop where
  slot : (fs.dcache (dcIndex d)).valid = true → (fs.dcache (dcIndex d)).path ≠ d →
    (fs.dcache (dcIndex d)).dirty = false ∧ kind m (fs.dcache (dcIndex d)).path = some ftDir
  unnamed : ∀ cs, listing m fs d = some cs → ∀ c ∈ cs, childMatches c name = false ∧
    c ≠ newChild name ftReg.toUInt8

section undone

variable {env : Env} (he : Healthy env) {K : Path → Prop} (hK : Names K) {m m₁ m₂ : Inodes}
  {fs fs₁ fs₂ : Fs} {p d name : Path}

theorem Ready.rivals (h : Ready m fs d name) : rivals fs d = ∅ := by
  refine Set.eq_empty_of_forall_notMem fun q hq ↦ ?_
  obtain ⟨⟨hv, hdirty, hpath⟩, hne⟩ := hq
  have hclean := (h.slot hv fun hc ↦ hne (hpath.symm.trans hc)).1
  rw [hdirty] at hclean
  cases hclean

/-- The two calls, one after the other, on the file `n`. -/
structure Pair (K : Path → Prop) (p : Path) (n : Inode) (m m₁ m₂ : Inodes) (fs fs₁ fs₂ : Fs) :
    Prop where
  before : Sound K m ∅ fs
  after : Sound K m₂ ∅ fs₂
  vacant : Vacant m fs p
  ready : Ready m fs (getParentPath p) (getBasename p)
  added : Added p n ftReg.toUInt8 m m₁ fs fs₁
  removed : Removed p m₁ m₂ fs₁ fs₂
  filed : Holds (getParentPath p) fs fs₁
  taken : Holds (getParentPath p) fs₁ fs₂
  counted : xxfsCount fs₂ = xxfsCount fs

variable {n : Inode} (h : Pair K p n m m₁ m₂ fs fs₁ fs₂)
include h

theorem Pair.effect : Effect {p} {getParentPath p} ∅ m m₂ fs fs₂ := by
  have hE := h.added.toEffect
  have hE' := h.removed.toEffect
  rw [h.ready.rivals] at hE
  rw [h.filed.rivals] at hE'
  exact hE.trans hE' h.before.coherent

theorem Pair.seen : seen m₂ fs₂ = seen m fs := by
  funext q
  by_cases hq : q = p
  · rw [hq]
    exact ((cur_none (h.after.coherent p)).mpr h.removed.gone).trans
      ((cur_none (h.before.coherent p)).mpr h.vacant.absent).symm
  · rcases h.effect.inodes q hq with ⟨-, hs⟩ | ⟨hw, -⟩
    · exact hs
    · exact hw.elim

theorem Pair.kind : kind m₂ = kind m := by
  funext q
  by_cases hq : q = p
  · rw [hq, Soundness.kind, Soundness.kind, h.removed.gone, h.vacant.absent]
  · exact h.effect.kind hq

/-- The listing of the parent gets one child and loses it if it is found again. -/
theorem Pair.parent {cs : List DirChild} (hcs : listing m fs (getParentPath p) = some cs) :
    listing m₂ fs₂ (getParentPath p) =
      some (if childMatches (newChild (getBasename p) ftReg.toUInt8) (getBasename p) then cs
        else cs ++ [newChild (getBasename p) ftReg.toUInt8]) := by
  obtain ⟨cs₀, hcs₀, hnow⟩ := h.added.now
  obtain ⟨cs₁, hcs₁, hend⟩ := h.removed.now
  obtain rfl := Option.some.inj (hcs.symm.trans hcs₀)
  obtain rfl := Option.some.inj (hnow.symm.trans hcs₁)
  rw [hend, without_last fun c hc ↦ (h.ready.unnamed cs hcs c hc).1]

theorem Pair.uncached {q : Path} (hq : Soundness.kind m q ≠ some ftDir) :
    dcacheFind fs₂ q = dcacheFind fs q := by
  have hT := h.filed.trans h.taken
  by_cases hi : dcIndex q = dcIndex (getParentPath p)
  · have hqd : getParentPath p ≠ q := fun hc ↦ hq (hc ▸ h.vacant.parent)
    rw [dcacheFind, dcacheFind, hi, if_neg fun hc ↦ hqd (hT.path.symm.trans hc.2), if_neg]
    rintro ⟨hv, hpath⟩
    have hdir := (h.ready.slot hv fun hc ↦ hqd (hc.symm.trans hpath)).2
    rw [hpath] at hdir
    exact hq hdir
  · rw [dcacheFind, dcacheFind, hT.others _ hi]

theorem Pair.dirOut {q : Path} (hq : q ≠ getParentPath p) : dirOut m₂ fs₂ q = dirOut m fs q := by
  by_cases hd : Soundness.kind m q = some ftDir
  · obtain ⟨x, hx, htx⟩ := kind_some hd
    obtain ⟨cs, hcs⟩ := listing_some fs hx
    have hqp : q ≠ p := fun hc ↦ by
      rw [hc, h.vacant.absent] at hx
      cases hx
    rw [ListingFailures.dirOut_dir hd hcs]
    exact ListingFailures.dirOut_dir (h.kind ▸ hd) ((h.effect.listing q x hqp hq hx htx).trans hcs)
  · have hk := congrFun h.kind q
    rw [Soundness.dirOut, Soundness.dirOut, h.uncached hd]
    rw [Soundness.kind, Soundness.kind] at hk
    rw [Soundness.kind] at hd
    cases hm : m q with
    | none =>
      rw [hm, Option.map_none, Option.map_eq_none_iff] at hk
      rw [hk]
    | some x =>
      rw [hm, Option.map_some] at hk hd
      obtain ⟨x', hx', htx⟩ := Option.map_eq_some_iff.mp hk
      have ht : x.iFileType ≠ ftDir := fun hc ↦ hd (congrArg some hc)
      rw [hx']
      dsimp only
      rw [if_pos ht, if_pos (htx.symm ▸ ht)]

include he hK

/-- The two calls undo each other exactly if `dc_name` holds all of the name. -/
theorem Pair.undone_iff (hp : K p) (hnul : 0 ∉ getBasename p) :
    Undone (Untwinned K) env fs fs₂ ↔ (getBasename p).length ≤ maxName := by
  have hread (path : Path) : result (xxfsReaddir env path) fs =
      some (Soundness.dirOut m fs (pathNormalize path)) := h.before.result_readdir he
  have hread' (path : Path) : result (xxfsReaddir env path) fs₂ =
      some (Soundness.dirOut m₂ fs₂ (pathNormalize path)) := h.after.result_readdir he
  have hd : K (getParentPath p) := hK.parent p hp
  obtain ⟨x, hx, -⟩ := kind_some h.vacant.parent
  obtain ⟨cs, hcs⟩ := listing_some fs hx
  have hnow := ListingFailures.dirOut_dir h.vacant.parent hcs
  have hend := ListingFailures.dirOut_dir ((congrFun h.kind _).trans h.vacant.parent) (h.parent hcs)
  rw [← childMatches_own hnul (t := ftReg.toUInt8)]
  constructor
  · intro hU
    obtain ⟨r, r', hr, hr', hsame⟩ := hU.readdir (getParentPath p)
    rw [hread, hK.normalize hd, hnow] at hr
    rw [hread', hK.normalize hd, hend] at hr'
    obtain rfl := Option.some.inj hr
    obtain rfl := Option.some.inj hr'
    cases hsame with
    | listed hmem =>
      by_contra hno
      have := (hmem (newChild (getBasename p) ftReg.toUInt8)).mp (by simp [hno])
      exact (h.ready.unnamed cs hcs _ this).2 rfl
  · intro hmatch
    rw [if_pos hmatch] at hend
    refine ⟨fun path hpath ↦ ?_, fun path ↦ ?_, h.counted⟩
    · rw [h.after.result_stat he hK hpath, h.before.result_stat he hK hpath, h.seen]
    · refine ⟨_, _, hread path, hread' path, ?_⟩
      by_cases hq : pathNormalize path = getParentPath p
      · rw [hq, hnow, hend]
        exact refl_of SameEntries _
      · rw [h.dirOut hq]
        exact refl_of SameEntries _

omit h in
theorem pair_of {path : Path} {mode uid gid : UInt16} (hs : Sound K m ∅ fs)
    (hc : CarefulAt K m fs (.create path mode uid gid))
    (hready : Ready m fs (getParentPath (pathNormalize path)) (getBasename (pathNormalize path)))
    (hx₁ : xxfsCreate env path mode uid gid fs = some (.ok, fs₁)) (hl₁ : Live fs₁)
    (hfree : Frees K fs₁.icache (pathNormalize path))
    (hx₂ : xxfsUnlink env path fs₁ = some (.ok, fs₂)) (hl₂ : Live fs₂) : ∃ m₁ m₂,
      Pair K (pathNormalize path) (createdInode (pathNormalize path) mode uid gid fs.cowGen)
        m m₁ m₂ fs fs₁ fs₂ := by
  obtain ⟨hp, hv⟩ := hc
  rcases hs.create he hK hp hv hx₁ hl₁ with ⟨-, hrc, -⟩ | ⟨hcold, -, hcount, m₁, hs₁, hA⟩
  · cases hrc
  have hv := hv hcold
  have ht : (createdInode (pathNormalize path) mode uid gid fs.cowGen).iFileType ≠ ftDir := by
    rw [createdInode, (sameBody_sealed _).type]
    exact show ftReg ≠ ftDir by decide
  obtain ⟨hfiled, -, hsingle⟩ := create_quiet he hK hs hp hv.absent hready.rivals hx₁ hl₁
  have hloose : Loose K fs₁ (pathNormalize path) := ⟨hsingle, hfree⟩
  have hU := hs₁.unlink he hK hp (fun _ ↦ hloose) hx₂ hl₂
  rw [hA.fresh] at hU
  dsimp only at hU
  rw [if_neg ht] at hU
  obtain ⟨-, hcount', m₂, hs₂, hR⟩ := hU
  obtain ⟨fs', hx', htaken, -⟩ := unlink_quiet he hK hs₁ hp hA.fresh ht hloose hfiled.rivals
  obtain ⟨-, rfl⟩ := Prod.mk.inj (Option.some.inj (hx₂.symm.trans hx'))
  refine ⟨m₁, m₂, hs, hs₂, hv, hready, hA, hR, hfiled, htaken, ?_⟩
  rw [xxfsCount, xxfsCount, hcount', hcount, UInt64.add_sub_cancel]

end undone

section main

variable {env : Env} (he : Healthy env) {K : Path → Prop} (hK : Names K) {fs fs₁ fs₂ : Fs}
include he hK

/-- At the end of a careful run `xxfs_unlink` undoes `xxfs_create` exactly if the name has at most
255 bytes. -/
theorem unlink_undoes_iff (hr : CarefulRun K env fs) {path : Path} {mode uid gid : UInt16}
    (hnul : 0 ∉ getBasename (pathNormalize path))
    (hc : Careful K fs (.create path mode uid gid))
    (hready : Ready (indexed fs) fs (getParentPath (pathNormalize path))
      (getBasename (pathNormalize path)))
    (hx₁ : xxfsCreate env path mode uid gid fs = some (.ok, fs₁)) (hl₁ : Live fs₁)
    (hfree : Frees K fs₁.icache (pathNormalize path))
    (hx₂ : xxfsUnlink env path fs₁ = some (.ok, fs₂)) (hl₂ : Live fs₂) :
    Undone (Untwinned K) env fs fs₂ ↔ (getBasename (pathNormalize path)).length ≤ maxName := by
  obtain ⟨m₁, m₂, h⟩ := pair_of he hK (hr.sound he hK) hc hready hx₁ hl₁ hfree hx₂ hl₂
  exact h.undone_iff he hK hc.1 hnul

end main

section fresh

theorem ready_fresh (name : Path) :
    Ready (freshInodes (steady.time 1)) (freshFs steady 1 0) rootPath name := by
  refine ⟨fun hv ↦ (by cases hv), fun cs hcs c hc ↦ ?_⟩
  rw [listing_fresh] at hcs
  obtain rfl := Option.some.inj hcs
  exact absurd hc List.not_mem_nil

theorem first_unlink {K : Path → Prop} (hK : Names K) (hA : Apart K) {path : Path}
    {mode uid gid : UInt16} (hp : K (pathNormalize path)) (hne : pathNormalize path ≠ rootPath)
    (hpar : getParentPath (pathNormalize path) = rootPath) : ∃ fs₁ fs₂,
      xxfsCreate steady path mode uid gid (freshFs steady 1 0) = some (.ok, fs₁) ∧ Live fs₁ ∧
        Frees K fs₁.icache (pathNormalize path) ∧
        xxfsUnlink steady path fs₁ = some (.ok, fs₂) ∧ Live fs₂ := by
  have hs : Sound K _ ∅ (freshFs steady 1 0) := sound_fresh hK goodSize_one 0
  obtain ⟨m₁, fs₁, hx₁, -, hs₁, ha, hadded⟩ := first_create hK (C := Careful K)
    (careful_first hK mode uid gid hp hne hpar) hp hne hpar
  obtain ⟨hfiled, hfilled, hsingle⟩ := create_quiet steady_healthy hK hs hp
    (vacant_fresh steady 1 0 hne hpar).absent (fresh_rivals steady 1 0 _) hx₁ ha.live
  have hfree : Frees K fs₁.icache (pathNormalize path) :=
    ((homed_init K).filled hA (hfilled.mono fun q hq ↦ by rw [hq]; exact hp)).frees hA hp
  have ht : (createdInode (pathNormalize path) mode uid gid (freshFs steady 1 0).cowGen).iFileType ≠
      ftDir := by
    rw [createdInode, (sameBody_sealed _).type]
    exact show ftReg ≠ ftDir by decide
  obtain ⟨fs₂, hx₂, -, hsp⟩ := unlink_quiet steady_healthy hK hs₁ hp hadded.fresh ht
    ⟨hsingle, hfree⟩ hfiled.rivals
  exact ⟨fs₁, fs₂, hx₁, ha.live, hfree, hx₂, hsp.live (ha.mono (by decide))⟩

theorem fewPaths_apart : Apart (· ∈ fewPaths) := fun p q hp hq ↦
  (show ∀ p ∈ fewPaths, ∀ q ∈ fewPaths, home icacheCapInit (xxh64 p) =
    home icacheCapInit (xxh64 q) → p = q by decide +kernel) p hp q hq

theorem unlink_undoes_first : ∃ fs fs₁ fs₂, CarefulRun (· ∈ fewPaths) steady fs ∧
    xxfsCreate steady [slash, 97] 0 0 0 fs = some (.ok, fs₁) ∧
    xxfsUnlink steady [slash, 97] fs₁ = some (.ok, fs₂) ∧
    Undone (Untwinned (· ∈ fewPaths)) steady fs fs₂ := by
  have hmem : pathNormalize [slash, 97] ∈ fewPaths := by decide
  obtain ⟨fs₁, fs₂, hx₁, hl₁, hfree, hx₂, hl₂⟩ :=
    first_unlink fewPaths_names fewPaths_apart hmem (by decide) (by decide)
  have hrun : CarefulRun (· ∈ fewPaths) steady (freshFs steady 1 0) :=
    .fresh (fresh_apply steady_healthy goodSize_one 0)
  have hready : Ready (indexed (freshFs steady 1 0)) (freshFs steady 1 0)
      (getParentPath (pathNormalize [slash, 97])) (getBasename (pathNormalize [slash, 97])) := by
    rw [(sound_fresh fewPaths_names goodSize_one 0).indexed_eq fewPaths_names]
    exact ready_fresh _
  exact ⟨_, fs₁, fs₂, hrun, hx₁, hx₂, (unlink_undoes_iff steady_healthy fewPaths_names hrun
    (by decide) (careful_first fewPaths_names 0 0 0 hmem (by decide) (by decide)) hready hx₁ hl₁
    hfree hx₂ hl₂).mpr (by decide)⟩

def longPath : Path := slash :: List.replicate 256 97

theorem longPath_noSlash : slash ∉ List.replicate 256 (97 : UInt8) := fun h ↦
  absurd (List.eq_of_mem_replicate h) (by decide)

theorem longPath_basename : getBasename longPath = List.replicate 256 97 :=
  getBasename_append [] longPath_noSlash

theorem longPath_names : (∀ p ∈ [rootPath, longPath], ∀ q ∈ [rootPath, longPath],
    home icacheCapInit (xxh64 p) = home icacheCapInit (xxh64 q) → p = q) ∧
    (∀ p ∈ [rootPath, longPath], pathNormalize p = p) ∧
    (∀ p ∈ [rootPath, longPath], p.length ≤ 3528) ∧ rootPath ∈ [rootPath, longPath] ∧
    ∀ p ∈ [rootPath, longPath], getParentPath p ∈ [rootPath, longPath] := by decide +kernel

/-- A file with a name of 256 bytes is unlinked, and stays in the listing of the root. -/
theorem long_name_stays : ¬∀ (env : Env) (fs fs₁ fs₂ : Fs) (path : Path) (mode uid gid : UInt16),
    Healthy env → Reachable env fs → result (xxfsStat env path) fs = some (.error .enoent) →
    (∃ d, result (xxfsStat env (getParentPath (pathNormalize path))) fs = some (.ok d) ∧
      d.iFileType = ftDir) → xxfsCreate env path mode uid gid fs = some (.ok, fs₁) →
    xxfsUnlink env path fs₁ = some (.ok, fs₂) → Undone (fun _ ↦ True) env fs fs₂ := by
  intro hall
  have hK : Names (· ∈ [rootPath, longPath]) := names_list longPath_names
  have hA : Apart (· ∈ [rootPath, longPath]) := fun p q hp hq ↦ longPath_names.1 p hp q hq
  have hnorm : pathNormalize longPath = longPath := longPath_names.2.1 longPath (by simp)
  have hp : pathNormalize longPath ∈ [rootPath, longPath] := by rw [hnorm]; simp
  have hne : pathNormalize longPath ≠ rootPath := by rw [hnorm]; decide
  have hpar : getParentPath (pathNormalize longPath) = rootPath := by
    rw [hnorm]
    exact getParentPath_top longPath_noSlash
  obtain ⟨fs₁, fs₂, hx₁, hl₁, hfree, hx₂, hl₂⟩ := first_unlink hK hA hp hne hpar
  have hs : Sound (· ∈ [rootPath, longPath]) _ ∅ (freshFs steady 1 0) :=
    sound_fresh hK goodSize_one 0
  have hc : CarefulAt (· ∈ [rootPath, longPath]) (freshInodes (steady.time 1)) (freshFs steady 1 0)
      (.create longPath 0 0 0) := ⟨hp, fun _ ↦ vacant_fresh steady 1 0 hne hpar⟩
  obtain ⟨m₁, m₂, h⟩ := pair_of steady_healthy hK hs hc (hpar ▸ ready_fresh _) hx₁ hl₁ hfree hx₂ hl₂
  have hU : Undone (fun _ ↦ True) steady (freshFs steady 1 0) fs₂ := by
    refine hall steady _ fs₁ fs₂ longPath 0 0 0 steady_healthy
      (.fresh (fresh_apply steady_healthy goodSize_one 0)) ?_ ⟨rootInode (steady.time 1), ?_,
        rootInode_type _⟩ hx₁ hx₂
    · rw [hs.result_stat steady_healthy hK (hK.untwinned hp), seen_fresh, freshInodes, if_neg hne]
      rfl
    · rw [hpar, hs.result_stat steady_healthy hK (hK.untwinned (by decide)), seen_fresh]
      rfl
  have hnul : 0 ∉ getBasename (pathNormalize longPath) := fun h ↦ by
    rw [hnorm, longPath_basename] at h
    exact absurd (List.eq_of_mem_replicate h) (by decide)
  have hlen := (h.undone_iff steady_healthy hK hp hnul).mp
    ⟨fun path _ ↦ hU.stat path trivial, hU.readdir, hU.count⟩
  rw [hnorm, longPath_basename, List.length_replicate] at hlen
  exact absurd hlen (by decide)

end fresh

end Xxfs.UnlinkUndoes

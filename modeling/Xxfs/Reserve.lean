import Xxfs.Lib.Credits
import Xxfs.SyncRuns
import Xxfs.WriteStores

namespace Xxfs.Soundness

open Function
open Xxfs.DiskFormat Xxfs.Machine Xxfs.Allocator Xxfs.PageCache Xxfs.PagedIndex Xxfs.PageStore
open Xxfs.InodeCache Xxfs.DirCache Xxfs.Volume Xxfs.Operations Xxfs.Hash Xxfs.PathName Xxfs.IndexRep
open Xxfs.CacheMap Xxfs.IndexState Xxfs.OperationFrames Xxfs.Checksum Xxfs.CacheKeys Xxfs.Frames
open Xxfs.Lib Xxfs.Lib.Computation Xxfs.Lib.Computation.Comp Xxfs.Lib.Credits

/-- `k` blocks are free besides those set aside for what is to be written back: two for a dirty
inode, and five for a changed listing, whose write-back takes up to three and leaves the inode of the
directory dirty. -/
def Reserve (k : ℕ) (fs : Fs) : Prop := ∃ I D : Finset Path,
  dirtyInodes fs ⊆ I ∧ dirtyDirs fs ⊆ D ∧ Ample (k + 2 * I.card + 5 * D.card) fs

section reserve

variable {j k : ℕ} {fs fs' : Fs} {p : Path}

theorem reserve_antitone : Antitone Reserve := by
  rintro j k hjk fs ⟨I, D, hI, hD, ha⟩
  exact ⟨I, D, hI, hD, ha.mono (by omega)⟩

theorem Reserve.ample (h : Reserve k fs) : Ample k fs := by
  obtain ⟨I, D, -, -, ha⟩ := h
  exact ha.mono (by omega)

theorem Reserve.inode (h : Reserve k fs) (hp : p ∈ dirtyInodes fs) : Ample (k + 2) fs := by
  obtain ⟨I, D, hI, -, ha⟩ := h
  have hpos : 0 < I.card := Finset.card_pos.mpr ⟨p, hI hp⟩
  exact ha.mono (by omega)

theorem Reserve.listing (h : Reserve k fs) (hp : p ∈ dirtyDirs fs) : Ample (k + 5) fs := by
  obtain ⟨I, D, -, hD, ha⟩ := h
  have hpos : 0 < D.card := Finset.card_pos.mpr ⟨p, hD hp⟩
  exact ha.mono (by omega)

theorem reserve_of_clean (hi : dirtyInodes fs = ∅) (hd : dirtyDirs fs = ∅) (ha : Ample k fs) :
    Reserve k fs :=
  ⟨∅, ∅, by rw [hi]; exact Set.empty_subset _, by rw [hd]; exact Set.empty_subset _, ha⟩

theorem dirtyInodes_congr (hi : fs'.icache = fs.icache) : dirtyInodes fs' = dirtyInodes fs := by
  rw [dirtyInodes, dirtyInodes, hi]

theorem dirtyDirs_congr (hd : fs'.dcache = fs.dcache) : dirtyDirs fs' = dirtyDirs fs := by
  rw [dirtyDirs, dirtyDirs]
  simp only [dirtyAt, hd]

theorem draws_of {P Q : Finset Path} (hs : Spares j fs fs')
    (hi : dirtyInodes fs' ⊆ dirtyInodes fs ∪ P) (hd : dirtyDirs fs' ⊆ dirtyDirs fs ∪ Q) :
    Draws Reserve (j + 2 * P.card + 5 * Q.card) fs fs' := by
  rintro k ⟨I, D, hI, hD, ha⟩
  have hP := Finset.card_union_le I P
  have hQ := Finset.card_union_le D Q
  refine ⟨I ∪ P, D ∪ Q, ?_, ?_, hs _ (ha.mono (by omega))⟩
  · rw [Finset.coe_union]
    exact hi.trans (Set.union_subset_union_left _ hI)
  · rw [Finset.coe_union]
    exact hd.trans (Set.union_subset_union_left _ hD)

theorem draws_clean (hs : Spares j fs fs') (hi : dirtyInodes fs' ⊆ dirtyInodes fs)
    (hd : dirtyDirs fs' ⊆ dirtyDirs fs) : Draws Reserve j fs fs' :=
  draws_of (P := ∅) (Q := ∅) hs (by simpa using hi) (by simpa using hd)

theorem draws_index (hs : Spares j fs fs') (hi : fs'.icache = fs.icache)
    (hd : fs'.dcache = fs.dcache) : Draws Reserve j fs fs' :=
  draws_clean hs (dirtyInodes_congr hi).subset (dirtyDirs_congr hd).subset

theorem draws_cell (hs : Spares j fs fs')
    (hc : ∀ q, q ≠ p → cell fs'.icache q = cell fs.icache q) (hd : fs'.dcache = fs.dcache) :
    Draws Reserve (j + 2) fs fs' := by
  refine draws_of (P := {p}) (Q := ∅) hs ?_ ?_
  · rintro q ⟨n, hn⟩
    by_cases hq : q = p
    · exact .inr (by simp [hq])
    · exact .inl ⟨n, (hc q hq).symm.trans hn⟩
  · rw [dirtyDirs_congr hd]
    exact Set.subset_union_left

theorem draws_listing (hs : Spares j fs fs') (hi : fs'.icache = fs.icache)
    (hd : dirtyDirs fs' ⊆ dirtyDirs fs ∪ {p}) : Draws Reserve (j + 5) fs fs' := by
  refine draws_of (P := ∅) (Q := {p}) hs ?_ (by simpa using hd)
  rw [dirtyInodes_congr hi]
  exact Set.subset_union_left

theorem draws_written (hp : p ∈ dirtyInodes fs) (hs : Spares 2 fs fs')
    (hi : dirtyInodes fs' ⊆ dirtyInodes fs \ {p}) (hd : fs'.dcache = fs.dcache) :
    Draws Reserve 0 fs fs' := by
  rintro k ⟨I, D, hI, hD, ha⟩
  have hcard := Finset.card_erase_add_one (hI hp)
  refine ⟨I.erase p, D, ?_, ?_, hs _ (ha.mono (by omega))⟩
  · rw [Finset.coe_erase]
    exact hi.trans (Set.sdiff_subset_sdiff_left hI)
  · rw [dirtyDirs_congr hd]
    exact hD

theorem draws_relisted (hp : p ∈ dirtyDirs fs) (hs : Spares 3 fs fs')
    (hi : dirtyInodes fs' ⊆ dirtyInodes fs ∪ {p}) (hd : dirtyDirs fs' ⊆ dirtyDirs fs \ {p}) :
    Draws Reserve 0 fs fs' := by
  rintro k ⟨I, D, hI, hD, ha⟩
  have hcard := Finset.card_erase_add_one (hD hp)
  have hunion := Finset.card_union_le I {p}
  rw [Finset.card_singleton] at hunion
  refine ⟨I ∪ {p}, D.erase p, ?_, ?_, hs _ (ha.mono (by omega))⟩
  · rw [Finset.coe_union, Finset.coe_singleton]
    exact hi.trans (Set.union_subset_union_left _ hI)
  · rw [Finset.coe_erase]
    exact hd.trans (Set.sdiff_subset_sdiff_left hD)

end reserve

section locks

variable {α : Type} {k : ℕ} {m : FsM α} {fs : Fs}

theorem draws_lock (l : Lock) : Draws Reserve 0 fs { fs with lock := l } :=
  draws_index (spares_sb rfl) rfl rfl

theorem pays_locked {kind : Lock} (h : ∀ l, Pays Reserve k m { fs with lock := l }) :
    Pays Reserve k (fsLock kind >>= fun _ ↦ m) fs := by
  obtain ⟨l, hl⟩ := lock_eq kind fs
  exact .after hl (draws_lock l) (h l)

theorem pays_unlock (kind : Lock) (a : α) :
    Pays Reserve 0 (fsUnlock kind >>= fun _ ↦ (pure a : FsM α)) fs := by
  obtain ⟨l, hl⟩ := unlocked_eq kind fs a
  exact .of_eq hl (draws_lock l)

end locks

section inodes

variable {env : Env} (he : Healthy env) {K : Path → Prop} (hK : Names K) {m : Inodes} {fs : Fs}
include he hK

theorem put_pays (hset : Settled K fs.icache) {p : Path} (hp : K p) (n : Inode) :
    Pays Reserve 2 (icachePut env (xxh64 p) p n) fs := by
  obtain ⟨c, t, hput, -, hcell, -⟩ := icachePut_apply he hK.distinct hset hp n
  have hcells (q : Path) (hq : q ≠ p) : cell c q = cell fs.icache q := by
    rw [hcell, update_of_ne hq]
  exact .of_eq hput (draws_cell (spares_sb rfl) hcells rfl)

theorem Basis.stores (h : Basis K m fs) {p : Path} (hp : K p) {n : Inode} (hs : Sealed n)
    (ha : Ample 2 fs) : ∃ fs₁ fs₂, pagedPut env p (inodeToVal n) fs = some (.ok, fs₁) ∧
      icachePut env (xxh64 p) p n fs₁ = some ((), fs₂) ∧ Filed K m p n fs fs₂ := by
  obtain ⟨F, L, hb⟩ := h.backed
  obtain ⟨fs₁, hput, hsp, hk, L', hb'⟩ := put_returns he hK hb hp hs ha
  have hset : Settled K fs₁.icache := by
    rw [hk.only.icache]
    exact h.settled
  obtain ⟨c, t, hcache, hset', hcell, -⟩ := icachePut_apply he hK.distinct hset hp n
  rw [hk.only.icache] at hcell
  exact ⟨fs₁, _, hput, hcache, ⟨hset', F, L', hb'.same rfl rfl rfl rfl⟩, hcell, hk.only.dcache,
    hk.only.inodes, fun j hj ↦ ⟨(hsp j hj).pool, (hsp j hj).addr⟩⟩

theorem Sound.flushSlot_pays (h : Sound K m ∅ fs) (i : ℕ) :
    Pays Reserve 0 (icacheFlushSlot env i) fs := by
  by_cases hc : ∀ e, fs.icache.slots i = some e → e.dirty = false
  · exact .of_eq (icacheFlushSlot_clean hc) (.refl _ fs)
  push Not at hc
  obtain ⟨e, hent, hd⟩ := hc
  replace hd := (Bool.not_eq_false e.dirty).mp hd
  obtain ⟨k, hk, hkey, -⟩ := h.settled.entry i e hent
  have hdirty : k ∈ dirtyInodes fs :=
    ⟨e.inode, h.settled.cell_iff.mpr ⟨i, e, hent, hkey, by rw [hd]⟩⟩
  intro ha
  obtain ⟨L, hb⟩ := h.backed
  have hb₁ : Backed K m (ground m ∅ fs) { fs with clock := fs.clock + 1 } L := hb.same rfl rfl rfl rfl
  have ha₂ := (ha.inode hdirty).mono (Nat.le_add_left 2 0)
  obtain ⟨fs₁, hput, hsp, hkept, -⟩ := put_returns he hK hb₁ hk
    (sealed_writeback e.inode (env.time fs.clock)) ⟨ha₂.pool, ha₂.addr⟩
  have hi : fs₁.icache = fs.icache := hkept.only.icache
  obtain ⟨-, hcell⟩ : Settled K (writtenSlot fs.icache i e (writebackInode e.inode (env.time fs.clock))) ∧
      cell (writtenSlot fs.icache i e (writebackInode e.inode (env.time fs.clock))) =
        update (cell fs.icache) k (some (writebackInode e.inode (env.time fs.clock), false)) :=
    h.settled.touch hent hkey false _
  refine ⟨(), { fs₁ with
    icache := writtenSlot fs₁.icache i e (writebackInode e.inode (env.time fs.clock)) }, ?_,
    draws_written hdirty (fun j hj ↦ ?_) ?_ hkept.only.dcache⟩
  · simp only [icacheFlushSlot, bind_apply, get_apply, Option.bind_some, hent, putEntry, hkey]
    rw [if_pos hd]
    simp only [bind_apply, osTime_apply, Option.bind_some, discard_apply, hput]
    rewrite [← hkey]
    rfl
  · have hl := hsp j ⟨hj.pool, hj.addr⟩
    exact ⟨hl.pool, hl.addr⟩
  · rintro q ⟨n, hn⟩
    dsimp only at hn
    rw [hi, hcell] at hn
    by_cases hq : q = k
    · rw [hq, update_self] at hn
      cases hn
    · rw [update_of_ne hq] at hn
      exact ⟨⟨n, hn⟩, hq⟩

theorem Sound.flushInodes_pays (h : Sound K m ∅ fs) (l : List ℕ) :
    Pays Reserve 0 (l.forM (icacheFlushSlot env)) fs := by
  refine Pays.forM (I := fun s ↦ ∃ m, Sound K m ∅ s) (fun i s hs ↦ ?_) (fun i s s' hs hx ha ↦ ?_) l
    ⟨m, h⟩
  · obtain ⟨m₁, hs⟩ := hs
    exact hs.flushSlot_pays he hK i
  · obtain ⟨m₁, hs⟩ := hs
    obtain ⟨m₂, hs₂, -⟩ := hs.flushInode he hK hx ha.ample.live
    exact ⟨m₂, hs₂⟩

end inodes

section listings

variable {env : Env} (he : Healthy env) {K : Path → Prop} (hK : Names K) {m : Inodes} {fs fs' : Fs}
include he

omit he in
theorem allocWrite_cost {α : Type} (hl : Live fs) {src : ℕ → UInt8} {len : ℕ} {a b r : α}
    {f : UInt64 → α} (hx : (do
      let newOff ← pageAlloc env
      if newOff = 0 then return a
      else if ← osPwrite env src len newOff then return f newOff
      else return b : FsM α) fs = some (r, fs')) : Cost 1 fs fs' := by
  rw [bind_apply, pageAlloc_free env hl.ne_zero, Option.bind_some] at hx
  have htake : Cost 1 fs { fs with sb := taken fs.sb 1 } := ⟨1, le_rfl, hl.one_le, rfl⟩
  dsimp only at hx
  split at hx
  · obtain ⟨-, rfl⟩ := Prod.mk.inj (Option.some.inj hx)
    exact htake
  · obtain ⟨ok, fs₁, hw, hx⟩ := of_bind hx
    have hfs : fs' = fs₁ := by
      cases ok with
      | false => exact (Prod.mk.inj (Option.some.inj hx)).2.symm
      | true => exact (Prod.mk.inj (Option.some.inj hx)).2.symm
    rw [hfs]
    exact htake.trans (cost_of_sb (WriteStores.osPwrite_sameSb env _ _ _ _ _ _ hw).sb 0)

omit he in
theorem placeChildren_cost (hl : Live fs) {n : Inode} {cs : List DirChild} {r : Option Inode}
    (hx : placeChildren env n cs fs = some (r, fs')) : Cost 1 fs fs' := by
  simp only [placeChildren] at hx
  split at hx
  · obtain ⟨-, rfl⟩ := Prod.mk.inj (Option.some.inj hx)
    exact cost_of_sb rfl 1
  split at hx
  · obtain ⟨_, fs₁, hd, hx⟩ := of_bind hx
    obtain ⟨-, rfl⟩ := Prod.mk.inj (Option.some.inj hx)
    obtain ⟨⟨b, fs₂⟩, hw, hfs⟩ := Option.bind_eq_some_iff.mp hd
    obtain ⟨-, rfl⟩ := Prod.mk.inj (Option.some.inj hfs)
    exact cost_of_sb (WriteStores.osPwrite_sameSb env _ _ _ _ _ _ hw).sb 1
  · exact allocWrite_cost hl hx

include hK

theorem Sound.flushEntry_pays (h : Sound K m ∅ fs) (idx : ℕ) :
    Pays Reserve 0 (dcacheFlushEntry env idx) fs := by
  by_cases hd : ¬(fs.dcache idx).dirty = true ∨ ¬(fs.dcache idx).valid = true
  · refine .of_eq (a := ()) ?_ (.refl _ fs)
    simp only [dcacheFlushEntry, bind_apply, get_apply, Option.bind_some, if_pos hd, pure_apply]
  obtain ⟨hdirty, hv⟩ : (fs.dcache idx).dirty = true ∧ (fs.dcache idx).valid = true := by
    simpa using hd
  obtain ⟨hKq, hidx⟩ := h.listings.named idx hv
  obtain ⟨fs₁, hcur, hs₁, hk₁, hsb₁⟩ := h.current he hK hKq
  have hd₁ : fs₁.dcache = fs.dcache := hk₁.only.dcache
  cases hm : m (fs.dcache idx).path with
  | none =>
    refine .of_eq (a := ()) ?_ (draws_index (spares_sb hsb₁) hk₁.only.icache hd₁)
    simp only [dcacheFlushEntry, bind_apply, get_apply, Option.bind_some, if_neg hd, hcur]
    rw [show seen m fs (fs.dcache idx).path = none from (cur_none (h.coherent _)).mpr hm]
    rfl
  | some n =>
    intro ha
    have hdir : (fs.dcache idx).path ∈ dirtyDirs fs := ⟨idx, hv, hdirty, rfl⟩
    have ha₃ : Ample 3 fs := (ha.listing hdir).mono (by omega)
    have ha₁ : Ample 3 fs₁ := ⟨by rw [hsb₁]; exact ha₃.pool, by rw [hsb₁]; exact ha₃.addr⟩
    have ht := h.listings.typed idx n hv hm
    have hseen : seen m fs (fs.dcache idx).path = some n := cur_dir (h.coherent _) hm ht
    obtain ⟨n₁, S₁, fs₂, hplace, hs₂, -, -, -, -, hi₂, hd₂, -⟩ :=
      hs₁.placeChildren he ha₁.live hm ht (h.listings.few idx hv) fun j hvj hpj ↦ by
        have hj : j = idx := by
          rw [hd₁] at hvj hpj
          rw [← (h.listings.named j hvj).2, hpj, hidx]
        rw [hd₁, hj]
        exact hdirty
    have hsp₂ : Spares 1 fs fs₂ :=
      (spares_sb hsb₁).trans (.of_cost (placeChildren_cost ha₁.live hplace) hs₁.pool)
    have ha₂ : Ample 2 fs₂ := hsp₂ 2 ha₃
    obtain ⟨L, hb⟩ := hs₂.backed
    have hbase : Basis K m { fs₂ with clock := fs₂.clock + 1 } :=
      ⟨hs₂.settled, _, L, hb.same rfl rfl rfl rfl⟩
    obtain ⟨fs₃, fs₄, hput, hcache, hF⟩ := hbase.stores he hK hKq
      (sealed_writeback n₁ (env.time fs₂.clock)) ⟨ha₂.pool, ha₂.addr⟩
    have hd₄ : fs₄.dcache = fs.dcache := hF.dcache.trans (hd₂.trans hd₁)
    refine ⟨(), withListing fs₄ idx { fs.dcache idx with dirty := false }, ?_,
      draws_relisted hdir (fun j hj ↦ ?_) ?_ ?_⟩
    · simp only [dcacheFlushEntry, bind_apply, get_apply, Option.bind_some, if_neg hd, hcur, hseen,
        answered, hplace, osTime_apply, hput, ↓reduceIte, hcache, setDcache, modify_apply]
      rfl
    · have hj₂ := hsp₂ (2 + j) (hj.mono (by omega))
      have hj₄ := hF.spares j ⟨hj₂.pool, hj₂.addr⟩
      exact ⟨hj₄.pool, hj₄.addr⟩
    · rintro q ⟨x, hx⟩
      have hcell : cell fs₄.icache q = some (x, true) := hx
      rw [hF.cells] at hcell
      by_cases hq : q = (fs.dcache idx).path
      · exact .inr hq
      · rw [update_of_ne hq] at hcell
        refine .inl ⟨x, ?_⟩
        rw [← hk₁.only.icache, ← hi₂]
        exact hcell
    · rintro q ⟨i, hq⟩
      simp only [dirtyAt, withListing, Set.mem_ofPred_eq] at hq
      by_cases hi : i = idx
      · simp only [hi, ↓reduceIte, Bool.false_eq_true, false_and, and_false] at hq
      · simp only [hi, ↓reduceIte, hd₄] at hq
        refine ⟨⟨i, hq⟩, fun hqp ↦ hi ?_⟩
        rw [← (h.listings.named i hq.1).2, hq.2.2, hqp, hidx]

theorem Sound.flushListing_pays (h : Sound K m ∅ fs) (i : ℕ) :
    Pays Reserve 0 (Soundness.flushListing env i) fs := by
  refine .after (a := fs) rfl (.refl _ fs) ?_
  split
  · exact h.flushEntry_pays he hK i
  · exact .pure ()

theorem Sound.flushListings_pays (h : Sound K m ∅ fs) : Pays Reserve 0 (dcacheFlushAll env) fs := by
  refine Pays.forM (I := fun s ↦ ∃ m, Sound K m ∅ s) (fun i s hs ↦ ?_) (fun i s s' hs hx ha ↦ ?_) _
    ⟨m, h⟩
  · obtain ⟨m₁, hs⟩ := hs
    exact hs.flushListing_pays he hK i
  · obtain ⟨m₁, hs⟩ := hs
    obtain ⟨m₂, hs₂, -⟩ := hs.flushListing he hK hx ha.ample.live
    exact ⟨m₂, hs₂⟩

end listings

def Cools (fs fs' : Fs) : Prop :=
  fs'.icache = fs.icache ∧ ∀ i, (fs'.dcache i).dirty = true → fs'.dcache i = fs.dcache i

instance : Std.Refl Cools := ⟨fun _ ↦ ⟨rfl, fun _ _ ↦ rfl⟩⟩

instance : IsTrans Fs Cools where
  trans _ _ _ h h' := ⟨h'.1.trans h.1, fun i hi ↦
    (h'.2 i hi).trans (h.2 i (by rwa [h'.2 i hi] at hi))⟩

section cools

variable {fs fs' : Fs}

theorem Cools.dirtyDirs (h : Cools fs fs') : dirtyDirs fs' ⊆ dirtyDirs fs := by
  rintro q ⟨i, hv, hd, hq⟩
  rw [h.2 i hd] at hv hq
  exact ⟨i, hv, by rw [← h.2 i hd]; exact hd, hq⟩

theorem Cools.draws (h : Cools fs fs') (hs : Spares 0 fs fs') : Draws Reserve 0 fs fs' :=
  draws_clean hs (dirtyInodes_congr h.1).subset h.dirtyDirs

theorem cools_of_index {α : Type} {P : List UInt8 → Prop} {m : FsM α} (hm : Within (IndexOnly P) m) :
    Within Cools m :=
  hm.mono fun _ _ h ↦ ⟨h.icache, fun i _ ↦ congrFun h.dcache i⟩

theorem setDcache_cools {e : DirCacheEntry} (he : e.dirty = false) (idx : ℕ) :
    Within Cools (setDcache idx e) := by
  refine .modify fun fs ↦ ⟨rfl, fun i hi ↦ ?_⟩
  by_cases hidx : i = idx
  · simp only [hidx, ↓reduceIte, he, Bool.false_eq_true] at hi
  · simp only [hidx, ↓reduceIte]

theorem loadChildren_cools (env : Env) (path : Path) (n : Inode) :
    Within Cools (loadChildren env path n) := by
  refine .ite (fun _ ↦ .bind .get fun fs ↦ .bind (cools_of_index (P := fun _ ↦ True) (osAlloc_indexOnly env)) fun ok ↦
    .ite (fun _ ↦ .bind (cools_of_index (P := fun _ ↦ True) (osPread_indexOnly env _ _ _)) fun r ↦ ?_) fun _ ↦ .pure _)
    fun _ ↦ .pure _
  exact setDcache_cools rfl _

theorem openClaimed_cools (env : Env) (path : Path) : Within Cools (Soundness.openClaimed env path) := by
  refine .bind .get fun fs ↦ ?_
  split
  · exact .bind (loadChildren_cools env path _) fun _ ↦ .pure _
  · refine .bind (cools_of_index (P := fun _ ↦ True) (inodePagedGet_indexOnly env path)) fun r ↦ ?_
    cases r with
    | error => exact .pure _
    | ok n => exact .bind (loadChildren_cools env path n) fun _ ↦ .pure _

end cools

section dirs

variable {env : Env} (he : Healthy env) {K : Path → Prop} (hK : Names K) {m : Inodes} {fs : Fs}
  (h : Sound K m ∅ fs) {d : Path} {n : Inode}
include he hK h

theorem Sound.dcacheAlloc_pays (d : Path) : Pays Reserve 0 (DirCache.dcacheAlloc env d) fs := by
  have hclaim (fs₁ : Fs) : Draws Reserve 0 fs₁ (withListing fs₁ (dcIndex d) ⟨d, [], 0, false, true⟩) :=
    (setDcache_cools rfl (dcIndex d) fs₁ () _ rfl).draws (spares_sb rfl)
  intro ha
  by_cases hd : (fs.dcache (dcIndex d)).valid = true ∧ (fs.dcache (dcIndex d)).dirty = true
  · obtain ⟨_, fs₁, hx, ht⟩ := h.flushEntry_pays he hK (dcIndex d) ha
    refine ⟨(), _, ?_, ht.trans (hclaim fs₁)⟩
    simp only [DirCache.dcacheAlloc, bind_apply, get_apply, Option.bind_some, if_pos hd, hx]
    rfl
  · refine ⟨(), _, ?_, hclaim fs⟩
    simp only [DirCache.dcacheAlloc, bind_apply, get_apply, Option.bind_some, if_neg hd]
    rfl

variable (hd : K d) (hn : m d = some n) (ht : n.iFileType = ftDir)
include hd hn ht

theorem Sound.dirOpen_pays : Pays Reserve 0 (DirCache.dirOpen env d) fs := by
  cases hfind : dcacheFind fs d with
  | some e =>
    refine .of_eq (a := .ok) ?_ (.refl _ fs)
    simp only [DirCache.dirOpen, bind_apply, get_apply, Option.bind_some, hfind, pure_apply]
  | none =>
    intro ha
    rw [dirOpen_miss hfind]
    refine (h.dcacheAlloc_pays he hK d).andThen reserve_antitone (fun _ fs₂ halloc ha₂ _ ↦ ?_) ha
    obtain ⟨m₁, fs₁, rfl, hs₁, hR₁, -, hpath, hvalid, hold⟩ := h.dcacheAlloc he hK halloc ha₂.ample.live
    obtain ⟨n₁, hn₁, ht₁⟩ := hR₁.dir (Set.notMem_empty _) hn ht
    have hfind₁ : dcacheFind fs₁ d = none := by
      rw [dcacheFind, hvalid, hpath]
      rw [dcacheFind] at hfind
      split at hfind
      · cases hfind
      · rename_i hno
        exact if_neg hno
    obtain ⟨fs₃, hopen, -, -, -, hsb⟩ := hs₁.openClaimed he hK hd hn₁ ht₁ hfind₁ hold
    exact ⟨.ok, fs₃, hopen, (openClaimed_cools env d _ _ _ hopen).draws (spares_sb hsb)⟩

omit he hK h hd hn ht in
theorem Opened.draws {fs₁ : Fs} (ho : Opened d m fs fs₁) (cs : List DirChild) (cap t : ℕ) :
    Draws Reserve 5 fs₁ (withChildren fs₁ d cs cap t) := by
  refine draws_listing (p := d) (spares_sb rfl) rfl ?_
  rintro q ⟨i, hv, hdirty, hq⟩
  simp only [withChildren, withListing] at hv hdirty hq
  by_cases hi : i = dcIndex d
  · simp only [hi, ↓reduceIte] at hq
    exact .inr (hq.symm.trans ho.path)
  · simp only [hi, ↓reduceIte] at hv hdirty hq
    exact .inl ⟨i, hv, hdirty, hq⟩

theorem Sound.dirAddChild_pays (name : Path) (type : UInt8) :
    Pays Reserve 5 (DirCache.dirAddChild env d name type) fs := by
  refine (h.dirOpen_pays he hK hd hn ht).andThen reserve_antitone fun rc fs₁ hopen ha ↦ ?_
  obtain ⟨rfl, m₁, -, -, ho⟩ := h.dirOpen he hK hd hn ht hopen ha.ample.live
  have hchildren := ho.draws ((fs₁.dcache (dcIndex d)).children ++ [newChild name type])
  by_cases hfull : (fs₁.dcache (dcIndex d)).children.length ≥ (fs₁.dcache (dcIndex d)).childCap
  · refine .of_eq (a := .ok) ?_ (hchildren (if (fs₁.dcache (dcIndex d)).childCap = 0 then 16
      else (fs₁.dcache (dcIndex d)).childCap * 2) (fs₁.clock + 1))
    simp only [bind_apply, get_apply, Option.bind_some, hfull, ↓reduceIte, he.osAlloc_apply]
    rfl
  · refine .of_eq (a := .ok) ?_ (hchildren (fs₁.dcache (dcIndex d)).childCap fs₁.clock)
    simp only [bind_apply, get_apply, Option.bind_some, hfull, ↓reduceIte]
    rfl

theorem Sound.dirRemoveChild_pays (name : Path) :
    Pays Reserve 5 (DirCache.dirRemoveChild env d name) fs := by
  refine (h.dirOpen_pays he hK hd hn ht).andThen reserve_antitone fun rc fs₁ hopen ha ↦ ?_
  obtain ⟨rfl, m₁, -, -, ho⟩ := h.dirOpen he hK hd hn ht hopen ha.ample.live
  cases hfound : (fs₁.dcache (dcIndex d)).children.findIdx? fun c ↦ childMatches c name with
  | none =>
    refine (Pays.of_eq (a := .enoent) ?_ (.refl _ fs₁)).le reserve_antitone (Nat.zero_le 5)
    simp only [bind_apply, get_apply, Option.bind_some, hfound]
    rfl
  | some i =>
    refine .of_eq (a := .ok) ?_ (ho.draws (removeChild (fs₁.dcache (dcIndex d)).children i)
      (fs₁.dcache (dcIndex d)).childCap fs₁.clock)
    simp only [bind_apply, get_apply, Option.bind_some, hfound]
    rfl

end dirs

section whole

variable {env : Env} (he : Healthy env) {K : Path → Prop} (hK : Names K) {m : Inodes} {fs fs' : Fs}
  (h : Sound K m ∅ fs)
include he h

/-- The end of `xxfs_sync` and of `xxfs_umount` only takes what is there. -/
theorem Sound.ends_pays {α : Type} (a : α) : Pays Reserve 0 (do
    pcacheFlushAll env
    Volume.superWrite env
    discard tick
    fsWunlock
    return a : FsM α) fs := by
  obtain ⟨fs₁, hx₁, hs₁, hk, hsb, -⟩ := h.flushPages he
  obtain ⟨fs₂, hx₂, -, -, -, ho⟩ := hs₁.superWrite he
  have hdraw₂ := draws_index (spares_same ho.off ho.count ho.free) ho.only.icache ho.only.dcache
  have hdraw₃ : Draws Reserve 0 fs₂ { fs₂ with clock := fs₂.clock + 1 } :=
    draws_index (spares_sb rfl) rfl rfl
  exact .after hx₁ (draws_index (spares_sb hsb) hk.only.icache hk.only.dcache) (.after hx₂ hdraw₂
    (.after rfl hdraw₃ (pays_unlock .write a)))

include hK

theorem Sound.sync_pays : Pays Reserve 0 (xxfsSync env) fs := by
  refine pays_locked fun l ↦ ?_
  have hL := h.relock l
  have hall : Pays Reserve 0 (icacheFlushAll env) { fs with lock := l } :=
    hL.sound.flushInodes_pays he hK (List.range fs.icache.cap)
  refine hall.andThen reserve_antitone fun _ fs₁ hx₁ ha₁ ↦ ?_
  obtain ⟨m₁, hs₁, -⟩ := hL.sound.flushesInodes he hK hx₁ ha₁.ample.live
  refine (hs₁.flushListings_pays he hK).andThen reserve_antitone fun _ fs₂ hx₂ ha₂ ↦ ?_
  obtain ⟨m₂, hs₂, -⟩ := hs₁.flushesListings he hK hx₂ ha₂.ample.live
  exact hs₂.ends_pays he Rc.ok

theorem Sound.umount_pays : Pays Reserve 0 (xxfsUmount env) fs := by
  refine pays_locked fun l ↦ ?_
  have hL := h.relock l
  refine (hL.sound.flushListings_pays he hK).andThen reserve_antitone fun _ fs₁ hx₁ ha₁ ↦ ?_
  obtain ⟨m₁, hs₁, -⟩ := hL.sound.flushesListings he hK hx₁ ha₁.ample.live
  exact hs₁.ends_pays he ()

end whole

end Xxfs.Soundness

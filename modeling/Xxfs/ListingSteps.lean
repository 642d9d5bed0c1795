import Xxfs.Effects

namespace Xxfs.Soundness

open Function
open Xxfs.DiskFormat Xxfs.Machine Xxfs.Allocator Xxfs.PagedIndex Xxfs.PageStore Xxfs.InodeCache
open Xxfs.DirCache Xxfs.Volume Xxfs.Operations Xxfs.Hash Xxfs.PathName Xxfs.IndexRep Xxfs.CacheMap
open Xxfs.IndexState Xxfs.OperationFrames Xxfs.Checksum Xxfs.CacheKeys Xxfs.Frames
open Xxfs.Lib Xxfs.Lib.Computation Xxfs.Lib.Computation.Comp

section bounds

variable {K : Path → Prop} {m : Inodes} {S : Set ℕ} {fs : Fs} (h : Sound K m S fs)
include h

theorem Sound.pool : PoolOk fs.sb := by
  obtain ⟨L, hb⟩ := h.backed
  exact hb.rep.pool

theorem Sound.bound : front fs.sb < 2 ^ 63 := by
  obtain ⟨L, hb⟩ := h.backed
  exact hb.rep.bound

theorem Sound.below {i : ℕ} (hi : i ∈ ground m S fs) : i < front fs.sb := by
  obtain ⟨L, hb⟩ := h.backed
  exact hb.below i hi

theorem Sound.extent_low {p : Path} {n : Inode} (hn : seen m fs p = some n) {i : ℕ}
    (hi : i ∈ extent n) : 4096 ≤ i := by
  by_contra hlt
  have hpath : i ∈ share (seen m fs) fs.sb.sPdirOff S (.path p) := ⟨n, hn, hi⟩
  exact h.owned.apart.not_mem (b := .super) (by simp) hpath (Set.mem_Iio.mpr (by omega))

theorem Sound.extent_off {p : Path} {n : Inode} (hn : seen m fs p = some n)
    (hb : 0 < n.iBlocks.toNat) : 4096 ≤ n.iExtentOff.toNat ∧
      n.iExtentOff.toNat + n.iBlocks.toNat * 4096 ≤ front fs.sb := by
  have hfirst : n.iExtentOff.toNat ∈ extent n := ⟨le_rfl, by omega⟩
  have hlast : n.iExtentOff.toNat + n.iBlocks.toNat * 4096 - 1 ∈ extent n :=
    ⟨by omega, by omega⟩
  have hlow := h.extent_low hn hfirst
  have hhigh := h.below (extent_subset hn hlast)
  omega

theorem Sound.extents_apart {p q : Path} (hpq : p ≠ q) {n n' : Inode} (hn : seen m fs p = some n)
    (hn' : seen m fs q = some n') {i : ℕ} (hi : i ∈ extent n) : i ∉ extent n' := by
  have hpath : i ∈ share (seen m fs) fs.sb.sPdirOff S (.path p) := ⟨n, hn, hi⟩
  have hno := h.owned.apart.not_mem (b := .path q) (by simpa using hpq) hpath
  exact fun hi' ↦ hno ⟨n', hn', hi'⟩

end bounds

/-- What `placeChildren` does to the inode of a directory. -/
def Placed (n n' : Inode) : Prop :=
  ∃ u s b, n' = { n with iUnion := u, iSize := s, iBlocks := b }

section written

variable {n : Inode} {cs : List DirChild}

theorem write_end (img : Image) (src : ℕ → UInt8) {len off : ℕ} (h : len ≠ 0) :
    off + len ≤ (img.write src len off).size := by
  simp only [Image.write, h, ↓reduceIte]
  exact le_max_right _ _

theorem newBlocks_eq {k : ℕ} (h0 : 0 < k) (hk : k ≤ 15) : (k * dirChildSize + 4095) / 4096 = 1 := by
  rw [show dirChildSize = 272 from rfl]
  omega

theorem childBytes_toNat {k : ℕ} (hk : k ≤ 15) :
    (UInt64.ofNat (k * dirChildSize)).toNat = dirChildSize * k := by
  rw [UInt64.toNat_ofNat', Nat.mul_comm, show dirChildSize = 272 from rfl]
  omega

theorem diskChildren_written (hcs : cs.length ≤ 15) (hne : cs ≠ [])
    (hs : n.iSize = UInt64.ofNat (cs.length * dirChildSize)) (ho : n.iExtentOff ≠ 0) (img : Image) :
    diskChildren (img.write (encodeChildren cs) (cs.length * dirChildSize) n.iExtentOff.toNat) n =
      cs := by
  have hlen : 0 < cs.length := List.length_pos_of_ne_nil hne
  have hsize := childBytes_toNat hcs
  rw [← hs] at hsize
  have hpos : n.iSize ≠ 0 := fun h0 ↦ by
    rw [h0, show dirChildSize = 272 from rfl] at hsize
    change 0 = _ at hsize
    omega
  rw [diskChildren, if_neg (by simp [hpos, ho]), hsize, Nat.mul_div_cancel_left _ (by decide),
    Nat.mod_eq_of_lt (by omega)]
  refine decodeChildren_encode fun i hi ↦ ?_
  rw [Image.write_in _ _ (by omega) (by omega), Nat.add_sub_cancel_left]

end written

section place

variable {env : Env} (he : Healthy env) {K : Path → Prop} {m : Inodes}
  {fs : Fs} (h : Sound K m ∅ fs) (hl : Live fs) {q : Path} {n : Inode} {cs : List DirChild}
include he h hl

theorem Sound.placeChildren (hn : m q = some n) (ht : n.iFileType = ftDir) (hcs : cs.length ≤ 15)
    (hown : ∀ j, (fs.dcache j).valid = true → (fs.dcache j).path = q → (fs.dcache j).dirty = true) :
    ∃ n' S' fs', placeChildren env n cs fs = some (some n', fs') ∧ Sound K m S' fs' ∧
      Placed n n' ∧ extent n' ⊆ extent n ∪ S' ∧ Shape fs'.img.size n' ∧
      diskChildren fs'.img n' = cs ∧ fs'.icache = fs.icache ∧ fs'.dcache = fs.dcache ∧
      Moves (ground m ∅ fs \ extent n) fs fs' := by
  have hseen : seen m fs q = some n := cur_dir (h.coherent q) hn ht
  have hshape := h.owned.shape q n hseen
  by_cases hnil : cs = []
  · refine ⟨{ n.setExtent 0 0 with iSize := 0, iBlocks := 0 }, ∅, fs, ?_, h, ⟨_, _, _, rfl⟩, ?_,
      ⟨fun _ ↦ .inl ⟨rfl, setExtent_extentOff n 0 0, rfl⟩, fun hf ↦ (hf ht).elim,
        fun hb ↦ (Nat.lt_irrefl 0 hb).elim, fun hb ↦ (Nat.lt_irrefl 0 hb).elim⟩, ?_, rfl, rfl,
      .refl _ _⟩
    · simp only [DirCache.placeChildren, hnil, ↓reduceIte, pure_apply]
    · rw [extent_empty rfl]
      exact Set.empty_subset _
    · rw [diskChildren, if_pos (.inl rfl), hnil]
  have hlen : 0 < cs.length := List.length_pos_of_ne_nil hnil
  have hblocks := newBlocks_eq hlen hcs
  have hbytes := childBytes_toNat hcs
  have h272 : dirChildSize = 272 := rfl
  rcases hshape.dir ht with ⟨hb, ho, hs⟩ | ⟨hb, k, hk, hs⟩
  · -- the first block of the directory
    have hfront := hl.nextOff_toNat h.pool
    have haddr := hl.addr
    have hne := hl.nextOff_ne_zero h.pool
    have htake := h.take hl.one_le (by rw [hl.front_taken h.pool]; omega)
    have hext : extent { n.setExtent (nextOff fs.sb) 1 with
        iSize := UInt64.ofNat (cs.length * dirChildSize), iBlocks := 1 } = nextBytes fs 1 := by
      have ho : ({ n.setExtent (nextOff fs.sb) 1 with
          iSize := UInt64.ofNat (cs.length * dirChildSize), iBlocks := 1 } : Inode).iExtentOff =
          nextOff fs.sb := setExtent_extentOff n _ _
      rw [extent, ho, hfront, nextBytes]
      rfl
    have hoff : ({ n.setExtent (nextOff fs.sb) 1 with
        iSize := UInt64.ofNat (cs.length * dirChildSize), iBlocks := 1 } : Inode).iExtentOff =
        nextOff fs.sb := setExtent_extentOff n _ _
    refine ⟨{ n.setExtent (nextOff fs.sb) 1 with
        iSize := UInt64.ofNat (cs.length * dirChildSize), iBlocks := 1 }, nextBytes fs 1, { fs with
      img := fs.img.write (encodeChildren cs) (cs.length * dirChildSize) (nextOff fs.sb).toNat
      sb := taken fs.sb 1
      clock := fs.clock + 1 }, ?_, ?_, ⟨_, _, _, rfl⟩, ?_,
      ⟨fun _ ↦ .inr ⟨rfl, cs.length, hcs, hbytes⟩, fun hf ↦ (hf ht).elim, fun _ ↦ ?_, fun _ ↦ ?_⟩,
      ?_, rfl, rfl,
      ⟨rfl, rfl, rfl, ⟨1, hl.one_le, rfl⟩, fun i hi ↦ ?_, fun i hi ↦ ?_, Image.write_size _ _ _ _⟩⟩
    · simp only [DirCache.placeChildren, hnil, ↓reduceIte, hblocks, ho, if_apply, bind_apply,
        pageAlloc_free env hl.ne_zero, Option.bind_some, hne,
        he.osPwrite_apply _ _ _ (show (nextOff fs.sb).toNat < 2 ^ 63 by omega), pure_apply, ne_eq,
        not_true_eq_false, false_and]
      rfl
    · have hset : ∅ ∪ nextBytes fs (1 : UInt64).toNat = nextBytes fs 1 := Set.empty_union _
      rw [hset] at htake
      refine htake.write _ _ (fun i hi hi' ↦ ?_) fun j x hv hd hx i hi ↦ .inl ?_
      · refine Shares.subset_owned (share _ _ (nextBytes fs 1)) .hand ?_
        exact ⟨by omega, by omega⟩
      · have := h.below (extent_subset (h.listed_dir hv hx).1 hi)
        omega
    · rw [hext]
      exact Set.subset_union_right
    · rw [hoff]
      refine le_trans ?_ (write_end _ _ (by omega))
      exact le_of_eq (congrArg ((nextOff fs.sb).toNat + ·) (hbytes.trans (Nat.mul_comm _ _)))
    · rw [hoff]
      exact (hl.usable h.pool).aligned
    · have := diskChildren_written (n := { n.setExtent (nextOff fs.sb) 1 with
        iSize := UInt64.ofNat (cs.length * dirChildSize), iBlocks := 1 }) hcs hnil rfl
        (by rw [hoff]; exact hne) fs.img
      rwa [hoff] at this
    · refine Image.write_out _ _ (.inl ?_)
      have := h.below hi.1
      omega
    · refine Image.write_out _ _ (.inr ?_)
      have := hl.front_taken h.pool
      dsimp only at hi
      omega
  · -- the block it has is overwritten
    have hone : n.iBlocks.toNat = 1 := by rw [hb]; rfl
    obtain ⟨hlow, hhigh⟩ := h.extent_off hseen (by omega)
    have hbound := h.bound
    have hne : n.iExtentOff ≠ 0 := fun h0 ↦ by
      rw [h0] at hlow
      exact absurd hlow (by decide)
    have hrange (i : ℕ) (hi : n.iExtentOff.toNat ≤ i)
        (hi' : i < n.iExtentOff.toNat + cs.length * dirChildSize) : i ∈ extent n :=
      ⟨hi, by rw [hone]; omega⟩
    refine ⟨{ n with iSize := UInt64.ofNat (cs.length * dirChildSize) }, ∅, { fs with
      img := fs.img.write (encodeChildren cs) (cs.length * dirChildSize) n.iExtentOff.toNat
      clock := fs.clock + 1 }, ?_, ?_, ⟨_, _, _, rfl⟩, Set.subset_union_left,
      ⟨fun _ ↦ .inr ⟨hb, cs.length, hcs, hbytes⟩, fun hf ↦ (hf ht).elim, fun _ ↦ ?_,
        hshape.aligned⟩, ?_, rfl, rfl,
      ⟨rfl, rfl, rfl, ⟨0, UInt64.zero_le, by rw [taken_zero]⟩, fun i hi ↦ ?_, fun i hi ↦ ?_,
        Image.write_size _ _ _ _⟩⟩
    · simp only [DirCache.placeChildren, hnil, ↓reduceIte, hblocks, hne, hone, bind_apply,
        discard_apply, he.osPwrite_apply _ _ _ (show n.iExtentOff.toNat < 2 ^ 63 by omega),
        Option.bind_some, pure_apply, ne_eq, not_false_eq_true, ge_iff_le, le_refl, and_self]
    · refine h.write _ _ (fun i hi hi' ↦ extent_subset hseen (hrange i hi hi'))
        fun j x hv hd hx i hi ↦ ?_
      have hpath : (fs.dcache j).path ≠ q := fun hq ↦ by simp [hown j hv hq] at hd
      by_contra hc
      exact h.extents_apart hpath (h.listed_dir hv hx).1 hseen hi (hrange i (by omega) (by omega))
    · refine le_trans ?_ (write_end _ _ (by omega))
      exact le_of_eq (congrArg (n.iExtentOff.toNat + ·) (hbytes.trans (Nat.mul_comm _ _)))
    · exact diskChildren_written (n := { n with iSize := UInt64.ofNat (cs.length * dirChildSize) })
        hcs hnil rfl hne fs.img
    · refine Image.write_out _ _ ?_
      by_contra hc
      exact hi.2 (hrange i (by omega) (by omega))
    · refine Image.write_out _ _ (.inr ?_)
      dsimp only at hi
      omega

end place

/-- What writing back the directories `W` does. -/
structure Rewrites (W : Set Path) (m m' : Inodes) (fs fs' : Fs) : Prop
    extends Effect ∅ ∅ W m m' fs fs' where
  moves : Moves ∅ fs fs'

/-- The directory whose changed listing a slot of the directory cache holds. -/
def dirtyAt (fs : Fs) (idx : ℕ) : Set Path :=
  { q | (fs.dcache idx).valid = true ∧ (fs.dcache idx).dirty = true ∧ (fs.dcache idx).path = q }

/-- The write-back of a directory with the children `cs` turns its inode into `n'`. -/
def Rewritten (env : Env) (cs : List DirChild) (n n' : Inode) : Prop :=
  ∃ x t fs fs', DirCache.placeChildren env n cs fs = some (some x, fs') ∧ n' = writebackInode x t

section rewrites

variable {W W' : Set Path} {m m₁ m₂ : Inodes} {fs fs₁ fs₂ : Fs}

theorem Rewrites.refl (W : Set Path) (m : Inodes) (fs : Fs) : Rewrites W m m fs fs :=
  ⟨.refl _ _ _ _ _, .refl _ _⟩

theorem Rewrites.mono (h : Rewrites W m m₁ fs fs₁) (hW : W ⊆ W') : Rewrites W' m m₁ fs fs₁ :=
  ⟨h.toEffect.mono subset_rfl subset_rfl hW, h.moves⟩

theorem Rewrites.trans (h : Rewrites W m m₁ fs fs₁) (h' : Rewrites W m₁ m₂ fs₁ fs₂)
    (hc : ∀ p, CoherentAt (cell fs.icache p) (m p)) : Rewrites W m m₂ fs fs₂ :=
  ⟨h.toEffect.trans h'.toEffect hc, h.moves.trans h'.moves⟩

end rewrites

section flush

variable {env : Env} (he : Healthy env) {K : Path → Prop} (hK : Names K) {m : Inodes} {fs fs' : Fs}
  (h : Sound K m ∅ fs)

include h

theorem Sound.rewrites_kept (W : Set Path) (hk : Kept (ground m ∅ fs) fs fs') :
    Rewrites W m m fs fs' :=
  ⟨h.effect_kept ∅ W hk, (Moves.of_kept hk).mono (Set.empty_subset _)⟩

/-- The last steps of `dcache_flush_entry`: the new inode of the directory has been stored, and
its listing becomes clean. -/
theorem Sound.flushed {idx : ℕ} {n n' : Inode} {S₁ : Set ℕ} {fs₁ : Fs}
    (hv : (fs.dcache idx).valid = true) (hn : m (fs.dcache idx).path = some n)
    (ht : n.iFileType = ftDir) (ht' : n'.iFileType = ftDir) (hi : fs₁.icache = fs.icache)
    (hM : Moves (ground m ∅ fs \ extent n) fs fs₁) (hd : fs₁.dcache = fs.dcache)
    (hdisk : diskChildren fs₁.img n' = (fs.dcache idx).children)
    (hfits : Fits m S₁ ∅ fs₁ (fs.dcache idx).path n')
    (hR : Renewed K m S₁ ∅ (fs.dcache idx).path n' fs₁ fs') :
    Sound K (update m (fs.dcache idx).path (some n')) ∅ { fs' with dcache := fun i ↦
        if i = idx then { fs.dcache idx with dirty := false } else fs'.dcache i } ∧
      Rewrites {(fs.dcache idx).path} m (update m (fs.dcache idx).path (some n')) fs { fs' with
        dcache := fun i ↦ if i = idx then { fs.dcache idx with dirty := false } else fs'.dcache i } := by
  have hd' : fs'.dcache = fs.dcache := hR.dcache.trans hd
  have hown : seen m fs (fs.dcache idx).path = some n := cur_dir (h.coherent _) hn ht
  have hnew : seen (update m (fs.dcache idx).path (some n')) fs' (fs.dcache idx).path = some n' := by
    rw [seen, cur, hR.cells, update_self]
    rfl
  have hsize : Moves ∅ fs fs' :=
    (hM.mono (Set.empty_subset _)).trans (hR.moves.mono (Set.empty_subset _))
  have hdata {p : Path} {x : Inode} (hp : p ≠ (fs.dcache idx).path) (hx : seen m fs p = some x)
      {i : ℕ} (hx' : i ∈ extent x) : fs'.img.data i = fs.img.data i := by
    rw [hR.moves.data i (extent_subset (by rw [seen_congr hi]; exact hx) hx')]
    exact hM.data i ⟨extent_subset hx hx', h.extents_apart hp hx hown hx'⟩
  refine ⟨hR.sound.setListing (fun _ ↦ h.listings.named idx hv) (h.listings.few idx hv)
    (fun x _ hx ↦ ?_) (fun x _ _ hx ↦ ?_), ⟨fun p _ ↦ ?_, fun p x _ _ hx htx ↦ ?_,
    fun p x _ hx htx i hix ↦ hdata (fun hp ↦ ?_) hx hix⟩, ⟨hsize.lock, hsize.flags, hsize.cowGen,
      hsize.sb, hsize.data, hsize.free, hsize.size⟩⟩
  · rw [update_self] at hx
    obtain rfl := Option.some.inj hx
    exact ht'
  · rw [update_self] at hx
    obtain rfl := Option.some.inj hx
    rw [diskChildren_congr (hfits.shape.dir ht') fun i hix ↦ hR.moves.data i (hfits.subset hix)]
    exact hdisk.symm
  · by_cases hp : p = (fs.dcache idx).path
    · subst hp
      exact .inr ⟨rfl, n, n', hn, ht, ht', update_self _ _ _⟩
    · refine .inl ⟨update_of_ne hp _ _, ?_⟩
      rw [seen, seen, cur, cur]
      dsimp only
      rw [hR.cells, update_of_ne hp, update_of_ne hp, hi]
  · obtain ⟨-, hidx⟩ := h.listings.named idx hv
    rw [listing, listing, dcacheFind_set, dcacheFind_congr hd']
    by_cases hp : p = (fs.dcache idx).path
    · subst hp
      rw [if_pos hidx, if_pos ⟨hv, rfl⟩, dcacheFind, hidx, if_pos ⟨hv, rfl⟩]
    · have hdisk' : diskChildren fs'.img x = diskChildren fs.img x :=
        h.diskChildren_eq hx htx fun i hix ↦ hdata hp (cur_dir (h.coherent p) hx htx) hix
      have hfind : (if dcIndex p = idx then
          (if (fs.dcache idx).valid = true ∧ (fs.dcache idx).path = p then
            some { fs.dcache idx with dirty := false } else none)
          else dcacheFind fs p) = dcacheFind fs p := by
        split
        · rename_i hpi
          rw [if_neg fun hc ↦ hp hc.2.symm, dcacheFind, hpi, if_neg fun hc ↦ hp hc.2.symm]
        · rfl
      rw [hfind, update_of_ne hp, hx, Option.map_some, Option.map_some, hdisk']
  · rw [hp, hown] at hx
    obtain rfl := Option.some.inj hx
    exact htx ht hp

include he hK

theorem Sound.flushEntry {idx : ℕ} (hx : dcacheFlushEntry env idx fs = some ((), fs'))
    (hl : Live fs') : ∃ m', Sound K m' ∅ fs' ∧ Rewrites (dirtyAt fs idx) m m' fs fs' ∧
      (∀ i, i ≠ idx → fs'.dcache i = fs.dcache i) ∧
      (∀ q ∈ dirtyAt fs idx, ∀ n, m q = some n →
        ∃ n', m' q = some n' ∧ Rewritten env (fs.dcache idx).children n n') ∧
      (fs'.dcache idx = { fs.dcache idx with dirty := false } ∨ fs'.dcache idx = fs.dcache idx ∧
        ((fs.dcache idx).valid = true → (fs.dcache idx).dirty = true →
          m (fs.dcache idx).path = none)) := by
  have hl₀ : Live fs := hl.of_spent (dcacheFlushEntry_inside env idx _ _ _ hx).spent
  by_cases hd : ¬(fs.dcache idx).dirty = true ∨ ¬(fs.dcache idx).valid = true
  · simp only [dcacheFlushEntry, bind_apply, get_apply, Option.bind_some, if_pos hd, pure_apply,
      Option.some.injEq, Prod.mk.injEq, true_and] at hx
    obtain rfl := hx
    have hno : ¬((fs.dcache idx).valid = true ∧ (fs.dcache idx).dirty = true) := by
      rintro ⟨hv, hdirty⟩
      exact hd.elim (fun hd ↦ hd hdirty) fun hd ↦ hd hv
    exact ⟨m, h, .refl _ _ _, fun _ _ ↦ rfl, fun q hq ↦ (hno ⟨hq.1, hq.2.1⟩).elim,
      .inr ⟨rfl, fun hv hdirty ↦ (hno ⟨hv, hdirty⟩).elim⟩⟩
  obtain ⟨hdirty, hv⟩ : (fs.dcache idx).dirty = true ∧ (fs.dcache idx).valid = true := by
    simpa using hd
  obtain ⟨hKq, hidx⟩ := h.listings.named idx hv
  obtain ⟨fs₁, hcur, hs₁, hk₁, hsb₁⟩ := h.current he hK hKq
  have hd₁ : fs₁.dcache = fs.dcache := hk₁.only.dcache
  simp only [dcacheFlushEntry, bind_apply, get_apply, Option.bind_some, if_neg hd, hcur] at hx
  cases hm : m (fs.dcache idx).path with
  | none =>
    rw [show seen m fs (fs.dcache idx).path = none from (cur_none (h.coherent _)).mpr hm] at hx
    obtain ⟨-, rfl⟩ := Prod.mk.inj (Option.some.inj hx)
    refine ⟨m, hs₁, h.rewrites_kept _ hk₁, fun i _ ↦ by rw [hd₁], ?_, .inr ⟨by rw [hd₁], fun _ _ ↦ rfl⟩⟩
    rintro q ⟨-, -, rfl⟩ x hx
    rw [hm] at hx
    cases hx
  | some n =>
    have ht := h.listings.typed idx n hv hm
    have hseen : seen m fs (fs.dcache idx).path = some n := cur_dir (h.coherent _) hm ht
    rw [hseen] at hx
    obtain ⟨n₁, S₁, fs₂, hplace, hs₂, hP, hext, hshape, hdisk, hi₂, hd₂, hM₂⟩ :=
      hs₁.placeChildren he (hl₀.of_sb hsb₁) hm ht (h.listings.few idx hv) fun j hvj hpj ↦ by
        have hj : j = idx := by
          rw [hd₁] at hvj hpj
          rw [← (h.listings.named j hvj).2, hpj, hidx]
        rw [hd₁, hj]
        exact hdirty
    simp only [answered, bind_apply, hplace, Option.bind_some, osTime_apply] at hx
    have hs₃ : Sound K m S₁ { fs₂ with clock := fs₂.clock + 1 } :=
      hs₂.same rfl rfl rfl rfl rfl ⟨rfl, rfl, rfl, rfl, rfl⟩
    have hbody := sameBody_writeback n₁ (env.time fs₂.clock)
    have hsealed := sealed_writeback n₁ (env.time fs₂.clock)
    have hstores : Rewritten env (fs.dcache idx).children n (writebackInode n₁ (env.time fs₂.clock)) :=
      ⟨n₁, _, _, _, hplace, rfl⟩
    generalize writebackInode n₁ (env.time fs₂.clock) = n' at hx hbody hsealed hstores
    have ht' : n'.iFileType = ftDir := by
      obtain ⟨u, s, b, rfl⟩ := hP
      exact hbody.type.trans ht
    have hseen₃ : seen m { fs₂ with clock := fs₂.clock + 1 } = seen m fs :=
      (seen_congr hi₂).trans (seen_congr hk₁.only.icache)
    have hfits : Fits m S₁ ∅ { fs₂ with clock := fs₂.clock + 1 } (fs.dcache idx).path n' := by
      refine ⟨?_, Set.disjoint_empty _, hbody.shape hshape, ?_, fun i hvi hpi ↦ ⟨ht', fun hci ↦ ?_⟩⟩
      · rw [hseen₃, hseen, extentOf_some, Set.union_empty, hbody.extent]
        exact hext
      · rw [kind_update (by rw [kind, hm, ht', ← ht]; rfl)]
        exact h.tree
      · have hi : i = idx := by
          dsimp only at hvi hpi
          rw [hd₂, hd₁] at hvi hpi
          rw [← (h.listings.named i hvi).2, hpi, hidx]
        dsimp only at hci
        rw [hd₂, hd₁, hi, hdirty] at hci
        cases hci
    obtain ⟨⟨rc, fs₄⟩, hput, hrest⟩ := Option.bind_eq_some_iff.mp hx
    have hspent : Spent fs₄.sb fs'.sb :=
      (Within.ite (fun _ ↦ .bind (icachePut_inside env _ n') fun _ ↦ setDcache_inside _ _)
        (fun _ ↦ setDcache_inside _ _) _ _ _ hrest : Inside fs₄ fs').spent
    have hl₄ : Live fs₄ := hl.of_spent hspent
    have hl₃ : Live { fs₂ with clock := fs₂.clock + 1 } :=
      hl₄.of_spent (pagedPut_indexOnly (P := fun _ ↦ True) env _ trivial _ _ _ hput).spent
    obtain ⟨rc', fs₅, hput', hgood⟩ := hs₃.storeBoth he hK hKq hfits hsealed hl₃
    rw [hput] at hput'
    obtain ⟨rfl, rfl⟩ := Prod.mk.inj (Option.some.inj hput')
    obtain ⟨rfl, fs₆, hcache, -, hR⟩ := hgood hl₄
    simp only [↓reduceIte, bind_apply, hcache, Option.bind_some, setDcache, modify_apply,
      Option.some.injEq, Prod.mk.injEq, true_and] at hrest
    have hM₃ : Moves (ground m ∅ fs \ extent n) fs { fs₂ with clock := fs₂.clock + 1 } := by
      rw [ground_congr hk₁.only.icache (Moves.of_kept hk₁).pdirOff] at hM₂
      exact (((Moves.of_kept hk₁).mono Set.sdiff_subset).trans hM₂).trans (.caches _ fs₂ _ _ _)
    have hdisk' : diskChildren { fs₂ with clock := fs₂.clock + 1 }.img n' =
        (fs.dcache idx).children := (hbody.diskChildren _).trans hdisk
    have hi₃ : { fs₂ with clock := fs₂.clock + 1 }.icache = fs.icache :=
      hi₂.trans hk₁.only.icache
    obtain ⟨hsound, hrw⟩ := h.flushed hv hm ht ht' hi₃ hM₃ (hd₂.trans hd₁) hdisk' hfits hR
    have hd₆ : fs₆.dcache = fs.dcache := hR.dcache.trans (hd₂.trans hd₁)
    have hdirtyAt : {(fs.dcache idx).path} ⊆ dirtyAt fs idx := by
      rintro _ rfl
      exact ⟨hv, hdirty, rfl⟩
    obtain rfl := hrest
    refine ⟨_, hsound, hrw.mono hdirtyAt, fun i hi ↦ ?_, ?_, .inl ?_⟩
    · simp only [hi, ↓reduceIte, hd₆]
    · rintro q ⟨-, -, rfl⟩ x hx
      obtain rfl := Option.some.inj (hm.symm.trans hx)
      exact ⟨n', update_self _ _ _, hstores⟩
    · simp only [↓reduceIte]

end flush

end Xxfs.Soundness

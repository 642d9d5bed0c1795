import Xxfs.Handout
import Xxfs.LookSteps

namespace Xxfs.Soundness

open Function
open Xxfs.DiskFormat Xxfs.Machine Xxfs.Allocator Xxfs.PagedIndex Xxfs.PageStore Xxfs.InodeCache
open Xxfs.DirCache Xxfs.Volume Xxfs.Operations Xxfs.Hash Xxfs.PathName Xxfs.IndexRep Xxfs.CacheMap
open Xxfs.IndexState Xxfs.OperationFrames Xxfs.Checksum Xxfs.CacheKeys Xxfs.Frames
open Xxfs.Lib Xxfs.Lib.Computation Xxfs.Lib.Computation.Comp

def room (n : Inode) : ℕ := if n.iBlocks = 0 then inlineMax else n.iBlocks.toNat * 4096

def Padded (img : Image) (n : Inode) : Prop :=
  ∀ i, n.iSize.toNat ≤ i → i < room n → content img n i = 0

theorem Padded.congr {img img' : Image} {n : Inode} (h : Padded img n)
    (hdata : ∀ i ∈ extent n, img'.data i = img.data i) : Padded img' n := by
  intro i hi hr
  rw [← h i hi hr, content, content]
  split
  · rfl
  · rename_i hb
    rw [room, if_neg hb] at hr
    exact hdata _ ⟨by omega, by omega⟩

/-- A write that leaves the file in one piece: within the inode, within the first blocks of a
file that had none, or within its blocks. -/
structure Takes (n : Inode) (off : UInt64) (len : UInt32) : Prop where
  bound : off.toNat + len.toNat < 2 ^ 63
  room : off.toNat + len.toNat ≤ inlineMax ∧ n.iBlocks = 0 ∨
    inlineMax < off.toNat + len.toNat ∧ n.iBlocks = 0 ∧
      (n.iSize = 0 ∨ off.toNat + len.toNat ≤ 4096) ∨
    inlineMax < off.toNat + len.toNat ∧ n.iBlocks ≠ 0 ∧
      off.toNat + len.toNat ≤ n.iBlocks.toNat * 4096

section alloc

variable {env : Env} (he : Healthy env) {fs fs₁ : Fs}
include he

theorem pageAllocN_live {k o : UInt64} (h0 : k ≠ 0) (hx : pageAllocN env k fs = some (o, fs₁))
    (hl : Live fs₁) :
    k ≤ fs.sb.sFreeBlocks ∧ o = nextOff fs.sb ∧ fs₁ = { fs with sb := taken fs.sb k } := by
  by_cases hk : k ≤ fs.sb.sFreeBlocks
  · rw [pageAllocN_free env h0 hk] at hx
    obtain ⟨rfl, rfl⟩ := Prod.mk.inj (Option.some.inj hx)
    exact ⟨hk, rfl, rfl⟩
  · have hfree : fs₁.sb.sFreeBlocks = 0 := by
      rw [pageAllocN, if_neg h0] at hx
      by_cases h1 : k = 1
      · have hf : fs.sb.sFreeBlocks = 0 := by
          by_contra hne
          rw [h1] at hk
          exact hk (UInt64.le_iff_toNat_le.mpr (pos_of_ne_zero hne))
        obtain ⟨img, c, hext, -⟩ := Handout.osFileExtend_apply he fs (nextOff fs.sb + 4096)
        rw [if_pos h1] at hx
        simp only [pageAlloc, bind_apply, get_apply, Option.bind_some, hf, ↓reduceIte, hext,
          modify_apply, pure_apply, Option.some.injEq, Prod.mk.injEq] at hx
        obtain ⟨-, rfl⟩ := hx
        rfl
      · obtain ⟨img, c, hext, -⟩ := Handout.osFileExtend_apply he fs
          (nextOff fs.sb + (k - fs.sb.sFreeBlocks) * 4096)
        rw [if_neg h1] at hx
        simp only [bind_apply, get_apply, Option.bind_some, ge_iff_le, hk, ↓reduceIte, hext,
          modify_apply, pure_apply, Option.some.injEq, Prod.mk.injEq] at hx
        obtain ⟨-, rfl⟩ := hx
        rfl
    exact (hl.ne_zero hfree).elim

end alloc

/-- The blocks of `n'` are those of `n`, or its first ones, fresh from the pool. -/
def Extends (fs : Fs) (n n' : Inode) : Prop :=
  n'.iBlocks = n.iBlocks ∧ (n.iBlocks ≠ 0 → n'.iExtentOff = n.iExtentOff) ∨
    n.iBlocks = 0 ∧ n'.iBlocks ≤ fs.sb.sFreeBlocks ∧ n'.iExtentOff = nextOff fs.sb

theorem Extends.of_sb {fs fs₁ : Fs} {n n' : Inode} (h : Extends fs₁ n n') (hsb : fs₁.sb = fs.sb) :
    Extends fs n n' := by
  rwa [Extends, hsb] at h

/-- The blocks of a file are as the write needs them: `n₁` is the inode `n` with blocks that hold
what `n` holds, from its own and from those at hand. -/
structure Ready (K : Path → Prop) (m : Inodes) (S : Set ℕ) (n n₁ : Inode) (fs fs₁ : Fs) :
    Prop where
  sound : Sound K m S fs₁
  sub : extent n₁ ⊆ extent n ∪ S
  pos : n₁.iBlocks ≠ 0
  blocks : Extends fs n n₁
  body : n₁ = { n with iUnion := n₁.iUnion, iBlocks := n₁.iBlocks }
  size : n.iSize.toNat ≤ n₁.iBlocks.toNat * 4096
  filled : 0 < n.iSize.toNat → n₁.iExtentOff.toNat + n.iSize.toNat ≤ fs₁.img.size
  aligned : n₁.iExtentOff.toNat % 4096 = 0
  padded : Padded fs.img n → Padded fs₁.img n₁
  content : ∀ i < n.iSize.toNat, content fs₁.img n₁ i = content fs.img n i
  icache : fs₁.icache = fs.icache
  dcache : fs₁.dcache = fs.dcache
  moves : Moves (ground m ∅ fs) fs fs₁

def withBlocks (n : Inode) (off : UInt64) (len : UInt32) (blocks : UInt64) : Inode :=
  { n.setExtent off len with iBlocks := blocks }

theorem withBlocks_off (n : Inode) (off : UInt64) (len : UInt32) (blocks : UInt64) :
    (withBlocks n off len blocks).iExtentOff = off :=
  setExtent_extentOff n off len

section ready

variable {env : Env} (he : Healthy env) {K : Path → Prop} {m : Inodes} {fs fs₁ : Fs}
  (h : Sound K m ∅ fs) {p : Path} {n n₁ : Inode}
include h

theorem Sound.ready_self (hn : seen m fs p = some n) (hb : n.iBlocks ≠ 0) :
    Ready K m ∅ n n fs fs :=
  have hshape := h.owned.shape p n hn
  ⟨h, Set.subset_union_left, hb, .inl ⟨rfl, fun _ ↦ rfl⟩, rfl, hshape.size_le hb, fun _ ↦ hshape.filled (pos_of_ne_zero hb),
    hshape.aligned (pos_of_ne_zero hb), id, fun _ _ ↦ rfl, rfl, rfl, .refl _ _⟩

omit h in
theorem blocksFor_toNat {e : UInt64} (he : e.toNat + 4095 < 2 ^ 64) :
    (blocksFor e).toNat = (e.toNat + 4095) / 4096 := by
  rw [blocksFor, UInt64.toNat_div, UInt64.toNat_add]
  change (e.toNat + 4095) % 2 ^ 64 / 4096 = _
  rw [Nat.mod_eq_of_lt he]

theorem Sound.extent_taken {k : UInt64} (hk : k ≤ fs.sb.sFreeBlocks) (h0 : k ≠ 0)
    (hoff : n₁.iExtentOff = nextOff fs.sb) (hb : n₁.iBlocks = k) :
    extent n₁ = nextBytes fs k.toNat := by
  have hpos : 0 < fs.sb.sFreeBlocks.toNat :=
    (pos_of_ne_zero h0).trans_le (UInt64.le_iff_toNat_le.mp hk)
  rw [extent, hoff, hb, nextOff_toNat h.pool hpos, nextBytes]

include he

theorem Sound.grown (hb : n.iBlocks = 0) (hs : n.iSize = 0) {k : UInt64} (h0 : k ≠ 0)
    {r : Except Rc Inode} (hx : growExtent env n k fs = some (r, fs₁)) (hl : Live fs₁) :
    ∃ n₁, r = .ok n₁ ∧ n₁.iBlocks = k ∧ Ready K m (∅ ∪ nextBytes fs k.toNat) n n₁ fs fs₁ := by
  have hgt : k > n.iBlocks := by
    rw [hb]
    exact UInt64.pos_iff_ne_zero.mpr h0
  have hno (o : UInt64) :
      ¬(0 < n.iBlocks ∧ n.iExtentOff ≠ 0 ∧ o ≠ n.iExtentOff + n.iBlocks * 4096) := by
    rintro ⟨hpos, -⟩
    rw [hb] at hpos
    exact absurd hpos (by decide)
  rw [growExtent, if_pos hgt] at hx
  obtain ⟨o, fs₂, halloc, hrest⟩ := of_bind hx
  rw [hb, UInt64.sub_zero] at halloc
  have hrest' : (if o = 0 then some (.error .enospc, fs₂) else
      some (.ok { n.setExtent o k.toUInt32 with iBlocks := k }, fs₂)) = some (r, fs₁) := by
    by_cases ho : o = 0
    · rw [if_pos ho] at hrest ⊢
      exact hrest
    · rw [if_neg ho, if_neg (hno o)] at hrest
      rw [if_neg ho]
      exact hrest
  have hfs : fs₁ = fs₂ := by
    split at hrest'
    · exact (Prod.mk.inj (Option.some.inj hrest')).2.symm
    · exact (Prod.mk.inj (Option.some.inj hrest')).2.symm
  subst hfs
  obtain ⟨hk, rfl, rfl⟩ := pageAllocN_live he h0 halloc hl
  have hpos : 0 < fs.sb.sFreeBlocks.toNat :=
    (pos_of_ne_zero h0).trans_le (UInt64.le_iff_toNat_le.mp hk)
  have hoff := nextOff_toNat h.pool hpos
  have hne : nextOff fs.sb ≠ 0 := by
    intro hz
    rw [hz] at hoff
    have := h.pool.pos
    rw [front] at hoff
    change 0 = _ at hoff
    omega
  rw [if_neg hne] at hrest'
  obtain ⟨rfl, -⟩ := Prod.mk.inj (Option.some.inj hrest')
  have haddr := hl.addr
  refine ⟨withBlocks n (nextOff fs.sb) k.toUInt32 k, rfl, rfl,
    h.take hk (by dsimp only at haddr; omega), ?_, h0, .inr ⟨hb, hk, withBlocks_off n _ _ _⟩, rfl, ?_,
    fun hlt ↦ ?_, ?_, fun _ i _ _ ↦ ?_,
    fun i hi ↦ ?_, rfl, rfl, rfl, rfl, rfl, ⟨k, hk, rfl⟩, fun _ _ ↦ rfl, fun _ _ ↦ rfl, le_rfl⟩
  · rw [h.extent_taken hk h0 (withBlocks_off n _ _ _) rfl, Set.empty_union]
    exact Set.subset_union_right
  · rw [hs]
    exact Nat.zero_le _
  · rw [hs] at hlt
    exact absurd hlt (by decide)
  · rw [withBlocks_off, hoff]
    exact front_aligned h.pool
  · have hb₁ : (withBlocks n (nextOff fs.sb) k.toUInt32 k).iBlocks ≠ 0 := h0
    rw [Soundness.content, if_neg hb₁, withBlocks_off, hoff]
    exact h.zero _ (Nat.le_add_right _ _)
  · rw [hs] at hi
    exact absurd hi (by simp)

theorem Sound.inlineLeft (hb : n.iBlocks = 0) (hs : n.iSize ≠ 0)
    (hsmall : n.iSize.toNat ≤ inlineMax) (hl : Live fs) :
    ∃ n₁ fs₁, leaveInline env n fs = some (.ok n₁, fs₁) ∧ n₁.iBlocks = 1 ∧
      Ready K m (∅ ∪ nextBytes fs 1) n n₁ fs fs₁ := by
  have hoff := hl.nextOff_toNat h.pool
  have haddr := hl.addr
  have hne := hl.nextOff_ne_zero h.pool
  have h128 : inlineMax = 128 := rfl
  have hmin : min n.iSize.toNat inlineMax = n.iSize.toNat := by omega
  have hpos := pos_of_ne_zero hs
  have hio := withBlocks_off n (nextOff fs.sb) 1 1
  have hone : (withBlocks n (nextOff fs.sb) 1 1).iBlocks ≠ 0 := by
    change (1 : UInt64) ≠ 0
    decide
  have hext := h.extent_taken hl.one_le (by decide) hio rfl
  have htake := h.take hl.one_le (by rw [hl.front_taken h.pool]; omega)
  have hrange (i : ℕ) (h₁ : (nextOff fs.sb).toNat ≤ i)
      (h₂ : i < (nextOff fs.sb).toNat + n.iSize.toNat) : i ∈ nextBytes fs 1 :=
    ⟨by omega, by omega⟩
  have hold {i : ℕ} (hi : i ∈ ground m ∅ fs) :
      i < (nextOff fs.sb).toNat ∨ (nextOff fs.sb).toNat + n.iSize.toNat ≤ i := by
    have := h.below hi
    omega
  have hw := htake.write (arr n.iUnion).2 (fs.clock + 1)
    (fun i h₁ h₂ ↦ Shares.subset_owned
      (share (seen m fs) fs.sb.sPdirOff (∅ ∪ nextBytes fs 1)) .hand (.inr (hrange i h₁ h₂)))
    fun j x hv _ hx i hi ↦ hold (extent_subset (h.listed_dir hv hx).1 hi)
  refine ⟨withBlocks n (nextOff fs.sb) 1 1, _, ?_, rfl, hw, ?_, hone, .inr ⟨hb, hl.one_le, hio⟩, rfl, ?_, fun _ ↦ ?_, ?_,
    fun _ i hi _ ↦ ?_, fun i hi ↦ ?_, rfl, rfl, ?_⟩
  · rw [leaveInline, if_pos ⟨UInt64.pos_iff_ne_zero.mpr hs, hb⟩, bind_apply,
      pageAlloc_free env hl.ne_zero, Option.bind_some]
    dsimp only
    rw [if_neg hne, hmin, bind_apply, he.osPwrite_apply _ _ _ (by omega), Option.bind_some,
      if_pos rfl]
    rfl
  · rw [hext, Set.empty_union]
    exact Set.subset_union_right
  · change _ ≤ 1 * 4096
    omega
  · rw [hio]
    exact write_end _ _ (by omega)
  · rw [hio]
    exact (hl.usable h.pool).aligned
  · change n.iSize.toNat ≤ i at hi
    rw [content, if_neg hone, hio]
    rw [Image.write_out _ _ (.inr (by omega))]
    exact h.zero _ (by omega)
  · rw [content, if_neg hone, content, if_pos hb, hio]
    rw [Image.write_in _ _ (by omega) (by omega), Nat.add_sub_cancel_left]
  · refine ⟨rfl, rfl, rfl, ⟨1, hl.one_le, rfl⟩, fun i hi ↦ Image.write_out _ _ (hold hi),
      fun i hi ↦ Image.write_out _ _ (.inr ?_), Image.write_size _ _ _ _⟩
    have := hl.front_taken h.pool
    dsimp only at hi
    omega

end ready

/-- What follows when a file has been written to: the cached inode is new. -/
structure Wrote (p : Path) (n n' : Inode) (buf : ℕ → UInt8) (off : UInt64) (len : UInt32)
    (m : Inodes) (fs fs' : Fs) : Prop extends Effect {p} ∅ ∅ m m fs fs' where
  now : Soundness.seen m fs' p = some n'
  blocks : Extends fs n n'
  body : n' = { n with
    iUnion := n'.iUnion, iBlocks := n'.iBlocks, iSize := maxSize n.iSize (off + len.toUInt64) }
  bytes : ∀ i < len.toNat, content fs'.img n' (off.toNat + i) = buf i
  rest : ∀ i < n.iSize.toNat, (i < off.toNat ∨ off.toNat + len.toNat ≤ i) →
    content fs'.img n' i = content fs.img n i
  gap : Padded fs.img n → ∀ i, n.iSize.toNat ≤ i → i < off.toNat → content fs'.img n' i = 0
  padded : Padded fs.img n → Padded fs'.img n'
  dcache : fs'.dcache = fs.dcache
  count : fs'.sb.sInodesCount = fs.sb.sInodesCount

section ends

variable {off : UInt64} {len : UInt32} (h : off.toNat + len.toNat < 2 ^ 63)
include h

theorem end_toNat : (off + len.toUInt64).toNat = off.toNat + len.toNat := by
  rw [UInt64.toNat_add, UInt32.toNat_toUInt64]
  exact Nat.mod_eq_of_lt (by omega)

theorem maxSize_toNat (s : UInt64) :
    (maxSize s (off + len.toUInt64)).toNat = max s.toNat (off.toNat + len.toNat) := by
  have he := end_toNat h
  rw [maxSize]
  split
  · rename_i hgt
    rw [gt_iff_lt, UInt64.lt_iff_toNat_lt, he] at hgt
    rw [he]
    omega
  · rename_i hle
    rw [gt_iff_lt, UInt64.lt_iff_toNat_lt, he] at hle
    omega

end ends

section put

variable {env : Env} (he : Healthy env) {K : Path → Prop} (hK : Names K) {m : Inodes} {S : Set ℕ}
  {fs fs₁ : Fs} (h : Sound K m ∅ fs) {p : Path} (hp : K p) {n n₁ : Inode}
  (hn : seen m fs p = some n) {off : UInt64} {len : UInt32} {buf : ℕ → UInt8}
  (hbound : off.toNat + len.toNat < 2 ^ 63)
include he hK h hp hn hbound

omit he hK hp hbound in
theorem Sound.coherent_file (ht : n.iFileType ≠ ftDir) {n' : Inode}
    (ht' : n'.iFileType = n.iFileType) : CoherentAt (some (n', true)) (m p) := by
  rintro _ _ ⟨⟩
  obtain ⟨x, hx, htx⟩ := h.stored_some hn
  refine ⟨x, hx, htx.trans ht'.symm, fun hc ↦ ?_⟩
  rcases hc with hd | hd
  · exact (ht (ht'.symm.trans hd)).elim
  · cases hd

theorem Sound.writeReady (ht : n.iFileType ≠ ftDir) (hr : Ready K m S n n₁ fs fs₁)
    (hroom : off.toNat + len.toNat ≤ n₁.iBlocks.toNat * 4096) (hlen : len ≠ 0) : ∃ fs₂ fs',
    osPwrite env buf len.toNat (n₁.iExtentOff + off) fs₁ = some (true, fs₂) ∧
      icachePut env (xxh64 p) p { n₁ with iSize := maxSize n₁.iSize (off + len.toUInt64) } fs₂ =
        some ((), fs') ∧
      Sound K m ∅ fs' ∧
      Wrote p n { n₁ with iSize := maxSize n₁.iSize (off + len.toUInt64) } buf off len m fs fs' := by
  have hseen : seen m fs₁ = seen m fs := seen_congr hr.icache
  have hlen' : 0 < len.toNat := UInt32.lt_iff_toNat_lt.mp (UInt32.pos_iff_ne_zero.mpr hlen)
  have hsize : n₁.iSize = n.iSize := by rw [hr.body]
  have htype : n₁.iFileType = n.iFileType := by rw [hr.body]
  -- the blocks are the file's alone
  have hground {i : ℕ} (hi : i ∈ extent n₁) : i ∈ ground m S fs₁ := by
    rcases hr.sub hi with hi | hi
    · exact extent_subset (hseen ▸ hn) hi
    · exact Shares.subset_owned (share (seen m fs₁) fs₁.sb.sPdirOff S) .hand hi
  have hapart {q : Path} (hq : q ≠ p) {x : Inode} (hx : seen m fs q = some x) {i : ℕ}
      (hi : i ∈ extent x) : i ∉ extent n₁ := by
    intro hi'
    rw [← hseen] at hx hn
    rcases hr.sub hi' with h' | h'
    · exact hr.sound.extents_apart hq hx hn hi h'
    · have hpath : i ∈ share (seen m fs₁) fs₁.sb.sPdirOff S (.path q) := ⟨x, hx, hi⟩
      have hhand : i ∈ share (seen m fs₁) fs₁.sb.sPdirOff S .hand := h'
      exact hr.sound.owned.apart.not_mem (by simp) hpath hhand
  have hpos := pos_of_ne_zero hr.pos
  have hlast : n₁.iExtentOff.toNat + n₁.iBlocks.toNat * 4096 - 1 ∈ extent n₁ := ⟨by omega, by omega⟩
  have hhigh := hr.sound.below (hground hlast)
  have hfront := hr.sound.bound
  have hadd : (n₁.iExtentOff + off).toNat = n₁.iExtentOff.toNat + off.toNat := by
    rw [UInt64.toNat_add]
    exact Nat.mod_eq_of_lt (by omega)
  have hin (i : ℕ) (h₁ : (n₁.iExtentOff + off).toNat ≤ i)
      (h₂ : i < (n₁.iExtentOff + off).toNat + len.toNat) : i ∈ extent n₁ := ⟨by omega, by omega⟩
  have hout {q : Path} (hq : q ≠ p) {x : Inode} (hx : seen m fs q = some x) {i : ℕ}
      (hi : i ∈ extent x) :
      i < (n₁.iExtentOff + off).toNat ∨ (n₁.iExtentOff + off).toNat + len.toNat ≤ i := by
    by_contra hc
    exact hapart hq hx hi (hin i (by omega) (by omega))
  have hdir {q : Path} {x : Inode} (hx : m q = some x) (htx : x.iFileType = ftDir) :
      q ≠ p ∧ seen m fs q = some x := by
    have hx' : seen m fs q = some x := cur_dir (h.coherent q) hx htx
    refine ⟨fun hq ↦ ?_, hx'⟩
    rw [hq, hn] at hx'
    obtain rfl := Option.some.inj hx'
    exact ht htx
  have hs₂ := hr.sound.write buf (fs₁.clock + 1) (fun i h₁ h₂ ↦ hground (hin i h₁ h₂))
    fun j x hv _ hx i hi ↦
      have hd := hdir hx (hr.sound.listings.typed j x hv hx)
      hout hd.1 hd.2 hi
  have hmax := maxSize_toNat hbound n₁.iSize
  rw [hsize] at hmax
  have hwend : (n₁.iExtentOff + off).toNat + len.toNat ≤
      (fs₁.img.write buf len.toNat (n₁.iExtentOff + off).toNat).size :=
    write_end _ _ (by omega)
  have hwsize := Image.write_size fs₁.img buf len.toNat (n₁.iExtentOff + off).toNat
  have hfits := hr.size
  have hfill := hr.filled
  have hnew : Shape (fs₁.img.write buf len.toNat (n₁.iExtentOff + off).toNat).size
      { n₁ with iSize := maxSize n₁.iSize (off + len.toUInt64) } := by
    rw [hsize]
    refine ⟨fun hd ↦ (ht (htype.symm.trans hd)).elim, fun _ ↦ .inr ⟨hpos, ?_⟩, fun _ ↦ ?_,
      fun _ ↦ hr.aligned⟩
    · dsimp only
      omega
    · change n₁.iExtentOff.toNat + (maxSize n.iSize (off + len.toUInt64)).toNat ≤ _
      omega
  have hsub : extent { n₁ with iSize := maxSize n₁.iSize (off + len.toUInt64) } ∪ ∅ ⊆
      extentOf (seen m fs p) ∪ S := by
    rw [hn, extentOf_some, Set.union_empty]
    exact hr.sub
  rw [← hseen] at hsub
  have hcoh : CoherentAt (some ({ n₁ with iSize := maxSize n₁.iSize (off + len.toUInt64) }, true))
      (m p) := h.coherent_file hn ht htype
  obtain ⟨c, t, hput, hcell, hs₃, -⟩ := hs₂.cachePut he hK hp hcoh hsub (Set.disjoint_empty _) hnew
  refine ⟨_, _, he.osPwrite_apply _ _ _ (by omega), hput, hs₃, ⟨fun q hq ↦ ?_, fun q x hq _ hx htx ↦ ?_,
    fun q x hq hx _ i hi ↦ ?_⟩, ?_, hr.blocks, ?_, fun i hi ↦ ?_, fun i hi hio ↦ ?_,
    fun hpad i hi hio ↦ ?_, fun hpad i hi hir ↦ ?_, hr.dcache, hr.moves.inodes⟩
  · refine .inl ⟨rfl, ?_⟩
    rw [seen, cur, hcell, update_of_ne hq]
    exact congrFun hseen q
  · obtain ⟨-, hx'⟩ := hdir hx htx
    have hdisk : diskChildren (fs₁.img.write buf len.toNat (n₁.iExtentOff + off).toNat) x =
        diskChildren fs.img x := h.diskChildren_eq hx htx fun i hi ↦ by
      rw [Image.write_out _ _ (hout hq hx' hi)]
      exact hr.moves.data i (extent_subset hx' hi)
    refine listing_disk ?_ hx hdisk
    exact hr.dcache
  · dsimp only
    rw [Image.write_out _ _ (hout hq hx hi)]
    exact hr.moves.data i (extent_subset hx hi)
  · rw [seen, cur, hcell, update_self]
    rfl
  · rw [hsize, hr.body]
  · rw [content, if_neg hr.pos]
    change (fs₁.img.write buf len.toNat (n₁.iExtentOff + off).toNat).data
      (n₁.iExtentOff.toNat + (off.toNat + i)) = buf i
    rw [Image.write_in _ _ (by omega) (by omega), hadd]
    congr 1
    omega
  · rw [← hr.content i hi, content, if_neg hr.pos, content, if_neg hr.pos]
    change (fs₁.img.write buf len.toNat (n₁.iExtentOff + off).toNat).data
      (n₁.iExtentOff.toNat + i) = _
    rw [Image.write_out _ _ (by omega)]
  · have hzero := hr.padded hpad i (hsize ▸ hi) (by rw [room, if_neg hr.pos]; omega)
    rw [content, if_neg hr.pos] at hzero ⊢
    change (fs₁.img.write buf len.toNat (n₁.iExtentOff + off).toNat).data
      (n₁.iExtentOff.toNat + i) = _
    rw [Image.write_out _ _ (by omega)]
    exact hzero
  · change (maxSize n₁.iSize (off + len.toUInt64)).toNat ≤ i at hi
    rw [hsize] at hi
    have hzero := hr.padded hpad i (by rw [hsize]; omega) hir
    rw [content, if_neg hr.pos] at hzero ⊢
    change (fs₁.img.write buf len.toNat (n₁.iExtentOff + off).toNat).data
      (n₁.iExtentOff.toNat + i) = _
    rw [Image.write_out _ _ (by omega)]
    exact hzero

end put

def inlined (n : Inode) (buf : ℕ → UInt8) (off : UInt64) (len : UInt32) : Inode :=
  { n with
    iUnion := arrCopy n.iUnion off.toNat len.toNat buf
    iSize := maxSize n.iSize (off + len.toUInt64) }

section write

variable {K : Path → Prop} {m : Inodes} {fs fs₁ fs₂ : Fs} {p : Path} {n n' : Inode}
  {off : UInt64} {len : UInt32} {buf : ℕ → UInt8}

theorem Wrote.after (hW : Wrote p n n' buf off len m fs₁ fs₂) (hL : Looked K m fs fs₁)
    (hsb : fs₁.sb = fs.sb) (h : Sound K m ∅ fs) (hn : seen m fs p = some n) :
    Wrote p n n' buf off len m fs fs₂ := by
  have hdata := hL.effect.data p n (Set.notMem_empty _) hn fun _ ↦ Set.notMem_empty _
  refine ⟨(hL.effect.mono (Set.empty_subset _) subset_rfl subset_rfl).trans hW.toEffect h.coherent,
    hW.now, hW.blocks.of_sb hsb, hW.body, hW.bytes, fun i hi hout ↦ (hW.rest i hi hout).trans (h.content_eq hn hdata hi),
    fun hpad ↦ hW.gap (hpad.congr hdata), fun hpad ↦ hW.padded (hpad.congr hdata),
    hW.dcache.trans hL.dcache, hW.count.trans hL.count⟩

theorem Wrote.relock (hW : Wrote p n n' buf off len m fs fs₁) (h : Sound K m ∅ fs) (l : Lock) :
    Wrote p n n' buf off len m fs { fs₁ with lock := l } :=
  ⟨hW.toEffect.trans (effect_same _ _ _ m rfl rfl rfl) h.coherent, hW.now, hW.blocks, hW.body, hW.bytes,
    hW.rest, hW.gap, hW.padded, hW.dcache, hW.count⟩

variable {env : Env} (he : Healthy env) (hK : Names K) (h : Sound K m ∅ fs) (hp : K p)
  (hn : seen m fs p = some n) (ht : n.iFileType ≠ ftDir)
include he hK h hp hn ht

theorem Sound.writeInline (hb : n.iBlocks = 0) (hend : off.toNat + len.toNat ≤ inlineMax) :
    ∃ fs', icachePut env (xxh64 p) p (inlined n buf off len) fs = some ((), fs') ∧
      Sound K m ∅ fs' ∧ Wrote p n (inlined n buf off len) buf off len m fs fs' := by
  have h128 : inlineMax = 128 := rfl
  have hb' : (inlined n buf off len).iBlocks = 0 := hb
  have hbound : off.toNat + len.toNat < 2 ^ 63 := by omega
  have hsmall : n.iSize.toNat ≤ inlineMax := by
    rcases (h.owned.shape p n hn).file ht with ⟨-, hs⟩ | ⟨hpos, -⟩
    · exact hs
    · rw [hb] at hpos
      cases hpos
  have hshape : Shape fs.img.size (inlined n buf off len) := by
    refine ⟨fun hd ↦ (ht hd).elim, fun _ ↦ .inl ⟨hb, ?_⟩, fun hpos ↦ ?_, fun hpos ↦ ?_⟩
    · change (maxSize n.iSize (off + len.toUInt64)).toNat ≤ inlineMax
      rw [maxSize_toNat hbound]
      omega
    · change 0 < n.iBlocks.toNat at hpos
      rw [hb] at hpos
      cases hpos
    · change 0 < n.iBlocks.toNat at hpos
      rw [hb] at hpos
      cases hpos
  have hcoh : CoherentAt (some (inlined n buf off len, true)) (m p) := h.coherent_file hn ht rfl
  have hsub : extent (inlined n buf off len) ∪ ∅ ⊆ extentOf (seen m fs p) ∪ ∅ := by
    rw [extent_empty hb', Set.empty_union]
    exact Set.empty_subset _
  obtain ⟨c, t, hput, hcell, hs, -⟩ := h.cachePut he hK hp hcoh hsub (Set.disjoint_empty _) hshape
  have hunion (i : ℕ) : content fs.img (inlined n buf off len) i =
      if off.toNat ≤ i ∧ i < off.toNat + len.toNat ∧ i < 128 then buf (i - off.toNat)
      else content fs.img n i := by
    rw [content, if_pos hb', content, if_pos hb]
    exact arr_arrCopy n.iUnion off.toNat len.toNat buf i
  refine ⟨_, hput, hs, h.effect_ground {p} ∅ (fun _ _ ↦ rfl) (fun q hq ↦ ?_) rfl
    (.caches _ fs c _ t), ?_, .inl ⟨rfl, fun hb' ↦ (hb' hb).elim⟩, rfl, fun i hi ↦ (hunion _).trans ?_, fun i hi hout ↦ (hunion i).trans ?_,
    fun hpad i hi hio ↦ (hunion i).trans ?_, fun hpad i hi hir ↦ (hunion i).trans ?_, rfl, rfl⟩
  · rw [seen, seen, cur, cur, hcell, update_of_ne hq]
  · rw [seen, cur, hcell, update_self]
    rfl
  · rw [if_pos (by omega), Nat.add_sub_cancel_left]
  · rw [if_neg (by omega)]
  · rw [if_neg (by omega)]
    exact hpad i hi (by rw [room, if_pos hb]; omega)
  · change (maxSize n.iSize (off + len.toUInt64)).toNat ≤ i at hi
    rw [maxSize_toNat hbound] at hi
    rw [if_neg (by omega)]
    exact hpad i (by omega) (by rw [room, if_pos hb]; rwa [room, if_pos hb'] at hir)

theorem Sound.writeEnd {S : Set ℕ} {n₁ : Inode} {rc : Rc} (hr : Ready K m S n n₁ fs fs₁)
    (hbound : off.toNat + len.toNat < 2 ^ 63)
    (hroom : off.toNat + len.toNat ≤ n₁.iBlocks.toNat * 4096) (hlen : len ≠ 0)
    (hx : (do
      if ← osPwrite env buf len.toNat (n₁.iExtentOff + off) then
        icachePut env (xxh64 p) p { n₁ with iSize := maxSize n₁.iSize (off + len.toUInt64) }
        wreturn .ok
      else wreturn .eio : FsM Rc) fs₁ = some (rc, fs₂)) :
    rc = .ok ∧ ∃ n', Sound K m ∅ fs₂ ∧ Wrote p n n' buf off len m fs fs₂ := by
  obtain ⟨fs₃, fs₄, hwrite, hput, hs, hW⟩ :=
    h.writeReady he hK hp hn hbound ht hr hroom hlen
  rw [bind_apply, hwrite, Option.bind_some, if_pos rfl, bind_apply, hput, Option.bind_some] at hx
  obtain ⟨rfl, l, rfl⟩ := unlocked_cases hx
  exact ⟨rfl, _, (hs.relock l).sound, hW.relock h l⟩

end write

end Xxfs.Soundness

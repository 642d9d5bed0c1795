import Xxfs.IndexState
import Xxfs.Lib.Shares
import Xxfs.OperationFrames

namespace Xxfs.Soundness

open Function
open Xxfs.DiskFormat Xxfs.Machine Xxfs.Allocator Xxfs.PagedIndex Xxfs.PageStore Xxfs.InodeCache
open Xxfs.DirCache Xxfs.Volume Xxfs.Hash Xxfs.PathName Xxfs.IndexRep Xxfs.CacheMap Xxfs.IndexState
open Xxfs.OperationFrames Xxfs.Lib

/-- What the inode cache holds under each path, with the dirty flag. -/
abbrev Cells := Path → Option (Inode × Bool)

/-- What the index holds under each path. -/
abbrev Inodes := Path → Option Inode

/-- The inode an operation sees: the cached one, else the indexed one. -/
def cur (c : Cells) (m : Inodes) (p : Path) : Option Inode := ((c p).map Prod.fst).or (m p)

def kind (o : Inodes) (p : Path) : Option UInt16 := (o p).map Inode.iFileType

/-- A cached inode is of the type of the indexed one; it is the same inode if it is clean or a
directory. -/
def CoherentAt (x : Option (Inode × Bool)) (y : Option Inode) : Prop :=
  ∀ n d, x = some (n, d) → ∃ z, y = some z ∧ z.iFileType = n.iFileType ∧
    (n.iFileType = ftDir ∨ d = false → z = n)

section extents

def extent (n : Inode) : Set ℕ :=
  Set.Ico n.iExtentOff.toNat (n.iExtentOff.toNat + n.iBlocks.toNat * 4096)

def extentOf (o : Option Inode) : Set ℕ := { i | ∃ n, o = some n ∧ i ∈ extent n }

@[simp] theorem extentOf_none : extentOf none = ∅ := by simp [extentOf]

@[simp] theorem extentOf_some (n : Inode) : extentOf (some n) = extent n := by simp [extentOf]

theorem extent_empty {n : Inode} (h : n.iBlocks = 0) : extent n = ∅ := by
  rw [extent, h]
  simp

/-- Those who own bytes of the image besides the index. `hand` is the caller of the allocator
before it has stored what it got. -/
inductive Owner
  | super | table | hand
  | path (p : Path)

def share (o : Inodes) (table : UInt64) (S : Set ℕ) : Owner → Set ℕ
  | .super => Set.Iio 4096
  | .table => { i | InBlock table i }
  | .hand => S
  | .path p => extentOf (o p)

def claimed (o : Inodes) (table : UInt64) (S : Set ℕ) : Set ℕ := Shares.owned (share o table S)

/-- An empty directory without a block, or one block with at most 15 children. -/
def DirShape (n : Inode) : Prop :=
  n.iBlocks = 0 ∧ n.iExtentOff = 0 ∧ n.iSize = 0 ∨
  n.iBlocks = 1 ∧ ∃ k ≤ 15, n.iSize.toNat = dirChildSize * k

/-- Content in the inode, or in blocks that hold all of it. -/
def FileShape (n : Inode) : Prop :=
  n.iBlocks = 0 ∧ n.iSize.toNat ≤ inlineMax ∨
  0 < n.iBlocks.toNat ∧ n.iSize.toNat ≤ n.iBlocks.toNat * 4096

structure Shape (size : ℕ) (n : Inode) : Prop where
  dir : n.iFileType = ftDir → DirShape n
  file : n.iFileType ≠ ftDir → FileShape n
  filled : 0 < n.iBlocks.toNat → n.iExtentOff.toNat + n.iSize.toNat ≤ size
  aligned : 0 < n.iBlocks.toNat → n.iExtentOff.toNat % 4096 = 0

theorem Shape.mono {size size' : ℕ} {n : Inode} (h : Shape size n) (hs : size ≤ size') :
    Shape size' n :=
  ⟨h.dir, h.file, fun hb ↦ (h.filled hb).trans hs, h.aligned⟩

structure Owned (o : Inodes) (table : UInt64) (S : Set ℕ) (size : ℕ) : Prop where
  apart : Shares.Apart (share o table S)
  shape : ∀ p n, o p = some n → Shape size n

section owned

variable {o o' : Inodes} {table : UInt64} {S S' : Set ℕ} {size size' : ℕ} {p : Path}

theorem share_congr (h : ∀ p, extentOf (o' p) = extentOf (o p)) :
    share o' table S = share o table S := by
  funext x
  cases x with
  | super => rfl
  | table => rfl
  | hand => rfl
  | path p => exact h p

theorem share_exchange (ho : ∀ q, q ≠ p → o' q = o q) (i : Owner) (hi : i ≠ .path p)
    (hh : i ≠ .hand) : share o' table S' i ⊆ share o table S i := by
  cases i with
  | super => exact subset_rfl
  | table => exact subset_rfl
  | hand => exact (hh rfl).elim
  | path q =>
    have hq : q ≠ p := fun h ↦ hi (by rw [h])
    exact subset_of_eq (congrArg extentOf (ho q hq))

theorem claimed_exchange (ho : ∀ q, q ≠ p → o' q = o q)
    (hsub : extentOf (o' p) ∪ S' ⊆ extentOf (o p) ∪ S) :
    claimed o' table S' ⊆ claimed o table S :=
  Shares.owned_exchange (a := .path p) (b := .hand) hsub (share_exchange ho)

theorem Owned.exchange (h : Owned o table S size) (ho : ∀ q, q ≠ p → o' q = o q)
    (hsub : extentOf (o' p) ∪ S' ⊆ extentOf (o p) ∪ S) (hdis : Disjoint (extentOf (o' p)) S')
    (hshape : ∀ n, o' p = some n → Shape size' n) (hs : size ≤ size') :
    Owned o' table S' size' := by
  refine ⟨h.apart.exchange (a := .path p) (b := .hand) hsub hdis (share_exchange ho),
    fun q n hn ↦ ?_⟩
  by_cases hq : q = p
  · rw [hq] at hn
    exact hshape n hn
  · rw [ho q hq] at hn
    exact (h.shape q n hn).mono hs

theorem mem_claimed_path {n : Inode} (hn : o p = some n) {i : ℕ} (hi : i ∈ extent n) :
    i ∈ claimed o table S :=
  Shares.subset_owned (share o table S) (.path p) ⟨n, hn, hi⟩

end owned

end extents

/-- Every path is a child of a directory. -/
structure Tree (k : Path → Option UInt16) : Prop where
  root : k rootPath = some ftDir
  parent : ∀ p, p ≠ rootPath → k p ≠ none → k (getParentPath p) = some ftDir

/-- The children of a directory as its extent has them. -/
def diskChildren (img : Image) (n : Inode) : List DirChild :=
  if n.iSize = 0 ∨ n.iExtentOff = 0 then []
  else decodeChildren (fun i ↦ img.data (n.iExtentOff.toNat + i))
    (n.iSize.toNat / dirChildSize % 2 ^ 32)

/-- What the directory cache may hold. -/
structure Listings (K : Path → Prop) (m : Inodes) (img : Image) (dc : ℕ → DirCacheEntry) :
    Prop where
  named : ∀ i, (dc i).valid = true → K (dc i).path ∧ dcIndex (dc i).path = i
  few : ∀ i, (dc i).valid = true → (dc i).children.length ≤ 15
  typed : ∀ i n, (dc i).valid = true → m (dc i).path = some n → n.iFileType = ftDir
  clean : ∀ i n, (dc i).valid = true → (dc i).dirty = false → m (dc i).path = some n →
    (dc i).children = diskChildren img n

/-- The inodes that operations see. -/
abbrev seen (m : Inodes) (fs : Fs) : Inodes := cur (cell fs.icache) m

/-- The bytes that the index has to keep off. -/
abbrev ground (m : Inodes) (S : Set ℕ) (fs : Fs) : Set ℕ := claimed (seen m fs) fs.sb.sPdirOff S

theorem seen_congr {m : Inodes} {fs fs' : Fs} (hi : fs'.icache = fs.icache) :
    seen m fs' = seen m fs := by
  rw [seen, seen, hi]

theorem ground_congr {m : Inodes} {S : Set ℕ} {fs fs' : Fs} (hi : fs'.icache = fs.icache)
    (hp : fs'.sb.sPdirOff = fs.sb.sPdirOff) : ground m S fs' = ground m S fs := by
  rw [ground, ground, seen_congr hi, hp]

/-- The caches, the index and the image fit together. -/
structure Sound (K : Path → Prop) (m : Inodes) (S : Set ℕ) (fs : Fs) : Prop where
  settled : Settled K fs.icache
  backed : ∃ L, Backed K m (ground m S fs) fs L
  coherent : ∀ p, CoherentAt (cell fs.icache p) (m p)
  owned : Owned (seen m fs) fs.sb.sPdirOff S fs.img.size
  tree : Tree (kind m)
  listings : Listings K m fs.img fs.dcache
  magic : fs.sb.sMagic = xxfsMagic
  zero : ∀ i, front fs.sb ≤ i → fs.img.data i = 0

section coherent

variable {x : Option (Inode × Bool)} {y : Option Inode} {c : Cells} {m : Inodes} {p : Path}

theorem coherentAt_none (y : Option Inode) : CoherentAt none y := fun _ _ h ↦ by cases h

theorem coherentAt_same (n : Inode) (d : Bool) : CoherentAt (some (n, d)) (some n) := by
  rintro _ _ ⟨⟩
  exact ⟨n, rfl, rfl, fun _ ↦ rfl⟩

theorem cur_kind (h : CoherentAt (c p) (m p)) : kind (cur c m) p = kind m p := by
  rw [kind, kind, cur]
  cases hc : c p with
  | none => rfl
  | some x =>
    obtain ⟨z, hz, ht, -⟩ := h x.1 x.2 hc
    rw [hz]
    exact congrArg some ht.symm

theorem cur_dir (h : CoherentAt (c p) (m p)) {n : Inode} (hm : m p = some n)
    (hn : n.iFileType = ftDir) : cur c m p = some n := by
  rw [cur]
  cases hc : c p with
  | none => exact hm
  | some x =>
    obtain ⟨z, hz, ht, hsame⟩ := h x.1 x.2 hc
    obtain rfl : z = n := Option.some.inj (hz.symm.trans hm)
    exact congrArg some (hsame (.inl (ht ▸ hn))).symm

theorem kind_update {n : Inode} (hn : kind m p = some n.iFileType) :
    kind (update m p (some n)) = kind m := by
  funext q
  by_cases hq : q = p
  · rw [hq, hn, kind, update_self]
    rfl
  · rw [kind, kind, update_of_ne hq]

theorem cur_none (h : CoherentAt (c p) (m p)) : cur c m p = none ↔ m p = none := by
  have := cur_kind h
  rw [kind, kind] at this
  rw [← Option.map_eq_none_iff (f := Inode.iFileType), this, Option.map_eq_none_iff]

end coherent

theorem decodeChildren_congr {f g : ℕ → UInt8} {cnt k : ℕ} (hk : cnt ≤ k)
    (h : ∀ j < k * dirChildSize, f j = g j) : decodeChildren f cnt = decodeChildren g cnt := by
  refine List.map_congr_left fun j hj ↦ DirChild.decode_congr fun i hi ↦ h _ ?_
  have hj' := List.mem_range.mp hj
  have hle : (j + 1) * dirChildSize ≤ k * dirChildSize := Nat.mul_le_mul_right _ (by omega)
  rw [Nat.succ_mul] at hle
  omega

theorem diskChildren_congr {img img' : Image} {n : Inode} (hn : DirShape n)
    (h : ∀ i ∈ extent n, img'.data i = img.data i) : diskChildren img' n = diskChildren img n := by
  rcases hn with ⟨-, -, h0⟩ | ⟨hb, k, hk, hs⟩
  · rw [diskChildren, diskChildren, if_pos (.inl h0), if_pos (.inl h0)]
  · have h272 : dirChildSize = 272 := rfl
    have hcnt : n.iSize.toNat / dirChildSize % 2 ^ 32 ≤ k := by
      rw [hs, Nat.mul_div_cancel_left _ (by decide)]
      exact Nat.mod_le _ _
    have hlen : n.iBlocks.toNat = 1 := by rw [hb]; rfl
    have hbytes (j : ℕ) (hj : j < 15 * dirChildSize) :
        img'.data (n.iExtentOff.toNat + j) = img.data (n.iExtentOff.toNat + j) :=
      h _ ⟨by omega, by omega⟩
    rw [diskChildren, diskChildren]
    split
    · rfl
    · exact decodeChildren_congr (hcnt.trans hk) hbytes

section moves

variable {K : Path → Prop} {m m' : Inodes} {S S' : Set ℕ} {fs fs' : Fs} (h : Sound K m S fs)
include h

omit h in
theorem extent_subset {p : Path} {n : Inode} (hn : seen m fs p = some n) :
    extent n ⊆ ground m S fs :=
  fun _ hi ↦ mem_claimed_path hn hi

theorem Sound.listed_dir {i : ℕ} (hv : (fs.dcache i).valid = true) {n : Inode}
    (hn : m (fs.dcache i).path = some n) :
    seen m fs (fs.dcache i).path = some n ∧ DirShape n := by
  have ht := h.listings.typed i n hv hn
  have hcur := cur_dir (h.coherent _) hn ht
  exact ⟨hcur, (h.owned.shape _ n hcur).dir ht⟩

theorem Sound.listings_img {img : Image}
    (hdata : ∀ p n, m p = some n → n.iFileType = ftDir → ∀ i ∈ extent n,
      img.data i = fs.img.data i) : Listings K m img fs.dcache := by
  refine ⟨h.listings.named, h.listings.few, h.listings.typed, fun i n hv hd hn ↦ ?_⟩
  rw [h.listings.clean i n hv hd hn]
  exact (diskChildren_congr (h.listed_dir hv hn).2
    (hdata _ n hn (h.listings.typed i n hv hn))).symm

theorem Sound.kept {L : Chain}
    (hk : Kept (ground m S fs) fs fs')
    (hb : Backed K m (ground m S fs) fs' L) :
    Sound K m S fs' := by
  obtain ⟨n, -, hsb⟩ := hk.sb
  have hpd : fs'.sb.sPdirOff = fs.sb.sPdirOff := by rw [hsb]; rfl
  have hmg : fs'.sb.sMagic = fs.sb.sMagic := by rw [hsb]; rfl
  refine ⟨?_, ⟨L, ?_⟩, ?_, ?_, h.tree, ?_, hmg.trans h.magic,
    fun i hi ↦ (hk.free i hi).trans (h.zero i (hk.front_le.trans hi))⟩
  · rw [hk.only.icache]
    exact h.settled
  · rw [ground_congr hk.only.icache hpd]
    exact hb
  · rw [hk.only.icache]
    exact h.coherent
  · rw [seen_congr hk.only.icache, hpd]
    exact ⟨h.owned.apart, fun p x hx ↦ (h.owned.shape p x hx).mono hk.size⟩
  · rw [hk.only.dcache]
    refine h.listings_img fun p x hx ht i hi ↦ hk.data i ?_
    exact extent_subset (cur_dir (h.coherent p) hx ht) hi

/-- Everything about one path may change, within what it owns and what is at hand. -/
theorem Sound.change {p : Path} (hset : Settled K fs'.icache)
    (hc : ∀ q, q ≠ p → cell fs'.icache q = cell fs.icache q) (hm : ∀ q, q ≠ p → m' q = m q)
    (hpd : fs'.sb.sPdirOff = fs.sb.sPdirOff) (hmg : fs'.sb.sMagic = fs.sb.sMagic)
    (hb : ∃ L, Backed K m' (ground m S fs) fs' L)
    (hcoh : CoherentAt (cell fs'.icache p) (m' p))
    (hsub : extentOf (seen m' fs' p) ∪ S' ⊆ extentOf (seen m fs p) ∪ S)
    (hdis : Disjoint (extentOf (seen m' fs' p)) S')
    (hshape : ∀ n, seen m' fs' p = some n → Shape fs'.img.size n)
    (hsize : fs.img.size ≤ fs'.img.size) (htree : Tree (kind m'))
    (hlist : Listings K m' fs'.img fs'.dcache)
    (hzero : ∀ i, front fs'.sb ≤ i → fs'.img.data i = 0) : Sound K m' S' fs' := by
  have hcur (q : Path) (hq : q ≠ p) :
      seen m' fs' q = seen m fs q := by
    rw [seen, seen, cur, cur, hc q hq, hm q hq]
  obtain ⟨L, hb⟩ := hb
  refine ⟨hset, ⟨L, ?_⟩, fun q ↦ ?_, ?_, htree, hlist, hmg.trans h.magic, hzero⟩
  · rw [ground, hpd]
    exact hb.mono (claimed_exchange hcur hsub)
  · by_cases hq : q = p
    · rw [hq]
      exact hcoh
    · rw [hc q hq, hm q hq]
      exact h.coherent q
  · rw [hpd]
    exact h.owned.exchange hcur hsub hdis hshape hsize

theorem Sound.listings_change {p : Path} (hm : ∀ q, q ≠ p → m' q = m q) {img : Image}
    (hdata : ∀ q n, q ≠ p → m q = some n → n.iFileType = ftDir → ∀ i ∈ extent n,
      img.data i = fs.img.data i)
    (hp : ∀ i n, (fs.dcache i).valid = true → (fs.dcache i).path = p → m' p = some n →
      n.iFileType = ftDir ∧ ((fs.dcache i).dirty = false →
        (fs.dcache i).children = diskChildren img n)) : Listings K m' img fs.dcache := by
  refine ⟨h.listings.named, h.listings.few, fun i n hv hn ↦ ?_, fun i n hv hd hn ↦ ?_⟩
  · by_cases hq : (fs.dcache i).path = p
    · exact (hp i n hv hq (hq ▸ hn)).1
    · exact h.listings.typed i n hv (by rwa [hm _ hq] at hn)
  · by_cases hq : (fs.dcache i).path = p
    · exact (hp i n hv hq (hq ▸ hn)).2 hd
    · rw [hm _ hq] at hn
      rw [h.listings.clean i n hv hd hn]
      exact (diskChildren_congr (h.listed_dir hv hn).2
        (hdata _ n hq hn (h.listings.typed i n hv hn))).symm

end moves

/-- What the parts of an operation leave alone, besides the caches they work on. -/
structure Moves (F : Set ℕ) (fs fs' : Fs) : Prop where
  lock : fs'.lock = fs.lock
  flags : fs'.flags = fs.flags
  cowGen : fs'.cowGen = fs.cowGen
  sb : ∃ n, n ≤ fs.sb.sFreeBlocks ∧ fs'.sb = taken fs.sb n
  data : ∀ i ∈ F, fs'.img.data i = fs.img.data i
  free : ∀ i, front fs'.sb ≤ i → fs'.img.data i = fs.img.data i
  size : fs.img.size ≤ fs'.img.size

section frame

variable {F G : Set ℕ} {fs fs₁ fs₂ : Fs}

theorem Moves.refl (F : Set ℕ) (fs : Fs) : Moves F fs fs :=
  ⟨rfl, rfl, rfl, ⟨0, UInt64.zero_le, by rw [taken_zero]⟩, fun _ _ ↦ rfl, fun _ _ ↦ rfl, le_rfl⟩

theorem Moves.front_le (h : Moves F fs fs₁) : front fs.sb ≤ front fs₁.sb := by
  obtain ⟨n, hn, hsb⟩ := h.sb
  rw [hsb]
  exact front_le_taken hn

theorem Moves.trans (h : Moves F fs fs₁) (h' : Moves F fs₁ fs₂) : Moves F fs fs₂ := by
  have hfront := h'.front_le
  obtain ⟨n, hn, hsb⟩ := h.sb
  obtain ⟨k, hk, hsb'⟩ := h'.sb
  rw [hsb] at hk hsb'
  obtain ⟨hle, heq⟩ := taken_taken hn hk
  exact ⟨h'.lock.trans h.lock, h'.flags.trans h.flags, h'.cowGen.trans h.cowGen,
    ⟨n + k, hle, by rw [hsb', heq]⟩, fun i hi ↦ (h'.data i hi).trans (h.data i hi),
    fun i hi ↦ (h'.free i hi).trans (h.free i (hfront.trans hi)), h.size.trans h'.size⟩

theorem Moves.mono (h : Moves F fs fs₁) (hG : G ⊆ F) : Moves G fs fs₁ :=
  ⟨h.lock, h.flags, h.cowGen, h.sb, fun i hi ↦ h.data i (hG hi), h.free, h.size⟩

theorem Moves.of_kept (h : Kept F fs fs₁) : Moves F fs fs₁ :=
  ⟨h.only.lock, h.only.flags, h.only.cowGen, h.sb, h.data, h.free, h.size⟩

theorem Moves.caches (F : Set ℕ) (fs : Fs) (c : Icache) (d : ℕ → DirCacheEntry) (t : ℕ) :
    Moves F fs { fs with icache := c, dcache := d, clock := t } :=
  ⟨rfl, rfl, rfl, ⟨0, UInt64.zero_le, by rw [taken_zero]⟩, fun _ _ ↦ rfl, fun _ _ ↦ rfl, le_rfl⟩

theorem Moves.zero {K : Path → Prop} {m : Inodes} {S : Set ℕ} (hM : Moves F fs fs₁)
    (h : Sound K m S fs) (i : ℕ) (hi : front fs₁.sb ≤ i) : fs₁.img.data i = 0 :=
  (hM.free i hi).trans (h.zero i (hM.front_le.trans hi))

theorem Moves.pdirOff (h : Moves F fs fs₁) : fs₁.sb.sPdirOff = fs.sb.sPdirOff := by
  obtain ⟨n, -, hsb⟩ := h.sb
  rw [hsb]
  rfl

theorem Moves.magic (h : Moves F fs fs₁) : fs₁.sb.sMagic = fs.sb.sMagic := by
  obtain ⟨n, -, hsb⟩ := h.sb
  rw [hsb]
  rfl

theorem Moves.inodes (h : Moves F fs fs₁) : fs₁.sb.sInodesCount = fs.sb.sInodesCount := by
  obtain ⟨n, -, hsb⟩ := h.sb
  rw [hsb]
  rfl

end frame

end Xxfs.Soundness

import Xxfs.PagedIndex

namespace Xxfs.DirDoubling

open Xxfs.DiskFormat Xxfs.Machine Xxfs.PagedIndex
open Xxfs.Lib.Computation Xxfs.Lib.Computation.Comp

/-- `struct paged_dir` with its array and the size that the code keeps beside it. -/
structure DirArray where
  pageOff : List UInt64
  dirSize : UInt32
  globalDepth : UInt8

namespace DirArray

/-- One round of the copying loop; the index is a `u32`. -/
def copyEntry (d : DirArray) (newOff : List UInt64) (i : UInt32) : List UInt64 :=
  let off := d.pageOff.getD i.toNat 0
  (newOff.set i.toNat off).set (i + d.dirSize).toNat off

def copied (d : DirArray) (n : ℕ) : List UInt64 :=
  (List.range n).foldl (fun newOff i ↦ d.copyEntry newOff (UInt32.ofNat i))
    (List.replicate (d.dirSize * 2).toNat 0)

/-- `paged_dir_double`, with the outcome of its allocation. -/
def pagedDirDouble (ok : Bool) (d : DirArray) : Rc × DirArray :=
  if ok then (.ok, ⟨d.copied d.dirSize.toNat, d.dirSize * 2, d.globalDepth + 1⟩) else (.enomem, d)

/-- The page offset found for a hash, if the index is inside the array. -/
def pageFor (d : DirArray) (h : UInt64) : Option UInt64 := d.pageOff[dirIndex h d.globalDepth]?

/-- The directory has `2 ^ global_depth` slots. -/
structure Sized (d : DirArray) : Prop where
  array : d.pageOff.length = d.dirSize.toNat
  size : d.dirSize.toNat = 2 ^ d.globalDepth.toNat

/-- Successive calls, each below depth 31. -/
inductive Doubled (d : DirArray) : DirArray → Prop
  | none : Doubled d d
  | call {d' : DirArray} (ok : Bool) : Doubled d d' → d'.globalDepth.toNat < 31 →
    Doubled d (d'.pagedDirDouble ok).2

end DirArray

section hashes

variable (h : UInt64)

theorem dirIndex_eq {depth : UInt8} (hd : depth.toNat ≤ 32) :
    dirIndex h depth = h.toNat % 2 ^ depth.toNat := by
  unfold dirIndex
  split
  · rename_i h0
    subst h0
    exact (Nat.mod_one _).symm
  · have hshift : ((1 : UInt64) <<< depth.toUInt64).toNat = 2 ^ depth.toNat := by
      rw [UInt64.toNat_shiftLeft]
      have h64 : depth.toUInt64.toNat = depth.toNat := by simp
      have hlt : (2 : ℕ) ^ depth.toNat < 2 ^ 64 := Nat.pow_lt_pow_right (by omega) (by omega)
      have hmod : depth.toNat % 64 = depth.toNat := Nat.mod_eq_of_lt (by omega)
      rw [h64, hmod, UInt64.toNat_one, Nat.one_shiftLeft, Nat.mod_eq_of_lt hlt]
    have hmask : ((1 : UInt64) <<< depth.toUInt64 - 1).toNat = 2 ^ depth.toNat - 1 := by
      have hpos : 0 < 2 ^ depth.toNat := Nat.two_pow_pos _
      rw [UInt64.toNat_sub_of_le _ _ (UInt64.le_iff_toNat_le.mpr ?_), hshift]
      · rfl
      · rw [hshift]
        exact hpos
    have hsmall : h.toNat % 2 ^ depth.toNat < 2 ^ 32 :=
      (Nat.mod_lt _ (Nat.two_pow_pos _)).trans_le (Nat.pow_le_pow_right (by omega) (by omega))
    rw [UInt64.toNat_toUInt32, UInt64.toNat_and, hmask, Nat.and_two_pow_sub_one_eq_mod,
      Nat.mod_eq_of_lt hsmall]

theorem getElem?_doubled {l : List UInt64} {g : ℕ} (hl : l.length = 2 ^ g) :
    (l ++ l)[h.toNat % 2 ^ (g + 1)]? = l[h.toNat % 2 ^ g]? := by
  have hpos : 0 < 2 ^ g := Nat.two_pow_pos _
  have hmod : h.toNat % 2 ^ (g + 1) % 2 ^ g = h.toNat % 2 ^ g :=
    Nat.mod_mod_of_dvd _ (Nat.pow_dvd_pow 2 (by omega))
  have hlt : h.toNat % 2 ^ (g + 1) < 2 * 2 ^ g := by
    rw [← Nat.pow_succ']
    exact Nat.mod_lt _ (Nat.two_pow_pos _)
  generalize h.toNat % 2 ^ (g + 1) = i at hmod hlt ⊢
  rcases Nat.lt_or_ge i (2 ^ g) with hi | hi
  · rw [Nat.mod_eq_of_lt hi] at hmod
    rw [List.getElem?_append_left (by omega), hmod]
  · rw [List.getElem?_append_right (by omega), hl, ← hmod]
    congr 1
    rw [Nat.mod_eq_sub_mod hi, Nat.mod_eq_of_lt (by omega)]

end hashes

section copy

variable {d : DirArray} (hd : d.Sized) (hg : d.globalDepth.toNat < 31)
include hd hg

theorem DirArray.Sized.size_le : d.dirSize.toNat ≤ 2 ^ 30 := by
  rw [hd.size]
  exact Nat.pow_le_pow_right (by omega) (by omega)

theorem DirArray.Sized.newSize : (d.dirSize * 2).toNat = 2 * d.dirSize.toNat := by
  have hle := hd.size_le hg
  have h2 : (2 : UInt32).toNat = 2 := rfl
  rw [UInt32.toNat_mul, h2, Nat.mod_eq_of_lt (by omega), Nat.mul_comm]

/-- After `n` rounds both halves hold the first `n` entries. -/
theorem DirArray.Sized.copied_get (n : ℕ) (hn : n ≤ d.dirSize.toNat) :
    (d.copied n).length = 2 * d.dirSize.toNat ∧ ∀ j < d.dirSize.toNat,
      (d.copied n)[j]? = some (if j < n then d.pageOff.getD j 0 else 0) ∧
      (d.copied n)[j + d.dirSize.toNat]? = some (if j < n then d.pageOff.getD j 0 else 0) := by
  have hnew := hd.newSize hg
  induction n with
  | zero =>
    have hzero (i : ℕ) (hi : i < (d.dirSize * 2).toNat) : (d.copied 0)[i]? = some 0 :=
      List.getElem?_replicate_of_lt hi
    refine ⟨List.length_replicate.trans hnew, fun j hj ↦ ⟨?_, ?_⟩⟩
    · rw [hzero j (by omega), if_neg (Nat.not_lt_zero j)]
    · rw [hzero _ (by omega), if_neg (Nat.not_lt_zero j)]
  | succ n ih =>
    obtain ⟨hlen, hget⟩ := ih (by omega)
    have hle := hd.size_le hg
    have hi : (UInt32.ofNat n).toNat = n := UInt32.toNat_ofNat_of_lt' (show n < 2 ^ 32 by omega)
    have hsum : (UInt32.ofNat n + d.dirSize).toNat = n + d.dirSize.toNat := by
      rw [UInt32.toNat_add, hi]
      exact Nat.mod_eq_of_lt (by omega)
    have hround : d.copied (n + 1) = ((d.copied n).set n (d.pageOff.getD n 0)).set
        (n + d.dirSize.toNat) (d.pageOff.getD n 0) := by
      rw [copied, List.range_succ, List.foldl_append, List.foldl_cons, List.foldl_nil, ← copied,
        copyEntry, hi, hsum]
    refine ⟨by rw [hround, List.length_set, List.length_set, hlen], fun j hj ↦ ?_⟩
    obtain ⟨hlow, hhigh⟩ := hget j hj
    rw [hround, List.getElem?_set_ne (by omega)]
    by_cases hjn : j = n
    · subst hjn
      rw [if_pos (Nat.lt_succ_self j), List.getElem?_set_self (by omega),
        List.getElem?_set_self (by rw [List.length_set]; omega)]
      exact ⟨rfl, rfl⟩
    · rw [List.getElem?_set_ne (by omega), List.getElem?_set_ne (by omega),
        List.getElem?_set_ne (by omega), hlow, hhigh]
      have hiff : j < n + 1 ↔ j < n := by omega
      simp only [hiff, and_self]

theorem DirArray.Sized.copied_eq : d.copied d.dirSize.toNat = d.pageOff ++ d.pageOff := by
  obtain ⟨hlen, hget⟩ := hd.copied_get hg _ le_rfl
  have harray := hd.array
  have hentry (j : ℕ) (hj : j < d.dirSize.toNat) : some (d.pageOff.getD j 0) = d.pageOff[j]? := by
    rw [List.getD_eq_getElem?_getD, List.getElem?_eq_getElem (by omega), Option.getD_some]
  refine List.ext_getElem? fun i ↦ ?_
  rcases Nat.lt_or_ge i d.dirSize.toNat with hi | hi
  · rw [(hget i hi).1, if_pos hi, hentry i hi, List.getElem?_append_left (by omega)]
  rw [List.getElem?_append_right (by omega), harray]
  rcases Nat.lt_or_ge i (2 * d.dirSize.toNat) with hi' | hi'
  · have hsub : i - d.dirSize.toNat < d.dirSize.toNat := by omega
    have hcopy := (hget _ hsub).2
    rw [Nat.sub_add_cancel hi, if_pos hsub, hentry _ hsub] at hcopy
    exact hcopy
  · rw [List.getElem?_eq_none (by omega), List.getElem?_eq_none (by omega)]

theorem DirArray.Sized.double (ok : Bool) : (d.pagedDirDouble ok).2.Sized := by
  cases ok with
  | false => exact hd
  | true =>
    have h1 : (1 : UInt8).toNat = 1 := rfl
    refine ⟨?_, ?_⟩
    · change (d.copied d.dirSize.toNat).length = (d.dirSize * 2).toNat
      rw [hd.newSize hg, (hd.copied_get hg _ le_rfl).1]
    · change (d.dirSize * 2).toNat = 2 ^ (d.globalDepth + 1).toNat
      rw [hd.newSize hg, hd.size, UInt8.toNat_add, h1, Nat.mod_eq_of_lt (by omega), Nat.pow_succ']

theorem DirArray.Sized.pageFor_double (ok : Bool) (h : UInt64) :
    (d.pagedDirDouble ok).2.pageFor h = d.pageFor h := by
  cases ok with
  | false => rfl
  | true =>
    have h1 : (1 : UInt8).toNat = 1 := rfl
    have hdepth : (d.globalDepth + 1).toNat = d.globalDepth.toNat + 1 := by
      rw [UInt8.toNat_add, h1, Nat.mod_eq_of_lt (by omega)]
    change (d.copied d.dirSize.toNat)[dirIndex h (d.globalDepth + 1)]? = _
    rw [hd.copied_eq hg, dirIndex_eq h (by omega), hdepth,
      getElem?_doubled h (hd.array.trans hd.size), pageFor, dirIndex_eq h (by omega)]

end copy

namespace DirArray

variable {d d' : DirArray}

theorem Sized.pageFor_some (hd : d.Sized) (hg : d.globalDepth.toNat < 32) (h : UInt64) :
    ∃ off, d.pageFor h = some off := by
  have hlt : dirIndex h d.globalDepth < d.pageOff.length := by
    rw [dirIndex_eq h (by omega), hd.array, hd.size]
    exact Nat.mod_lt _ (Nat.two_pow_pos _)
  exact ⟨_, List.getElem?_eq_getElem hlt⟩

/-- However often the directory is doubled, every hash is led to the page it was led to before. -/
theorem doubling_invisible (hd : d.Sized) (hg : d.globalDepth.toNat < 31) (hr : Doubled d d') :
    d'.Sized ∧ (∀ h, ∃ off, d.pageFor h = some off ∧ d'.pageFor h = some off) ∧
      d'.pagedDirDouble false = (.enomem, d') := by
  suffices hall : d'.Sized ∧ ∀ h, d'.pageFor h = d.pageFor h by
    refine ⟨hall.1, fun h ↦ ?_, rfl⟩
    obtain ⟨off, hoff⟩ := hd.pageFor_some (by omega) h
    exact ⟨off, hoff, (hall.2 h).trans hoff⟩
  induction hr with
  | none => exact ⟨hd, fun _ ↦ rfl⟩
  | call ok _ hg' ih =>
    obtain ⟨hd', hsame⟩ := ih
    exact ⟨hd'.double hg' ok, fun h ↦ (hd'.pageFor_double hg' ok h).trans (hsame h)⟩

def twoPages : DirArray := ⟨[4096, 8192], 2, 1⟩

def twoPagesDoubled : DirArray :=
  (((twoPages.pagedDirDouble true).2.pagedDirDouble false).2.pagedDirDouble true).2

theorem doubling_invisible_twice : twoPagesDoubled.Sized ∧
    (∀ h, ∃ off, twoPages.pageFor h = some off ∧ twoPagesDoubled.pageFor h = some off) ∧
      twoPagesDoubled.pagedDirDouble false = (.enomem, twoPagesDoubled) :=
  doubling_invisible ⟨rfl, rfl⟩ (by decide)
    (.call true (.call false (.call true .none (by decide)) (by decide)) (by decide))

end DirArray

section code

/-- The directory of a mount, with its size in the code's type. -/
def dirArray (d : PagedDir) : DirArray := ⟨d.pageOff, UInt32.ofNat d.pageOff.length, d.globalDepth⟩

theorem pagedDirDouble_eq (env : Env) {fs : Fs} (hd : (dirArray fs.pdir).Sized)
    (hg : fs.pdir.globalDepth.toNat < 31) :
    ∃ ok d, PagedIndex.pagedDirDouble env fs = some (ok, { fs with pdir := d, clock := fs.clock + 1 }) ∧
      dirArray d = ((dirArray fs.pdir).pagedDirDouble ok).2 := by
  have halloc : osAlloc env fs = some (env.mem fs.clock, { fs with clock := fs.clock + 1 }) := rfl
  cases hm : env.mem fs.clock with
  | false =>
    refine ⟨false, fs.pdir, ?_, rfl⟩
    rw [PagedIndex.pagedDirDouble, bind_apply, halloc, Option.bind_some, hm]
    rfl
  | true =>
    refine ⟨true, ⟨fs.pdir.pageOff ++ fs.pdir.pageOff, fs.pdir.globalDepth + 1⟩, ?_, ?_⟩
    · rw [PagedIndex.pagedDirDouble, bind_apply, halloc, Option.bind_some, hm]
      rfl
    · have hcopy := hd.copied_eq hg
      have hsize : UInt32.ofNat (fs.pdir.pageOff ++ fs.pdir.pageOff).length =
          (dirArray fs.pdir).dirSize * 2 := by
        refine UInt32.toNat_inj.mp ?_
        have hle := hd.size_le hg
        have harray : fs.pdir.pageOff.length = (dirArray fs.pdir).dirSize.toNat := hd.array
        have hlt : (fs.pdir.pageOff ++ fs.pdir.pageOff).length < 2 ^ 32 := by
          rw [List.length_append]
          omega
        rw [hd.newSize hg, UInt32.toNat_ofNat_of_lt' hlt, List.length_append]
        omega
      change DirArray.mk _ _ _ = DirArray.mk _ _ _
      rw [hcopy, hsize]
      rfl

end code

end Xxfs.DirDoubling

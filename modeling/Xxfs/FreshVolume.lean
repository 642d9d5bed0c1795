import Xxfs.AllocatorSpec
import Xxfs.Seal
import Xxfs.Volume

namespace Xxfs.FreshVolume

open Xxfs.DiskFormat Xxfs.Machine Xxfs.Allocator Xxfs.PageCache Xxfs.PagedIndex Xxfs.Checksum
open Xxfs.InodeCache Xxfs.Volume Xxfs.Hash Xxfs.Lib.LittleEndian
open Xxfs.Lib.Computation Xxfs.Lib.Computation.Comp

section rounding

theorem and_high_bits {y : ℕ} (hy : y < 2 ^ 64) : y &&& (2 ^ 64 - 4096) = y / 4096 * 4096 := by
  have hmask : 2 ^ 64 - 4096 = (2 ^ 52 - 1) <<< 12 := by decide
  have hround : y / 4096 * 4096 = (y >>> 12) <<< 12 := by
    rw [Nat.shiftLeft_eq, Nat.shiftRight_eq_div_pow]
  rw [hmask, hround]
  apply Nat.eq_of_testBit_eq
  intro i
  simp only [Nat.testBit_and, Nat.testBit_shiftLeft, Nat.testBit_two_pow_sub_one,
    Nat.testBit_shiftRight]
  by_cases h : 12 ≤ i
  · by_cases h' : i - 12 < 52
    · simp [h, h']
    · have hle : 2 ^ 64 ≤ 2 ^ i := Nat.pow_le_pow_right (by decide) (by omega)
      have hbit : y.testBit i = false := Nat.testBit_lt_two_pow (hy.trans_le hle)
      simp [h, h', hbit]
  · simp [h]

theorem roundUp_toNat {x : UInt64} (h : x.toNat + 4095 < 2 ^ 64) :
    (roundUp x).toNat = (x.toNat + 4095) / 4096 * 4096 := by
  have hadd : (x + 4095).toNat = x.toNat + 4095 := by
    rw [UInt64.toNat_add]
    exact Nat.mod_eq_of_lt h
  rw [roundUp, UInt64.toNat_and, hadd]
  exact and_high_bits h

end rounding

/-- Where `xxfs_mkfs` puts the root record, and the blocks it counts from. -/
def dataStart (blocks : UInt64) : UInt64 := (mkfsSuper blocks 0).sDataOff

section dataStart

variable (blocks : UInt64)

theorem mkfsSuper_bgCount (now : UInt64) :
    (mkfsSuper blocks now).sBgCount = ((blocks + 8191) / 8192).toUInt32 := by
  have hround : blocks + 8192 - 1 = blocks + 8191 := by grind
  rw [← hround]
  rfl

theorem dataStart_toNat : (dataStart blocks).toNat =
    12587008 + (((blocks + 8191) / 8192).toUInt32.toNat * 64 + 4095) / 4096 * 4096 := by
  have hbg := ((blocks + 8191) / 8192).toUInt32.toNat_lt
  change (12587008 + ((mkfsSuper blocks 0).sBgCount.toUInt64 * 64 + 4095) / 4096 * 4096
    : UInt64).toNat = _
  rw [mkfsSuper_bgCount]
  generalize ((blocks + 8191) / 8192).toUInt32 = bg at hbg ⊢
  have hmul : (bg.toUInt64 * 64).toNat = bg.toNat * 64 := by
    rw [UInt64.toNat_mul, UInt32.toNat_toUInt64]
    exact Nat.mod_eq_of_lt (by change bg.toNat * 64 < 2 ^ 64; omega)
  have hadd : (bg.toUInt64 * 64 + 4095).toNat = bg.toNat * 64 + 4095 := by
    rw [UInt64.toNat_add, hmul]
    exact Nat.mod_eq_of_lt (by change bg.toNat * 64 + 4095 < 2 ^ 64; omega)
  have hdiv : ((bg.toUInt64 * 64 + 4095) / 4096 * 4096).toNat =
      (bg.toNat * 64 + 4095) / 4096 * 4096 := by
    rw [UInt64.toNat_mul, UInt64.toNat_div, hadd]
    exact Nat.mod_eq_of_lt (by change (bg.toNat * 64 + 4095) / 4096 * 4096 < 2 ^ 64; omega)
  rw [UInt64.toNat_add, hdiv]
  exact Nat.mod_eq_of_lt
    (by change 12587008 + (bg.toNat * 64 + 4095) / 4096 * 4096 < 2 ^ 64; omega)

theorem dataStart_bounds : 12587008 ≤ (dataStart blocks).toNat ∧ (dataStart blocks).toNat < 2 ^ 39 ∧
    (dataStart blocks).toNat % 4096 = 0 := by
  have hbg := ((blocks + 8191) / 8192).toUInt32.toNat_lt
  rw [dataStart_toNat]
  omega

theorem dataStart_add (k : UInt64) (hk : k.toNat < 2 ^ 32) :
    (dataStart blocks + k).toNat = (dataStart blocks).toNat + k.toNat := by
  have h := dataStart_bounds blocks
  rw [UInt64.toNat_add]
  omega

/-- The first page of the index has an offset that the directory can name. -/
theorem firstPage_used : dataStart blocks + 4096 ≠ 0 ∧ dataStart blocks + 4096 ≠ 0xFFFFFFFFFFFFFFFF := by
  have hd := dataStart_bounds blocks
  have hadd : (dataStart blocks + 4096).toNat = (dataStart blocks).toNat + 4096 :=
    dataStart_add blocks 4096 (by decide)
  constructor
  · intro h
    have h0 : (dataStart blocks + 4096).toNat = 0 := congrArg UInt64.toNat h
    omega
  · intro h
    have hmax : (dataStart blocks + 4096).toNat = 0xFFFFFFFFFFFFFFFF := congrArg UInt64.toNat h
    omega

theorem mkfs_pdirOff : roundUp (dataStart blocks + 4096 + 4096) = dataStart blocks + 8192 := by
  have hb := dataStart_bounds blocks
  have hsum : dataStart blocks + 4096 + 4096 = dataStart blocks + 8192 := by grind
  have h := dataStart_add blocks 8192 (by decide)
  have h8192 : UInt64.toNat 8192 = 8192 := rfl
  rw [hsum]
  apply UInt64.toNat_inj.mp
  rw [roundUp_toNat (by omega), h, h8192]
  omega

theorem mkfs_used : ((dataStart blocks + 8192 + 4096 - dataStart blocks) / 4096).toUInt32.toUInt64
    = 3 := by
  have h : dataStart blocks + 8192 + 4096 - dataStart blocks = 12288 := by grind
  rw [h]
  rfl

end dataStart

def freshSuper (blocks now : UInt64) : Super := superSetChecksum
  { superSetChecksum (mkfsSuper blocks now) with
    sPdirOff := dataStart blocks + 8192
    sPdirSize := 1
    sPdirDepth := 0
    sFreeBlocks := blocks - 3 - 4 }

/-- What `xxfs_mkfs` writes, byte by byte. -/
structure Formatted (img : Image) (blocks now : UInt64) : Prop where
  super : ∀ i < 4096, img.data i = (freshSuper blocks now).encode i
  record : ∀ i < 569, img.data ((dataStart blocks).toNat + i) =
    recordBytes rootPath (inodeToVal (rootInode now)) i
  page : ∀ i < 4096, img.data ((dataStart blocks).toNat + 4096 + i) =
    (rootPage (dataStart blocks)).encode i
  dir : ∀ i < 8, img.data ((dataStart blocks).toNat + 8192 + i) =
    encodeDir [dataStart blocks + 4096] i
  size : (dataStart blocks).toNat + 8200 ≤ img.size

/-- The image file of a fresh file system, which was empty before. -/
structure FreshImage (img : Image) (blocks now : UInt64) : Prop extends
    Formatted img blocks now where
  zero : ∀ i, (dataStart blocks).toNat + 8200 ≤ i → img.data i = 0

theorem superSetChecksum_eq (s : Super) : ∃ c, c = crc32c s.encode superCrcOff ∧
    superSetChecksum s = Super.reseal s c s.sEcc :=
  ⟨_, rfl, rfl⟩

theorem superSetChecksum_dataOff (blocks now : UInt64) :
    (superSetChecksum (mkfsSuper blocks now)).sDataOff = dataStart blocks := by
  obtain ⟨c, -, hc⟩ := superSetChecksum_eq (mkfsSuper blocks now)
  rw [hc, reseal_sDataOff]
  rfl

/-- The image after the writes of `xxfs_mkfs`, in their order. -/
def mkfsImage (img : Image) (blocks now : UInt64) : Image :=
  let start := (dataStart blocks).toNat
  let img := img.write (superSetChecksum (mkfsSuper blocks now)).encode blockSize 0
  let img := img.write (layout [u32 1, u32 560]) 8 start
  let img := img.write (bytesAt rootPath) 1 (start + 8)
  let img := img.write (rootInode now).encode inodeSize (start + 9)
  let img := img.write (rootPage (dataStart blocks)).encode pageSize (start + 4096)
  let img := img.write (encodeDir [dataStart blocks + 4096]) 8 (start + 8192)
  img.write (freshSuper blocks now).encode blockSize 0

theorem formatted_mkfsImage (img : Image) (blocks now : UInt64) :
    Formatted (mkfsImage img blocks now) blocks now := by
  have hb := dataStart_bounds blocks
  have hw : inodeSize = 560 := rfl
  have hp : pageSize = 4096 := rfl
  have hbs : blockSize = 4096 := rfl
  have hlen : (inodeToVal (rootInode now)).length = 560 := toList_length _ _
  have hsub (k j : ℕ) : (dataStart blocks).toNat + (k + j) - ((dataStart blocks).toNat + k) = j := by
    omega
  constructor
  · intro i hi
    rw [mkfsImage, Image.write_in _ _ (Nat.zero_le i) (by omega), Nat.sub_zero]
  · intro i hi
    rw [mkfsImage, Image.write_out _ _ (by omega), Image.write_out _ _ (by omega),
      Image.write_out _ _ (by omega)]
    rcases Nat.lt_or_ge i 9 with h | h
    · rw [Image.write_out _ _ (by omega)]
      rcases Nat.lt_or_ge i 8 with h' | h'
      · rw [Image.write_out _ _ (by omega), Image.write_in _ _ (by omega) (by omega),
          Nat.add_sub_cancel_left, recordBytes, hlen]
        exact layout_prefix [u32 1, u32 560] [] _ h'
      · obtain rfl : i = 8 + 0 := by omega
        rw [Image.write_in _ _ (by omega) (by omega), recordBytes_key _ _ (by decide), hsub 8]
    · obtain ⟨j, rfl⟩ : ∃ j, i = 8 + rootPath.length + j := ⟨i - 9, by simp [rootPath]; omega⟩
      have hj : j < 560 := by simp only [rootPath, List.length_singleton] at hi; omega
      rw [Image.write_in _ _ (by simp only [rootPath, List.length_singleton]; omega)
        (by simp only [rootPath, List.length_singleton]; omega),
        recordBytes_val _ _ (by rwa [inodeToVal, toList_length]), inodeToVal,
        bytesAt_toList _ (by rwa [hw])]
      exact congrArg _ (hsub 9 j)
  · intro i hi
    rw [mkfsImage, Image.write_out _ _ (by omega), Image.write_out _ _ (by omega),
      Image.write_in _ _ (by omega) (by omega), Nat.add_sub_cancel_left]
  · intro i hi
    rw [mkfsImage, Image.write_out _ _ (by omega), Image.write_in _ _ (by omega) (by omega),
      Nat.add_sub_cancel_left]
  · simp only [mkfsImage, Image.write, hw, hp, hbs]
    norm_num

theorem freshImage_mkfsImage (img : Image) (hz : ∀ i, img.data i = 0) (blocks now : UInt64) :
    FreshImage (mkfsImage img blocks now) blocks now := by
  have hb := dataStart_bounds blocks
  have hw : inodeSize = 560 := rfl
  have hp : pageSize = 4096 := rfl
  have hbs : blockSize = 4096 := rfl
  refine ⟨formatted_mkfsImage img blocks now, fun i hi ↦ ?_⟩
  rw [mkfsImage, Image.write_out _ _ (by omega), Image.write_out _ _ (by omega),
    Image.write_out _ _ (by omega), Image.write_out _ _ (by omega),
    Image.write_out _ _ (by omega), Image.write_out _ _ (by omega),
    Image.write_out _ _ (by omega), hz]

theorem mkfsImage_size {img : Image} {blocks now : UInt64}
    (h : (dataStart blocks).toNat + 8200 ≤ img.size) :
    (mkfsImage img blocks now).size = img.size := by
  have hb := dataStart_bounds blocks
  have hw : inodeSize = 560 := rfl
  have hp : pageSize = 4096 := rfl
  have hbs : blockSize = 4096 := rfl
  simp only [mkfsImage, Image.write, hw, hp, hbs, OfNat.ofNat_ne_zero, one_ne_zero, ↓reduceIte]
  omega

/-- The fields of the fresh superblock that the code reads later. -/
structure FreshSuper (sb : Super) (blocks : UInt64) : Prop where
  magic : sb.sMagic = xxfsMagic
  cowGen : sb.sCowGeneration = 1
  blockCount : sb.sBlockCount = blocks
  free : sb.sFreeBlocks = blocks - 3 - 4
  dataOff : sb.sDataOff = dataStart blocks
  pdirOff : sb.sPdirOff = dataStart blocks + 8192
  pdirSize : sb.sPdirSize = 1
  pdirDepth : sb.sPdirDepth = 0
  inodes : sb.sInodesCount = 1
  sealed : crc32c sb.encode superCrcOff = sb.sChecksum

theorem freshSuper_fields (blocks now : UInt64) : FreshSuper (freshSuper blocks now) blocks := by
  obtain ⟨c, -, hc⟩ := superSetChecksum_eq (mkfsSuper blocks now)
  rw [freshSuper, hc]
  generalize hs : ({ Super.reseal (mkfsSuper blocks now) c (mkfsSuper blocks now).sEcc with
    sPdirOff := dataStart blocks + 8192
    sPdirSize := 1
    sPdirDepth := 0
    sFreeBlocks := blocks - 3 - 4 } : Super) = s
  obtain ⟨c', hcrc, hc'⟩ := superSetChecksum_eq s
  rw [hc']
  refine ⟨?_, ?_, ?_, ?_, ?_, ?_, ?_, ?_, ?_, (crc_reseal s c' _).trans hcrc.symm⟩ <;>
    · rw [← hs]
      rfl

theorem decodeDir_encode {f : ℕ → UInt8} {x : UInt64} (h : ∀ i < 8, f i = encodeDir [x] i) :
    decodeDir f 1 = [x] := by
  have hx : getU64 f 0 = x := by
    have hLE : getLE f 8 0 = getLE (leByte x.toNat) 8 0 := by
      apply getLE_congr
      intro j hj
      rw [Nat.zero_add, h j hj, encodeDir, Nat.div_eq_of_lt hj, Nat.mod_eq_of_lt hj]
      rfl
    rw [getU64, hLE]
    exact getU64_leByte x
  simp [decodeDir, hx]

variable {env : Env} (he : Healthy env)
include he

theorem mkfsWrite_apply (blocks : UInt64) (fs : Fs) : mkfsWrite env blocks fs =
    some (.ok, { fs with
      img := mkfsImage fs.img blocks (env.time fs.clock), clock := fs.clock + 9 }) := by
  have hb := dataStart_bounds blocks
  have h8 := dataStart_add blocks 8 (by decide)
  have h9 := dataStart_add blocks 9 (by decide)
  have h4096 := dataStart_add blocks 4096 (by decide)
  have h8192 := dataStart_add blocks 8192 (by decide)
  have e8 : UInt64.toNat 8 = 8 := rfl
  have e9 : UInt64.toNat 9 = 9 := rfl
  have e4096 : UInt64.toNat 4096 = 4096 := rfl
  have e8192 : UInt64.toNat 8192 = 8192 := rfl
  have e0 : UInt64.toNat 0 = 0 := rfl
  simp only [mkfsWrite, bind_apply, osTime_apply, Option.bind_some, superSetChecksum_dataOff,
    mkfs_pdirOff, mkfs_used]
  rw [he.osPwrite_apply _ _ _ (by decide)]
  simp only [Option.bind_some, ↓reduceIte, bind_apply, discard_apply]
  rw [he.osPwrite_apply _ _ _ (by omega)]
  simp only [Option.bind_some]
  rw [he.osPwrite_apply _ _ _ (by omega)]
  simp only [Option.bind_some]
  rw [he.osPwrite_apply _ _ _ (by omega)]
  simp only [Option.bind_some]
  rw [he.osPwrite_apply _ _ _ (by omega)]
  simp only [Option.bind_some]
  rw [he.osPwrite_apply _ _ _ (by omega)]
  simp only [Option.bind_some]
  rw [he.osPwrite_apply _ _ _ (by decide)]
  simp only [Option.bind_some, tick_apply, pure_apply, h8, h9, h4096, h8192, e8, e9, e4096, e8192,
    e0]
  rfl

theorem superRead_sealed (fs : Fs) {sb : Super} (hdata : ∀ i < 4096, fs.img.data i = sb.encode i)
    (hsize : 4096 ≤ fs.img.size) (hcrc : crc32c sb.encode superCrcOff = sb.sChecksum) :
    superRead env fs = some (magicRc sb, { fs with sb := sb, clock := fs.clock + 1 }) := by
  have hbs : blockSize = 4096 := rfl
  have e0 : UInt64.toNat 0 = 0 := rfl
  have hdec : Super.decode (fun i ↦ if i < min blockSize (fs.img.size - UInt64.toNat 0) then
      fs.img.data (UInt64.toNat 0 + i) else 0) = sb := by
    rw [Super.decode_congr (g := sb.encode), Super.decode_encode]
    intro j hj
    rw [hbs] at hj
    rw [if_pos (by omega), e0, Nat.zero_add, hdata j hj]
  rw [superRead, bind_apply, he.osPread_apply _ _ _ (by decide), Option.bind_some]
  dsimp only
  rw [hdec, bind_apply]
  simp only [modify_apply, Option.bind_some]
  rw [if_neg (by omega), if_pos hcrc]
  rfl

theorem superRead_apply (fs : Fs) {sb : Super} (hdata : ∀ i < 4096, fs.img.data i = sb.encode i)
    (hsize : 4096 ≤ fs.img.size) (hcrc : crc32c sb.encode superCrcOff = sb.sChecksum)
    (hmagic : sb.sMagic = xxfsMagic) :
    superRead env fs = some (.ok, { fs with sb := sb, clock := fs.clock + 1 }) := by
  rw [superRead_sealed he fs hdata hsize hcrc, magicRc, if_neg (not_not.mpr hmagic)]

theorem loadDir_apply (fs : Fs) {x : UInt64} (hoff : fs.sb.sPdirOff ≠ 0)
    (hlt : fs.sb.sPdirOff.toNat < 2 ^ 63) (hsz : fs.sb.sPdirSize = 1)
    (hdata : ∀ i < 8, fs.img.data (fs.sb.sPdirOff.toNat + i) = encodeDir [x] i)
    (hsize : fs.sb.sPdirOff.toNat + 8 ≤ fs.img.size) : loadDir env fs =
      some ((), { fs with pdir := ⟨[x], fs.sb.sPdirDepth⟩, clock := fs.clock + 2 }) := by
  have h1 : fs.sb.sPdirSize.toNat = 1 := by rw [hsz]; rfl
  simp only [loadDir, bind_apply, get_apply, Option.bind_some, hoff, h1, ne_eq, not_false_eq_true,
    Nat.one_pos, and_self, ↓reduceIte]
  rw [he.osAlloc_apply]
  simp only [Option.bind_some, ↓reduceIte, bind_apply]
  rw [he.osPread_apply _ _ _ hlt]
  have hmin : min (1 * 8) (fs.img.size - fs.sb.sPdirOff.toNat) = 8 := by omega
  have hdec : decodeDir (fun i ↦ if i < 8 then fs.img.data (fs.sb.sPdirOff.toNat + i) else 0) 1 =
      [x] := by
    apply decodeDir_encode
    intro i hi
    rw [if_pos hi, hdata i hi]
  simp only [Option.bind_some, hmin, hdec, if_apply, modify_apply]
  rfl

theorem pdirWrite_apply {fs : Fs} {x : UInt64} (hdir : fs.pdir = ⟨[x], 0⟩) (hoff : fs.sb.sPdirOff ≠ 0)
    (hlt : fs.sb.sPdirOff.toNat < 2 ^ 63) : pdirWrite env fs = some ((), { fs with
      img := fs.img.write (encodeDir [x]) 8 fs.sb.sPdirOff.toNat
      sb := { fs.sb with sPdirSize := 1, sPdirDepth := 0 }
      clock := fs.clock + 1 }) := by
  simp only [pdirWrite, bind_apply, get_apply, Option.bind_some, hdir, List.length_singleton,
    Nat.one_mul, hoff, ↓reduceIte, pure_apply, modify_apply, discard_apply,
    show ¬(8 > blockSize) by decide, one_ne_zero]
  rw [he.osPwrite_apply _ _ _ hlt]
  rfl

theorem superWrite_apply {fs : Fs} {x : UInt64} (hdir : fs.pdir = ⟨[x], 0⟩)
    (hoff : fs.sb.sPdirOff ≠ 0) (hlt : fs.sb.sPdirOff.toNat < 2 ^ 63) {sb : Super}
    (hsb : { fs.sb with sPdirSize := 1, sPdirDepth := 0 } = sb) :
    superWrite env fs = some ((), { fs with
      img := (fs.img.write (encodeDir [x]) 8 fs.sb.sPdirOff.toNat).write
        (superSetChecksumEcc sb).encode 4096 0
      sb := superSetChecksumEcc sb
      clock := fs.clock + 2 }) := by
  rw [superWrite, bind_apply, pdirWrite_apply he hdir hoff hlt, hsb, Option.bind_some]
  simp only [bind_apply, modify_apply, Option.bind_some, get_apply, discard_apply]
  rw [he.osPwrite_apply _ _ _ (by decide)]
  rfl

theorem xxfsMount_apply {img : Image} {blocks now : UInt64} (hi : Formatted img blocks now)
    (flags : UInt64) (clock : ℕ) : xxfsMount env (blank img flags clock) =
      some (true, { blank img flags clock with
        sb := freshSuper blocks now
        cowGen := 1
        pdir := ⟨[dataStart blocks + 4096], 0⟩
        clock := clock + 3 }) := by
  have hb := dataStart_bounds blocks
  have hs := freshSuper_fields blocks now
  have h8192 : (dataStart blocks + 8192).toNat = (dataStart blocks).toNat + 8192 :=
    dataStart_add blocks 8192 (by decide)
  have hne : dataStart blocks + 8192 ≠ 0 := fun h ↦ by rw [h] at h8192; simp at h8192
  have hread := superRead_apply he (blank img flags clock) hi.super
    (by have := hi.size; change 4096 ≤ img.size; omega) hs.sealed hs.magic
  generalize freshSuper blocks now = sb at hs hread ⊢
  have hload := loadDir_apply he
    { blank img flags clock with sb := sb, cowGen := 1, clock := clock + 1 }
    (x := dataStart blocks + 4096)
    (by rw [hs.pdirOff]; exact hne) (by rw [hs.pdirOff, h8192]; omega) hs.pdirSize
    (by intro i hlt; rw [hs.pdirOff, h8192]; exact hi.dir i hlt)
    (by rw [hs.pdirOff, h8192]; have := hi.size; change _ ≤ img.size; omega)
  rw [xxfsMount, bind_apply, hread, Option.bind_some, if_pos rfl, bind_apply]
  simp only [modify_apply, Option.bind_some, hs.cowGen, bind_apply]
  change (loadDir env { blank img flags clock with sb := sb, cowGen := 1, clock := clock + 1 }).bind
    _ = _
  rw [hload]
  dsimp only
  rw [hs.pdirDepth]
  rfl

def zeros (size : ℕ) : Image := ⟨fun _ ↦ 0, size, fun _ _ ↦ rfl⟩

def freshFs (env : Env) (sizeMb flags : UInt64) : Fs :=
  { blank (mkfsImage (zeros (sizeMb * 1024 * 1024).toNat) (totalBlocks sizeMb) (env.time 1))
      flags 10 with
    sb := freshSuper (totalBlocks sizeMb) (env.time 1)
    cowGen := 1
    pdir := ⟨[dataStart (totalBlocks sizeMb) + 4096], 0⟩
    clock := 13 }

def GoodSize (sizeMb : UInt64) : Prop := 1 ≤ sizeMb ∧ (sizeMb * 1024 * 1024).toNat < 2 ^ 63

theorem fresh_apply {sizeMb : UInt64} (h : GoodSize sizeMb) (flags : UInt64) :
    fresh env sizeMb flags = some (freshFs env sizeMb flags) := by
  obtain ⟨h1, h2⟩ := h
  have hlt : ¬sizeMb < 1 := UInt64.not_lt.mpr h1
  have hm : xxfsMkfs env sizeMb (blank emptyImage 0 0) = some (.ok, { blank emptyImage 0 0 with
      img := mkfsImage (zeros (sizeMb * 1024 * 1024).toNat) (totalBlocks sizeMb) (env.time 1)
      clock := 10 }) := by
    rw [xxfsMkfs, if_neg hlt, bind_apply, tick_apply, Option.bind_some, if_pos ⟨he.io _, h2⟩,
      bind_apply]
    simp only [modify_apply, Option.bind_some]
    rw [mkfsWrite_apply he]
    rfl
  have hi := freshImage_mkfsImage
    (zeros (sizeMb * 1024 * 1024).toNat) (fun _ ↦ rfl)
    (totalBlocks sizeMb) (env.time 1)
  rw [fresh, hm, Option.bind_some, if_pos rfl]
  dsimp only
  rw [xxfsMount_apply he hi.toFormatted]
  rfl

omit he in
theorem goodSize_of_fresh {sizeMb flags : UInt64} {fs : Fs}
    (h : fresh env sizeMb flags = some fs) : GoodSize sizeMb := by
  by_contra hbad
  have hrc : ∃ rc fs', xxfsMkfs env sizeMb (blank emptyImage 0 0) = some (rc, fs') ∧ rc ≠ .ok := by
    by_cases h1 : sizeMb < 1
    · exact ⟨.einval, _, by rw [xxfsMkfs, if_pos h1]; rfl, by decide⟩
    · have h2 : ¬(sizeMb * 1024 * 1024).toNat < 2 ^ 63 := fun h2 ↦
        hbad ⟨UInt64.not_lt.mp h1, h2⟩
      refine ⟨.eio, { blank emptyImage 0 0 with clock := 1 }, ?_, by decide⟩
      rw [xxfsMkfs, if_neg h1, bind_apply, tick_apply, Option.bind_some,
        if_neg (fun hc ↦ h2 hc.2)]
      rfl
  obtain ⟨rc, fs', hm, hne⟩ := hrc
  rw [fresh, hm, Option.bind_some, if_neg hne] at h
  cases h

theorem eq_freshFs {sizeMb flags : UInt64} {fs : Fs} (h : fresh env sizeMb flags = some fs) :
    fs = freshFs env sizeMb flags := by
  rw [fresh_apply he (goodSize_of_fresh h)] at h
  exact (Option.some.inj h).symm

omit he in
theorem totalBlocks_bounds {sizeMb : UInt64} (h : GoodSize sizeMb) :
    100 ≤ (totalBlocks sizeMb).toNat ∧ (totalBlocks sizeMb).toNat ≤ 2 ^ 51 := by
  have hdiv : (sizeMb * 1024 * 1024 / 4096).toNat = (sizeMb * 1024 * 1024).toNat / 4096 :=
    UInt64.toNat_div _ _
  have h2 := h.2
  rw [totalBlocks]
  split
  · exact ⟨by decide, by decide⟩
  · have h100 : UInt64.toNat 100 ≤ (sizeMb * 1024 * 1024 / 4096).toNat :=
      UInt64.le_iff_toNat_le.mp (UInt64.not_lt.mp ‹_›)
    exact ⟨h100, by omega⟩

omit he in
theorem fresh_image (sizeMb flags : UInt64) :
    FreshImage (freshFs env sizeMb flags).img (totalBlocks sizeMb) (env.time 1) :=
  freshImage_mkfsImage _ (fun _ ↦ rfl) _ _

omit he in
theorem fresh_super (sizeMb flags : UInt64) :
    FreshSuper (freshFs env sizeMb flags).sb (totalBlocks sizeMb) :=
  freshSuper_fields _ _

omit he in
theorem FreshSuper.poolOk {sb : Super} {blocks : UInt64} (hs : FreshSuper sb blocks)
    (hb : 100 ≤ blocks.toNat ∧ blocks.toNat ≤ 2 ^ 51) :
    PoolOk sb ∧ sb.sFreeBlocks.toNat + 7 = sb.sBlockCount.toNat := by
  have hd := dataStart_bounds blocks
  have h3 : (blocks - 3).toNat = blocks.toNat - 3 :=
    UInt64.toNat_sub_of_le _ _ (UInt64.le_iff_toNat_le.mpr (le_trans (by decide) hb.1))
  have h7 : (blocks - 3 - 4).toNat = blocks.toNat - 3 - 4 := by
    rw [UInt64.toNat_sub_of_le, h3]
    · rfl
    · rw [UInt64.le_iff_toNat_le, h3]
      change 4 ≤ _
      omega
  refine ⟨⟨?_, ?_, ?_, ?_⟩, ?_⟩
  · rw [hs.dataOff]; omega
  · rw [hs.dataOff]; omega
  · rw [hs.free, hs.blockCount, h7]; omega
  · rw [poolEnd, hs.dataOff, hs.blockCount]; omega
  · rw [hs.free, hs.blockCount, h7]; omega

omit he in
theorem fresh_poolOk (env : Env) {sizeMb : UInt64} (hg : GoodSize sizeMb) (flags : UInt64) :
    PoolOk (freshFs env sizeMb flags).sb ∧
      (freshFs env sizeMb flags).sb.sFreeBlocks.toNat + 7 =
        (freshFs env sizeMb flags).sb.sBlockCount.toNat :=
  (fresh_super sizeMb flags).poolOk (totalBlocks_bounds hg)

omit he in
theorem goodSize_one : GoodSize 1 := ⟨by decide, by decide⟩

omit he in
theorem freshOne_free : (freshFs steady 1 0).sb.sFreeBlocks = 249 :=
  (freshSuper_fields (totalBlocks 1) (steady.time 1)).free.trans (by decide)

end Xxfs.FreshVolume

import Xxfs.SuperDamage

namespace Xxfs.DirectoryRoundTrip

open Xxfs.DiskFormat Xxfs.Machine Xxfs.Allocator Xxfs.Volume Xxfs.Checksum Xxfs.FreshVolume
open Xxfs.SuperDamage Xxfs.Lib.LittleEndian Xxfs.Lib.Computation Xxfs.Lib.Computation.Comp

theorem decodeDir_encodeDir {f : ℕ → UInt8} {offs : List UInt64}
    (h : ∀ i < offs.length * 8, f i = encodeDir offs i) : decodeDir f offs.length = offs := by
  refine List.ext_getElem (by simp [decodeDir]) fun k hk hk' ↦ ?_
  simp only [decodeDir, List.getElem_map, List.getElem_range]
  have hLE : getLE f 8 (8 * k) = getLE (leByte (offs.get ⟨k, hk'⟩).toNat) 8 0 := by
    refine getLE_congr fun j hj ↦ ?_
    have hdiv : (8 * k + j) / 8 = k := by omega
    have hmod : (8 * k + j) % 8 = j := by omega
    rw [h _ (by omega), encodeDir, hdiv, hmod, List.getD_eq_getElem _ _ hk', Nat.zero_add]
    rfl
  rw [getU64, hLE]
  exact getU64_leByte _

section roundtrip

variable {env : Env} (he : Healthy env)
include he

/-- `page_alloc_raw` takes the block behind the end of the image. -/
theorem pageAllocRaw_apply {fs : Fs} (hsize : fs.img.size + 8192 ≤ 2 ^ 63) : ∃ off c,
    pageAllocRaw env fs = some (off, { fs with
      img := fs.img.grow (off.toNat + 4096), clock := c }) ∧
    fs.img.size ≤ off.toNat ∧ off.toNat < fs.img.size + 4096 := by
  have hfit : (UInt64.ofNat fs.img.size).toNat = fs.img.size := by
    rw [UInt64.toNat_ofNat']
    exact Nat.mod_eq_of_lt (by omega)
  have hoff : (roundUp (UInt64.ofNat fs.img.size)).toNat = (fs.img.size + 4095) / 4096 * 4096 := by
    rw [roundUp_toNat (by omega), hfit]
  have hend : (roundUp (UInt64.ofNat fs.img.size) + 4096).toNat =
      (roundUp (UInt64.ofNat fs.img.size)).toNat + 4096 := by
    have h4096 : UInt64.toNat 4096 = 4096 := rfl
    rw [UInt64.toNat_add, h4096]
    exact Nat.mod_eq_of_lt (by omega)
  have hs64 : ¬ toS64 (roundUp (UInt64.ofNat fs.img.size) + 4096) ≤ fs.img.size := by
    rw [toS64, if_pos (by omega), hend, hoff]
    omega
  refine ⟨roundUp (UInt64.ofNat fs.img.size), fs.clock + 3, ?_, by omega, by omega⟩
  rw [pageAllocRaw, bind_apply, he.osFileSize_apply, Option.bind_some]
  simp only [osFileExtend, bind_apply, he.osFileSize_apply, Option.bind_some, if_neg hs64,
    tick_apply, he.io, modify_apply, pure_apply, if_apply, ↓reduceIte, hend]

/-- Where `pdir_write` leaves the directory of `fs`. -/
structure DirStored (fs fs' : Fs) : Prop where
  magic : fs'.sb.sMagic = fs.sb.sMagic
  beyond : 4096 ≤ fs'.sb.sPdirOff.toNat
  bound : fs'.sb.sPdirOff.toNat < 2 ^ 63
  size : fs'.sb.sPdirSize.toNat = fs.pdir.pageOff.length
  depth : fs'.sb.sPdirDepth = fs.pdir.globalDepth
  bytes : ∀ i < fs.pdir.pageOff.length * 8,
    fs'.img.data (fs'.sb.sPdirOff.toNat + i) = encodeDir fs.pdir.pageOff i
  room : fs'.sb.sPdirOff.toNat + fs.pdir.pageOff.length * 8 ≤ fs'.img.size

/-- The choice of a block: one that is kept, or one behind the end of the image. -/
theorem chosen_apply (fs : Fs) (old : UInt64) (c : Prop) [Decidable c]
    (hsize : 4096 ≤ fs.img.size) (hroom : fs.img.size + 8192 ≤ 2 ^ 63)
    (hold : ¬ c → 4096 ≤ old.toNat ∧ old.toNat < 2 ^ 63) : ∃ off fs₁,
      (∀ k : UInt64 → FsM Unit, (if c then pageAllocRaw env >>= k else k old) fs = k off fs₁) ∧
      4096 ≤ off.toNat ∧ off.toNat < 2 ^ 63 ∧ fs₁.sb = fs.sb ∧ fs₁.pdir = fs.pdir ∧
      fs.img.size ≤ fs₁.img.size ∧ fs₁.img.size ≤ fs.img.size + 8192 := by
  by_cases hc : c
  · obtain ⟨off, t, hraw, hlow, hhigh⟩ := pageAllocRaw_apply he hroom
    refine ⟨off, { fs with img := fs.img.grow (off.toNat + 4096), clock := t },
      fun k ↦ by rw [if_pos hc, bind_apply, hraw, Option.bind_some], by omega, by omega, rfl, rfl,
      ?_, ?_⟩
    · exact le_max_left _ _
    · simp only [Image.grow]
      omega
  · exact ⟨old, fs, fun k ↦ by rw [if_neg hc], (hold hc).1, (hold hc).2, rfl, rfl, le_rfl, by omega⟩

theorem pdirWrite_stored {fs : Fs} (hsize : 4096 ≤ fs.img.size)
    (hroom : fs.img.size + 2 ^ 24 ≤ 2 ^ 63)
    (hoff : fs.sb.sPdirOff = 0 ∨ 4096 ≤ fs.sb.sPdirOff.toNat ∧ fs.sb.sPdirOff.toNat < 2 ^ 63)
    (hpos : 0 < fs.pdir.pageOff.length) (hmax : fs.pdir.pageOff.length ≤ 2 ^ 20) :
    ∃ fs', pdirWrite env fs = some ((), fs') ∧ DirStored fs fs' := by
  obtain ⟨off₁, fs₁, h₁, hlow₁, hhigh₁, hsb₁, hdir₁, hge₁, hle₁⟩ := chosen_apply he fs
    fs.sb.sPdirOff (fs.sb.sPdirOff = 0) hsize (by omega) fun h0 ↦ hoff.resolve_left h0
  have hne₁ : off₁ ≠ 0 := fun h ↦ by rw [h] at hlow₁; exact absurd hlow₁ (by decide)
  obtain ⟨fs₂, hfs₂⟩ : ∃ fs₂ : Fs, fs₂ = { fs₁ with sb.sPdirOff := off₁ } := ⟨_, rfl⟩
  have himg₂ : fs₂.img = fs₁.img := by rw [hfs₂]
  obtain ⟨off₃, fs₃, h₃, hlow₃, hhigh₃, hsb₃, hdir₃, hge₃, hle₃⟩ := chosen_apply he fs₂ off₁
    (fs.pdir.pageOff.length * 8 > blockSize) (by rw [himg₂]; omega)
    (by rw [himg₂]; omega) fun _ ↦ ⟨hlow₁, hhigh₁⟩
  have hne₃ : off₃ ≠ 0 := fun h ↦ by rw [h] at hlow₃; exact absurd hlow₃ (by decide)
  have hlen0 : ¬ fs.pdir.pageOff.length = 0 := by omega
  have hlen32 : (UInt32.ofNat fs.pdir.pageOff.length).toNat = fs.pdir.pageOff.length := by
    rw [UInt32.toNat_ofNat']
    exact Nat.mod_eq_of_lt (by omega)
  refine ⟨{ fs₃ with
    img := fs₃.img.write (encodeDir fs.pdir.pageOff) (fs.pdir.pageOff.length * 8) off₃.toNat
    sb := { fs₃.sb with
      sPdirOff := off₃
      sPdirSize := UInt32.ofNat fs.pdir.pageOff.length
      sPdirDepth := fs.pdir.globalDepth }
    clock := fs₃.clock + 1 }, ?_, ⟨?_, ?_, ?_, hlen32, rfl, fun i hi ↦ ?_, ?_⟩⟩
  · rw [pdirWrite, bind_apply, show (FsM.get fs : Option (Fs × Fs)) = some (fs, fs) from rfl,
      Option.bind_some]
    dsimp only
    rw [if_neg hlen0]
    refine (h₁ _).trans ?_
    rw [if_neg hne₁, bind_apply,
      show FsM.modify (fun fs ↦ { fs with sb.sPdirOff := off₁ }) fs₁ = some ((), fs₂) by
        rw [hfs₂]; rfl, Option.bind_some]
    refine (h₃ _).trans ?_
    rw [if_neg hne₃]
    simp only [bind_apply, modify_apply, Option.bind_some, discard_apply]
    rw [he.osPwrite_apply _ _ _ hhigh₃]
    rfl
  · dsimp only
    rw [hsb₃, hfs₂]
    dsimp only
    rw [hsb₁]
  · exact hlow₃
  · exact hhigh₃
  · dsimp only
    rw [Image.write_in _ _ (by omega) (by omega)]
    congr 1
    omega
  · dsimp only
    simp only [Image.write]
    rw [if_neg (by omega)]
    exact le_max_right _ _

/-- `super_write` seals the superblock and leaves the directory where it is. -/
theorem superWrite_stored {fs : Fs} (hsize : 4096 ≤ fs.img.size)
    (hroom : fs.img.size + 2 ^ 24 ≤ 2 ^ 63)
    (hoff : fs.sb.sPdirOff = 0 ∨ 4096 ≤ fs.sb.sPdirOff.toNat ∧ fs.sb.sPdirOff.toNat < 2 ^ 63)
    (hpos : 0 < fs.pdir.pageOff.length) (hmax : fs.pdir.pageOff.length ≤ 2 ^ 20) :
    ∃ fs', superWrite env fs = some ((), fs') ∧ DirStored fs fs' := by
  obtain ⟨fs₁, h₁, hd⟩ := pdirWrite_stored he hsize hroom hoff hpos hmax
  obtain ⟨c, e, -, hseal⟩ := superSetChecksumEcc_eq fs₁.sb
  have hbeyond := hd.beyond
  refine ⟨{ fs₁ with
    img := fs₁.img.write (superSetChecksumEcc fs₁.sb).encode blockSize 0
    sb := superSetChecksumEcc fs₁.sb
    clock := fs₁.clock + 1 }, ?_, ⟨?_, ?_, ?_, ?_, ?_, fun i hi ↦ ?_, ?_⟩⟩
  · rw [superWrite, bind_apply, h₁, Option.bind_some]
    simp only [bind_apply, modify_apply, Option.bind_some, get_apply, discard_apply]
    rw [he.osPwrite_apply _ _ _ (by decide)]
    rfl
  all_goals dsimp only
  all_goals rw [hseal]
  · exact hd.magic
  · exact hd.beyond
  · exact hd.bound
  · exact hd.size
  · exact hd.depth
  · rw [← hd.bytes i hi]
    refine Image.write_out _ _ (.inr ?_)
    change 0 + 4096 ≤ fs₁.sb.sPdirOff.toNat + i
    omega
  · refine hd.room.trans ?_
    simp only [Image.write]
    rw [if_neg (by decide)]
    exact le_max_left _ _

/-- The directory load of `xxfs_mount`, from what the superblock says. -/
theorem loadDir_stored {fs fs' : Fs} (hd : DirStored fs fs') (hpos : 0 < fs.pdir.pageOff.length)
    (fs₁ : Fs) (himg : fs₁.img = fs'.img) (hsb : fs₁.sb = fs'.sb) : ∃ c, loadDir env fs₁ =
      some ((), { fs₁ with pdir := fs.pdir, clock := c }) := by
  have hne : fs'.sb.sPdirOff ≠ 0 := fun h ↦ by
    have hb := hd.beyond
    rw [h] at hb
    exact absurd hb (by decide)
  have hroom := hd.room
  have hmin : min (fs.pdir.pageOff.length * 8) (fs'.img.size - fs'.sb.sPdirOff.toNat) =
      fs.pdir.pageOff.length * 8 := by omega
  have hdec : decodeDir (fun i ↦ if i < fs.pdir.pageOff.length * 8 then
      fs'.img.data (fs'.sb.sPdirOff.toNat + i) else 0) fs.pdir.pageOff.length =
        fs.pdir.pageOff := by
    refine decodeDir_encodeDir fun i hi ↦ ?_
    rw [if_pos hi, hd.bytes i hi]
  refine ⟨fs₁.clock + 2, ?_⟩
  simp only [loadDir, bind_apply, get_apply, Option.bind_some, hsb, hd.size, ne_eq, hne,
    not_false_eq_true, hpos, and_self, ↓reduceIte]
  rw [he.osAlloc_apply]
  simp only [Option.bind_some, ↓reduceIte, bind_apply]
  rw [he.osPread_apply _ _ _ hd.bound]
  simp only [Option.bind_some, himg, hmin, if_apply, modify_apply]
  rw [if_pos (by omega), hdec, hsb, hd.depth]

/-- What `super_write` stores, `super_read` and the directory load of `xxfs_mount` give back. -/
theorem super_directory_roundtrip {fs : Fs} (hmagic : fs.sb.sMagic = xxfsMagic)
    (hoff : fs.sb.sPdirOff = 0 ∨ fs.sb.sPdirOff.toNat % 4096 = 0 ∧ 4096 ≤ fs.sb.sPdirOff.toNat ∧
      fs.sb.sPdirOff.toNat < 2 ^ 63)
    (hsize : 4096 ≤ fs.img.size) (hroom : fs.img.size + 2 ^ 24 ≤ 2 ^ 63)
    (hdir : fs.pdir.pageOff.length = 2 ^ fs.pdir.globalDepth.toNat)
    (hdepth : fs.pdir.globalDepth.toNat ≤ 20) (flags : UInt64) (clock : ℕ) :
    ∃ fs', superWrite env fs = some ((), fs') ∧
      ∃ fs'', xxfsMount env (blank fs'.img flags clock) = some (true, fs'') ∧
        fs''.sb = fs'.sb ∧ fs''.pdir = fs.pdir := by
  have hpos : 0 < fs.pdir.pageOff.length := by
    rw [hdir]
    exact Nat.two_pow_pos _
  have hmax : fs.pdir.pageOff.length ≤ 2 ^ 20 := by
    rw [hdir]
    exact Nat.pow_le_pow_right (by decide) hdepth
  obtain ⟨fs', hw, hd⟩ := superWrite_stored he hsize hroom (hoff.imp_right And.right) hpos hmax
  obtain ⟨hsealed, hdata, hlen⟩ := superWrite_written he hw
  refine ⟨fs', hw, ?_⟩
  have hread := superRead_apply he (blank fs'.img flags clock) hdata hlen
    (hsealed.crc.trans (sChecksum_eq _).symm) (hd.magic.trans hmagic)
  obtain ⟨c, hload⟩ := loadDir_stored he hd hpos { blank fs'.img flags clock with
    sb := fs'.sb, cowGen := fs'.sb.sCowGeneration, clock := clock + 1 } rfl rfl
  refine ⟨{ blank fs'.img flags clock with
    sb := fs'.sb, cowGen := fs'.sb.sCowGeneration, pdir := fs.pdir, clock := c }, ?_, rfl, rfl⟩
  rw [xxfsMount, bind_apply, hread, Option.bind_some, if_pos rfl, bind_apply]
  simp only [modify_apply, Option.bind_some, bind_apply]
  change (loadDir env { blank fs'.img flags clock with
    sb := fs'.sb, cowGen := fs'.sb.sCowGeneration, clock := clock + 1 }).bind _ = _
  rw [hload]
  rfl

end roundtrip

/-- An image of one block and a directory of two blocks that has not been stored yet. -/
def wideDir : Fs := { blank ⟨fun _ ↦ 0, 4096, fun _ _ ↦ rfl⟩ 0 0 with
  sb := { Super.decode fun _ ↦ 0 with sMagic := xxfsMagic }
  pdir := ⟨List.replicate 1024 0xFFFFFFFFFFFFFFFF, 10⟩ }

theorem super_directory_roundtrip_wide : ∃ fs', superWrite steady wideDir = some ((), fs') ∧
    ∃ fs'', xxfsMount steady (blank fs'.img 0 0) = some (true, fs'') ∧
      fs''.sb = fs'.sb ∧ fs''.pdir = wideDir.pdir :=
  super_directory_roundtrip steady_healthy rfl (.inl (by decide)) le_rfl
    (by change 4096 + 2 ^ 24 ≤ 2 ^ 63; decide) List.length_replicate (by decide) 0 0

end Xxfs.DirectoryRoundTrip

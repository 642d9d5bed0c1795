import Xxfs.Handout

namespace Xxfs.DeviceSpace

open Xxfs.DiskFormat Xxfs.Machine Xxfs.Allocator Xxfs.Volume Xxfs.FreshVolume Xxfs.Handout
open Xxfs.Lib.Computation Xxfs.Lib.Computation.Comp

/-- Every block that `page_alloc` hands out while blocks are free lies wholly below `size`:
as long as fewer calls have been made than blocks were free, there is one left. -/
def PoolInside (env : Env) (size : ℕ) (fs : Fs) : Prop :=
  ∀ k < fs.sb.sFreeBlocks.toNat, ∀ es fs₁ off fs₂,
    handed env (List.replicate k .alloc) fs = some (es, fs₁) →
    pageAlloc env fs₁ = some (off, fs₂) → off.toNat + 4096 ≤ size

section pool

variable {env : Env}

theorem taken_taken (sb : Super) (n m : UInt64) : taken (taken sb n) m = taken sb (n + m) := by
  have h : sb.sFreeBlocks - n - m = sb.sFreeBlocks - (n + m) := by grind
  simp only [taken, h]

variable (env)

/-- As many calls of `page_alloc` as there are free blocks all take theirs from the pool. -/
theorem handed_replicate {k : ℕ} {fs : Fs} (hp : PoolOk fs.sb)
    (hk : k ≤ fs.sb.sFreeBlocks.toNat) : ∃ es, handed env (List.replicate k .alloc) fs =
      some (es, { fs with sb := taken fs.sb (UInt64.ofNat k) }) := by
  induction k generalizing fs with
  | zero =>
    have h0 : taken fs.sb (UInt64.ofNat 0) = fs.sb := by simp [taken]
    exact ⟨[], by rw [h0]; rfl⟩
  | succ k ih =>
    have hfree : fs.sb.sFreeBlocks ≠ 0 := fun h ↦ by
      rw [h] at hk
      exact absurd hk (Nat.not_succ_le_zero k)
    have hone : 1 ≤ fs.sb.sFreeBlocks := UInt64.le_iff_toNat_le.mpr (le_trans (by simp) hk)
    have hleft : (taken fs.sb 1).sFreeBlocks.toNat = fs.sb.sFreeBlocks.toNat - 1 :=
      taken_free hone
    have hoff : (nextOff fs.sb).toNat = front fs.sb := nextOff_toNat hp (by omega)
    have hne : nextOff fs.sb ≠ 0 := fun h ↦ by
      have hpos := hp.pos
      rw [h, front] at hoff
      simp at hoff
      omega
    have hroom : k ≤ (taken fs.sb 1).sFreeBlocks.toNat := by omega
    obtain ⟨es, hes⟩ := @ih { fs with sb := taken fs.sb 1 } (taken_ok hone hp) hroom
    have hnext : taken (taken fs.sb 1) (UInt64.ofNat k) = taken fs.sb (UInt64.ofNat (k + 1)) := by
      rw [taken_taken, Nat.add_comm k 1, UInt64.ofNat_add]
      rfl
    refine ⟨⟨(nextOff fs.sb).toNat, 1⟩ :: es, ?_⟩
    rw [List.replicate_succ, handed, Call.run, pageAlloc_free env hfree, Option.bind_some,
      if_neg hne, hes, ← hnext]
    rfl

theorem alloc_after {k : ℕ} {fs : Fs} (hp : PoolOk fs.sb) (hk : k < fs.sb.sFreeBlocks.toNat) :
    ∃ es fs₁ off fs₂, handed env (List.replicate k .alloc) fs = some (es, fs₁) ∧
      pageAlloc env fs₁ = some (off, fs₂) ∧ off.toNat = front fs.sb + k * 4096 := by
  have hlt := fs.sb.sFreeBlocks.toNat_lt
  have hnat : (UInt64.ofNat k).toNat = k := UInt64.toNat_ofNat_of_lt (by
    change k < 2 ^ 64
    omega)
  have hle : UInt64.ofNat k ≤ fs.sb.sFreeBlocks :=
    UInt64.le_iff_toNat_le.mpr (by rw [hnat]; exact hk.le)
  have hleft : (taken fs.sb (UInt64.ofNat k)).sFreeBlocks.toNat = fs.sb.sFreeBlocks.toNat - k := by
    rw [taken_free hle, hnat]
  have hfree : (taken fs.sb (UInt64.ofNat k)).sFreeBlocks ≠ 0 := fun h ↦ by
    rw [h] at hleft
    change 0 = _ at hleft
    omega
  obtain ⟨es, hes⟩ := handed_replicate env hp hk.le
  refine ⟨es, _, _, _, hes, pageAlloc_free env hfree, ?_⟩
  rw [nextOff_toNat (taken_ok hle hp) (by omega), taken_front hle hp, hnat]

variable {env}

theorem poolInside_iff {fs : Fs} {size : ℕ} (hp : PoolOk fs.sb)
    (hfree : 0 < fs.sb.sFreeBlocks.toNat) : PoolInside env size fs ↔ poolEnd fs.sb ≤ size := by
  have hle := hp.free_le
  have hend : front fs.sb + fs.sb.sFreeBlocks.toNat * 4096 = poolEnd fs.sb := by
    simp only [front, poolEnd]
    omega
  constructor
  · intro h
    obtain ⟨es, fs₁, off, fs₂, hes, hoff, hat⟩ :=
      alloc_after env (k := fs.sb.sFreeBlocks.toNat - 1) hp (by omega)
    have := h _ (by omega) es fs₁ off fs₂ hes hoff
    omega
  · intro h k hk es fs₁ off fs₂ hes hoff
    obtain ⟨es', fs₁', off', fs₂', hes', hoff', hat⟩ := alloc_after env hp hk
    obtain ⟨-, rfl⟩ := Prod.mk.inj (Option.some.inj (hes.symm.trans hes'))
    obtain ⟨rfl, -⟩ := Prod.mk.inj (Option.some.inj (hoff.symm.trans hoff'))
    have : (k + 1) * 4096 ≤ fs.sb.sFreeBlocks.toNat * 4096 := Nat.mul_le_mul_right _ hk
    omega

end pool

/-- The file system mounted from a device that `xxfs_mkfs` has formatted with flag `0x100`. -/
def freshDevice (env : Env) (device : Image) (flags : UInt64) : Option Fs :=
  (xxfsMkfsDevice env (blank device 0 0)).bind fun p ↦
    if p.1 = .ok then
      (xxfsMount env (blank p.2.img flags p.2.clock)).bind fun q ↦
        if q.1 then some q.2 else none
    else none

/-- The blocks `xxfs_mkfs` counts on a device. -/
def deviceBlocks (device : Image) : UInt64 :=
  totalBlocks (UInt64.ofNat (device.size / (1024 * 1024)))

/-- A device of whole megabytes with room for the reserved regions and a hundred blocks. -/
structure Roomy (device : Image) : Prop where
  whole : device.size % (1024 * 1024) = 0
  bound : device.size < 2 ^ 63
  room : (dataStart (deviceBlocks device)).toNat + 100 * 4096 ≤ device.size

section device

variable {device : Image} (hr : Roomy device)
include hr

theorem Roomy.sizeMb : (UInt64.ofNat (device.size / (1024 * 1024)) * 1024 * 1024).toNat =
    device.size ∧ 1 ≤ UInt64.ofNat (device.size / (1024 * 1024)) := by
  have hd := dataStart_bounds (deviceBlocks device)
  have hw := hr.whole
  have hb := hr.bound
  have hroom := hr.room
  have hnat : (UInt64.ofNat (device.size / (1024 * 1024))).toNat = device.size / (1024 * 1024) :=
    UInt64.toNat_ofNat_of_lt (by change _ < 2 ^ 64; omega)
  have hk : UInt64.toNat 1024 = 1024 := rfl
  refine ⟨?_, UInt64.le_iff_toNat_le.mpr ?_⟩
  · rw [UInt64.toNat_mul, UInt64.toNat_mul, hnat, hk]
    omega
  · rw [hnat]
    change 1 ≤ _
    omega

theorem Roomy.blocks : (deviceBlocks device).toNat * 4096 = device.size := by
  obtain ⟨hmb, -⟩ := hr.sizeMb
  have hd := dataStart_bounds (deviceBlocks device)
  have hroom := hr.room
  have hw := hr.whole
  have hdiv : (UInt64.ofNat (device.size / (1024 * 1024)) * 1024 * 1024 / 4096).toNat =
      device.size / 4096 := by
    rw [UInt64.toNat_div, hmb]
    rfl
  have hge : ¬UInt64.ofNat (device.size / (1024 * 1024)) * 1024 * 1024 / 4096 < 100 := by
    rw [UInt64.lt_iff_toNat_lt, hdiv]
    change ¬_ < 100
    omega
  rw [deviceBlocks, totalBlocks, if_neg hge, hdiv]
  omega

variable {env : Env} (he : Healthy env)
include he

theorem freshDevice_apply (flags : UInt64) : ∃ fs, freshDevice env device flags = some fs ∧
    FreshSuper fs.sb (deviceBlocks device) ∧ fs.img.size = device.size := by
  have hroom := hr.room
  have hpos : device.size ≠ 0 := by omega
  have hone : ¬UInt64.ofNat (device.size / (1024 * 1024)) < 1 := UInt64.not_lt.mpr hr.sizeMb.2
  have hm : xxfsMkfsDevice env (blank device 0 0) = some (.ok, { blank device 0 0 with
      img := mkfsImage device (deviceBlocks device) (env.time 1)
      clock := 10 }) := by
    rw [xxfsMkfsDevice, bind_apply, he.osFileSize_apply, Option.bind_some]
    change (if device.size = 0 then _ else _ : FsM Rc) _ = _
    rw [if_neg hpos]
    change mkfsWrite env (totalBlocks (if UInt64.ofNat (device.size / (1024 * 1024)) < 1 then 1
      else UInt64.ofNat (device.size / (1024 * 1024)))) _ = _
    rw [if_neg hone, mkfsWrite_apply he]
    rfl
  have hi := formatted_mkfsImage device (deviceBlocks device) (env.time 1)
  have hsize : (mkfsImage device (deviceBlocks device) (env.time 1)).size = device.size :=
    mkfsImage_size (by omega)
  refine ⟨{ blank (mkfsImage device (deviceBlocks device) (env.time 1)) flags 10 with
      sb := freshSuper (deviceBlocks device) (env.time 1)
      cowGen := 1
      pdir := ⟨[dataStart (deviceBlocks device) + 4096], 0⟩
      clock := 13 }, ?_, freshSuper_fields _ _, hsize⟩
  rw [freshDevice, hm, Option.bind_some, if_pos rfl]
  dsimp only
  rw [xxfsMount_apply he hi]
  rfl

/-- The pool of a formatted device reaches as far behind its end as the reserved regions take
up at its start. -/
theorem freshDevice_poolEnd (flags : UInt64) : ∃ fs, freshDevice env device flags = some fs ∧
    fs.img.size = device.size ∧ PoolOk fs.sb ∧ 0 < fs.sb.sFreeBlocks.toNat ∧
    poolEnd fs.sb = (dataStart (deviceBlocks device)).toNat + device.size := by
  obtain ⟨fs, hfs, hs, hsize⟩ := freshDevice_apply hr he flags
  have hblocks := hr.blocks
  have hd := dataStart_bounds (deviceBlocks device)
  have hroom := hr.room
  have hbound := hr.bound
  obtain ⟨hp, hfree⟩ := hs.poolOk (by omega)
  rw [hs.blockCount] at hfree
  exact ⟨fs, hfs, hsize, hp, by omega, by rw [poolEnd, hs.dataOff, hs.blockCount, hblocks]⟩

end device

/-- The pool of a formatted device never fits on it: `xxfs_mkfs` counts the blocks from the
start of the device, the allocator counts them from `s_data_off`. -/
theorem device_never_holds_pool {env : Env} (he : Healthy env) {device : Image}
    (hr : Roomy device) (flags : UInt64) : ∃ fs, freshDevice env device flags = some fs ∧
      fs.img.size = device.size ∧ ¬PoolInside env device.size fs ∧
      ¬fs.sb.sDataOff.toNat + fs.sb.sBlockCount.toNat * 4096 ≤ device.size := by
  obtain ⟨fs, hfs, hsize, hp, hfree, hend⟩ := freshDevice_poolEnd hr he flags
  have hd := dataStart_bounds (deviceBlocks device)
  have hlt : ¬poolEnd fs.sb ≤ device.size := by omega
  exact ⟨fs, hfs, hsize, fun h ↦ hlt ((poolInside_iff hp hfree).mp h), hlt⟩

def zeroDevice (n : ℕ) : Image := ⟨fun _ ↦ 0, n * (1024 * 1024), fun _ _ ↦ rfl⟩

theorem zeroDevice_roomy : Roomy (zeroDevice 16) :=
  ⟨by decide, by decide, by
    change (dataStart (totalBlocks (UInt64.ofNat (16 * (1024 * 1024) / (1024 * 1024))))).toNat +
      100 * 4096 ≤ 16 * (1024 * 1024)
    decide +kernel⟩

theorem sixteen_never_holds_pool : ∃ fs, freshDevice steady (zeroDevice 16) 0 = some fs ∧
    fs.img.size = (zeroDevice 16).size ∧ ¬PoolInside steady (zeroDevice 16).size fs ∧
    ¬fs.sb.sDataOff.toNat + fs.sb.sBlockCount.toNat * 4096 ≤ (zeroDevice 16).size :=
  device_never_holds_pool steady_healthy zeroDevice_roomy 0

/-- On a device of 16 megabytes the pool ends 12 megabytes behind the device, so some free
block is not on it. -/
theorem sixteen_pool_outside : ∃ fs, freshDevice steady (zeroDevice 16) 0 = some fs ∧
    ¬PoolInside steady (zeroDevice 16).size fs ∧ (zeroDevice 16).size = 16777216 ∧
    fs.sb.sDataOff.toNat + fs.sb.sBlockCount.toNat * 4096 = 29368320 := by
  obtain ⟨fs, hfs, -, hp, hfree, hend⟩ := freshDevice_poolEnd zeroDevice_roomy steady_healthy 0
  have hsize : (zeroDevice 16).size = 16777216 := rfl
  have hstart : (dataStart (deviceBlocks (zeroDevice 16))).toNat = 12591104 := by
    change (dataStart (totalBlocks (UInt64.ofNat (16 * (1024 * 1024) / (1024 * 1024))))).toNat = _
    decide +kernel
  have hat : poolEnd fs.sb = 29368320 := by rw [hend, hsize, hstart]
  refine ⟨fs, hfs, fun h ↦ ?_, hsize, hat⟩
  have := (poolInside_iff hp hfree).mp h
  omega

end Xxfs.DeviceSpace

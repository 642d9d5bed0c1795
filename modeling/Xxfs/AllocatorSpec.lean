import Xxfs.Allocator
import Xxfs.Healthy

namespace Xxfs.Allocator

open Xxfs.DiskFormat Xxfs.Machine Xxfs.Lib.Computation Xxfs.Lib.Computation.Comp

/-- The first byte behind the blocks handed out from the pool. -/
def front (sb : Super) : ℕ :=
  sb.sDataOff.toNat + (sb.sBlockCount.toNat - sb.sFreeBlocks.toNat) * 4096

def poolEnd (sb : Super) : ℕ := sb.sDataOff.toNat + sb.sBlockCount.toNat * 4096

/-- The counters describe a pool of blocks that a 64-bit offset can address. -/
structure PoolOk (sb : Super) : Prop where
  pos : 0 < sb.sDataOff.toNat
  aligned : sb.sDataOff.toNat % 4096 = 0
  free_le : sb.sFreeBlocks.toNat ≤ sb.sBlockCount.toNat
  bound : poolEnd sb < 2 ^ 64

variable {sb : Super}

theorem front_le_poolEnd (sb : Super) : front sb ≤ poolEnd sb := by
  simp only [front, poolEnd]
  omega

theorem front_aligned (h : PoolOk sb) : front sb % 4096 = 0 := by
  have := h.aligned
  simp only [front]
  omega

theorem nextOff_toNat (h : PoolOk sb) (hf : 0 < sb.sFreeBlocks.toNat) :
    (nextOff sb).toNat = front sb := by
  have hle := h.free_le
  have hlt : sb.sDataOff.toNat + (sb.sBlockCount.toNat - sb.sFreeBlocks.toNat) * 4096 < 2 ^ 64 :=
    (front_le_poolEnd sb).trans_lt h.bound
  have hsub : (sb.sBlockCount - sb.sFreeBlocks).toNat =
      sb.sBlockCount.toNat - sb.sFreeBlocks.toNat :=
    UInt64.toNat_sub_of_le _ _ (UInt64.le_iff_toNat_le.mpr hle)
  have hpos : sb.sFreeBlocks > 0 := UInt64.lt_iff_toNat_lt.mpr hf
  have hmul : ((sb.sBlockCount - sb.sFreeBlocks) * 4096).toNat =
      (sb.sBlockCount.toNat - sb.sFreeBlocks.toNat) * 4096 := by
    rw [UInt64.toNat_mul, hsub]
    exact Nat.mod_eq_of_lt ((Nat.le_add_left _ _).trans_lt hlt)
  rw [nextOff, if_pos hpos, UInt64.toNat_add, hmul, Nat.mod_eq_of_lt hlt, front]

theorem nextOff_exhausted (hf : sb.sFreeBlocks = 0) : nextOff sb = sb.sDataOff := by
  simp [nextOff, hf]

/-- The superblock after `n` blocks of the pool have been handed out. -/
def taken (sb : Super) (n : UInt64) : Super := { sb with sFreeBlocks := sb.sFreeBlocks - n }

section taken

variable {n : UInt64} (hn : n ≤ sb.sFreeBlocks)
include hn

theorem taken_free : (taken sb n).sFreeBlocks.toNat = sb.sFreeBlocks.toNat - n.toNat :=
  UInt64.toNat_sub_of_le _ _ hn

theorem taken_front (h : PoolOk sb) : front (taken sb n) = front sb + n.toNat * 4096 := by
  have hle := h.free_le
  have hn' := UInt64.le_iff_toNat_le.mp hn
  rw [front, taken_free hn, front]
  simp only [taken]
  omega

theorem front_le_taken : front sb ≤ front (taken sb n) := by
  rw [front, front, taken_free hn]
  simp only [taken]
  exact Nat.add_le_add_left (Nat.mul_le_mul_right _ (by omega)) _

theorem taken_ok (h : PoolOk sb) : PoolOk (taken sb n) := by
  refine ⟨h.pos, h.aligned, ?_, h.bound⟩
  have := h.free_le
  rw [taken_free hn]
  simp only [taken]
  omega

end taken

variable (env : Env) {fs : Fs}

theorem pageAlloc_free (hf : fs.sb.sFreeBlocks ≠ 0) :
    pageAlloc env fs = some (nextOff fs.sb, { fs with sb := taken fs.sb 1 }) := by
  simp only [pageAlloc, bind_apply, get_apply, Option.bind_some, hf, ↓reduceIte, modify_apply,
    pure_apply, taken]

theorem pageAllocN_free {n : UInt64} (h0 : n ≠ 0) (hn : n ≤ fs.sb.sFreeBlocks) :
    pageAllocN env n fs = some (nextOff fs.sb, { fs with sb := taken fs.sb n }) := by
  by_cases h1 : n = 1
  · subst h1
    have hf : fs.sb.sFreeBlocks ≠ 0 := by
      intro hf
      rw [hf] at hn
      exact absurd hn (by decide)
    rw [pageAllocN, if_neg h0, if_pos rfl, pageAlloc_free env hf]
  · rw [pageAllocN, if_neg h0, if_neg h1]
    simp only [bind_apply, get_apply, Option.bind_some, ge_iff_le, hn, ↓reduceIte, modify_apply,
      pure_apply, taken]

section answers

variable {env} {fs' : Fs} {off : UInt64}

theorem osFileExtend_frame {size : UInt64} {ok : Bool}
    (h : osFileExtend env size fs = some (ok, fs')) :
    fs'.img.data = fs.img.data ∧ fs'.sb = fs.sb := by
  rw [osFileExtend] at h
  obtain ⟨r, fs₁, hsize, h⟩ := of_bind h
  obtain ⟨-, rfl⟩ := Prod.mk.inj (Option.some.inj hsize)
  cases r with
  | none =>
    obtain ⟨-, rfl⟩ := Prod.mk.inj (Option.some.inj h)
    exact ⟨rfl, rfl⟩
  | some cur =>
    simp only [if_apply, pure_apply, bind_apply, tick_apply, Option.bind_some, modify_apply] at h
    split at h
    · obtain ⟨-, rfl⟩ := Prod.mk.inj (Option.some.inj h)
      exact ⟨rfl, rfl⟩
    · split at h
      all_goals
        obtain ⟨-, rfl⟩ := Prod.mk.inj (Option.some.inj h)
        exact ⟨rfl, rfl⟩

/-- The counters after a call of `page_alloc` that returns a block. -/
def allocated (sb : Super) : Super :=
  if sb.sFreeBlocks = 0 then { sb with sBlockCount := sb.sBlockCount + 1 } else taken sb 1

/-- What `page_alloc` answers depends on the counters alone, and no byte changes. -/
theorem pageAlloc_answer (h : pageAlloc env fs = some (off, fs')) :
    (off = 0 ∨ off = nextOff fs.sb ∧ fs'.sb = allocated fs.sb) ∧ fs'.img.data = fs.img.data := by
  by_cases hf : fs.sb.sFreeBlocks = 0
  · simp only [pageAlloc, bind_apply, get_apply, Option.bind_some, hf, ↓reduceIte] at h
    obtain ⟨⟨ok, fs₁⟩, hext, h⟩ := Option.bind_eq_some_iff.mp h
    obtain ⟨hdata, hsb⟩ := osFileExtend_frame hext
    cases ok with
    | false =>
      obtain ⟨rfl, rfl⟩ := Prod.mk.inj (Option.some.inj h)
      exact ⟨.inl rfl, hdata⟩
    | true =>
      obtain ⟨rfl, rfl⟩ := Prod.mk.inj (Option.some.inj h)
      refine ⟨.inr ⟨rfl, ?_⟩, hdata⟩
      rw [allocated, if_pos hf]
      dsimp only
      rw [hsb]
  · rw [pageAlloc_free env hf] at h
    obtain ⟨rfl, rfl⟩ := Prod.mk.inj (Option.some.inj h)
    exact ⟨.inr ⟨rfl, (if_neg hf).symm⟩, rfl⟩

theorem pageAllocN_answer {n : UInt64} (h : pageAllocN env n fs = some (off, fs')) :
    off = 0 ∨ off = nextOff fs.sb := by
  by_cases h0 : n = 0
  · rw [pageAllocN, if_pos h0] at h
    exact .inl (Prod.mk.inj (Option.some.inj h)).1.symm
  by_cases hn : n ≤ fs.sb.sFreeBlocks
  · rw [pageAllocN_free env h0 hn] at h
    exact .inr (Prod.mk.inj (Option.some.inj h)).1.symm
  rw [pageAllocN, if_neg h0] at h
  by_cases h1 : n = 1
  · rw [if_pos h1] at h
    exact (pageAlloc_answer h).1.imp_right And.left
  · simp only [if_neg h1, bind_apply, get_apply, Option.bind_some, ge_iff_le, hn, ↓reduceIte] at h
    obtain ⟨⟨ok, fs₁⟩, -, h⟩ := Option.bind_eq_some_iff.mp h
    cases ok with
    | false => exact .inl (Prod.mk.inj (Option.some.inj h)).1.symm
    | true => exact .inr (Prod.mk.inj (Option.some.inj h)).1.symm

end answers

end Xxfs.Allocator

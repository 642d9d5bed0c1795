import Mathlib.Data.List.Basic
import Xxfs.Checksum
import Xxfs.Lib.ShiftRegister

namespace Xxfs.CrcPaths

open Xxfs.Lib.LittleEndian Xxfs.Checksum Xxfs.Lib.ShiftRegister

/-- Bit `t` of a byte string; the bits of a byte come lowest first. -/
def messageBit (f : ℕ → UInt8) (t : ℕ) : Bool := (f (t / 8)).toNat.testBit (t % 8)

/-- One bit of the message enters the CRC register. -/
def crcBit (c : UInt32) (b : Bool) : UInt32 := crcShift (c ^^^ if b then 1 else 0)

def crcByte (c : UInt32) (b : UInt8) : UInt32 :=
  (List.range 8).foldl (fun c k ↦ crcBit c (b.toNat.testBit k)) c

def crc32cBits (f : ℕ → UInt8) (len : ℕ) : UInt32 :=
  (List.range (8 * len)).foldl (fun c t ↦ crcBit c (messageBit f t)) 0xFFFFFFFF ^^^ 0xFFFFFFFF

/-- The register after `n` bytes from offset `p` on. -/
def foldBytes (f : ℕ → UInt8) (c : UInt32) (p n : ℕ) : UInt32 :=
  (List.range n).foldl (fun c i ↦ crcByte c (f (p + i))) c

section hardware

/-- The CRC instruction of SSE4.2 for operands of one, four and eight bytes. -/
structure CrcUnit where
  crc32qi : UInt32 → UInt8 → UInt32
  crc32si : UInt32 → UInt32 → UInt32
  crc32di : UInt64 → UInt64 → UInt64

/-- The instruction folds the bytes of its operand in little-endian order into the register. -/
structure CrcUnit.Folds (u : CrcUnit) : Prop where
  qi : ∀ c x, u.crc32qi c x = crcByte c x
  si : ∀ c x, u.crc32si c x = foldBytes (leByte x.toNat) c 0 4
  di : ∀ (c : UInt32) x, u.crc32di c.toUInt64 x = (foldBytes (leByte x.toNat) c 0 8).toUInt64

/-- `while (len >= w)`: the state is `crc`, `p` and `len`. -/
def crcLoop (w : ℕ) (step : UInt64 → ℕ → UInt64) (crc : UInt64) (p len : ℕ) : UInt64 × ℕ × ℕ :=
  if 0 < w ∧ w ≤ len then crcLoop w step (step crc p) (p + w) (len - w) else (crc, p, len)
termination_by len

variable (u : CrcUnit)

/-- `xxfs_os_crc32c` as it is built with SSE4.2. -/
def crc32cSse (f : ℕ → UInt8) (len : ℕ) : UInt32 :=
  let (crc, p, len) := crcLoop 8 (fun crc p ↦ u.crc32di crc.toUInt32.toUInt64 (getU64 f p))
    0xFFFFFFFF 0 len
  let (crc, p, len) := crcLoop 4 (fun crc p ↦ (u.crc32si crc.toUInt32 (getU32 f p)).toUInt64)
    crc p len
  let (crc, _, _) := crcLoop 1 (fun crc p ↦ (u.crc32qi crc.toUInt32 (f p)).toUInt64) crc p len
  (crc ^^^ 0xFFFFFFFF).toUInt32

end hardware

section register

/-- The CRC-32C polynomial as the feedback of a register. -/
def poly : BitVec 32 := 0x82F63B78#32

theorem low_bit (c : UInt32) : c &&& 1 = 1 ↔ c.toBitVec.getLsbD 0 = true := by
  rw [← UInt32.toBitVec_inj, UInt32.toBitVec_and]
  change c.toBitVec &&& 1#32 = 1#32 ↔ _
  rw [BitVec.and_one_eq_setWidth_ofBool_getLsbD]
  cases c.toBitVec.getLsbD 0 <;> simp

theorem crcShift_toBitVec (c : UInt32) : (crcShift c).toBitVec = shift poly c.toBitVec := by
  rw [crcShift, shift]
  by_cases h : c &&& 1 = 1
  · rw [if_pos h, if_pos ((low_bit c).mp h)]
    simp [poly]
  · rw [if_neg h, if_neg fun h' ↦ h ((low_bit c).mpr h')]
    simp

theorem crcBit_toBitVec (c : UInt32) (b : Bool) :
    (crcBit c b).toBitVec = feed poly c.toBitVec b := by
  rw [crcBit, crcShift_toBitVec, UInt32.toBitVec_xor, feed]
  cases b <;> rfl

theorem foldl_crcBit {ι : Type} (g : ι → Bool) (is : List ι) (c : UInt32) :
    (is.foldl (fun c i ↦ crcBit c (g i)) c).toBitVec = run poly c.toBitVec (is.map g) := by
  induction is generalizing c with
  | nil => rfl
  | cons i is ih => rw [List.foldl_cons, ih, crcBit_toBitVec]; rfl

theorem crc32cTable_toBitVec (i : UInt32) :
    (crc32cTable i).toBitVec = (shift poly)^[8] i.toBitVec :=
  (Function.Semiconj.iterate_right (f := UInt32.toBitVec) crcShift_toBitVec 8) i

theorem crcByte_eq_crcStep (c : UInt32) (b : UInt8) : crcByte c b = crcStep c b := by
  have hlt := b.toNat_lt
  have hnat : b.toUInt32.toBitVec.toNat = b.toNat := UInt8.toNat_toUInt32 b
  have hbits : (List.range 8).map b.toNat.testBit = lowBits b.toUInt32.toBitVec 8 := by
    rw [lowBits_eq]
    refine List.map_congr_left fun k _ ↦ ?_
    rw [BitVec.getLsbD, hnat]
  have hmask (i : ℕ) : (0xFF#32 : BitVec 32).getLsbD i = decide (i < 8 ∧ i < 32) := by
    rw [BitVec.getLsbD_ofNat, show 0xFF = 2 ^ 8 - 1 from rfl, Nat.testBit_two_pow_sub_one]
    simp [Bool.and_comm]
  have hhigh : b.toUInt32.toBitVec >>> 8 = 0#32 := by
    apply BitVec.eq_of_toNat_eq
    rw [BitVec.toNat_ushiftRight, hnat, Nat.shiftRight_eq_div_pow]
    simp
    omega
  apply UInt32.toBitVec_inj.mp
  rw [crcByte, foldl_crcBit, hbits, run_lowBits _ _ _ (by rw [hnat]; exact hlt),
    iterate_shift_split _ _ _ hmask, BitVec.ushiftRight_xor_distrib, hhigh, BitVec.xor_zero,
    crcStep, UInt32.toBitVec_xor, crc32cTable_toBitVec]
  rfl

theorem crc32c_eq_foldBytes (f : ℕ → UInt8) (len : ℕ) :
    crc32c f len = foldBytes f 0xFFFFFFFF 0 len ^^^ 0xFFFFFFFF := by
  simp only [crc32c, foldBytes, crcByte_eq_crcStep, Nat.zero_add]

end register

section bytes

variable {f g : ℕ → UInt8}

theorem foldBytes_congr {c : UInt32} {p q n : ℕ} (h : ∀ i < n, f (p + i) = g (q + i)) :
    foldBytes f c p n = foldBytes g c q n := by
  refine List.foldl_ext _ _ _ fun c i hi ↦ ?_
  rw [h i (List.mem_range.mp hi)]

theorem foldBytes_add (f : ℕ → UInt8) (c : UInt32) (p n m : ℕ) :
    foldBytes f c p (n + m) = foldBytes f (foldBytes f c p n) (p + n) m := by
  rw [foldBytes, List.range_add, List.foldl_append, List.foldl_map]
  simp only [foldBytes, Nat.add_assoc]

theorem foldBytes_one (f : ℕ → UInt8) (c : UInt32) (p : ℕ) :
    foldBytes f c p 1 = crcByte c (f p) := by
  simp [foldBytes]

theorem foldl_messageBit (f : ℕ → UInt8) (c : UInt32) (n : ℕ) :
    (List.range (8 * n)).foldl (fun c t ↦ crcBit c (messageBit f t)) c = foldBytes f c 0 n := by
  induction n with
  | zero => rfl
  | succ n ih =>
    rw [Nat.mul_succ, List.range_add, List.foldl_append, ih, List.foldl_map, foldBytes_add,
      foldBytes_one, crcByte, Nat.zero_add]
    refine List.foldl_ext _ _ _ fun c k hk ↦ ?_
    have hk' := List.mem_range.mp hk
    rw [messageBit, Nat.mul_add_div (by decide), Nat.mul_add_mod, Nat.div_eq_of_lt hk',
      Nat.mod_eq_of_lt hk', Nat.add_zero]

theorem crc32c_eq_crc32cBits (f : ℕ → UInt8) (len : ℕ) : crc32c f len = crc32cBits f len := by
  rw [crc32c_eq_foldBytes, crc32cBits, foldl_messageBit]

end bytes

section loops

/-- A loop whose step folds `w` bytes folds all bytes up to where it stops. -/
theorem crcLoop_folds {f : ℕ → UInt8} {w : ℕ} {step : UInt64 → ℕ → UInt64}
    (hs : ∀ crc p, (step crc p).toUInt32 = foldBytes f crc.toUInt32 p w) (crc : UInt64)
    (p len : ℕ) : ∃ crc' n, crcLoop w step crc p len = (crc', p + n, len - n) ∧ n ≤ len ∧
      (0 < w → len - n < w) ∧ crc'.toUInt32 = foldBytes f crc.toUInt32 p n := by
  induction crc, p, len using crcLoop.induct w step with
  | case1 crc p len h ih =>
    obtain ⟨crc', n, hl, hn, hlt, hf⟩ := ih
    refine ⟨crc', w + n, ?_, by omega, fun hw ↦ by have := hlt hw; omega, ?_⟩
    · rw [crcLoop, if_pos h, hl, Nat.add_assoc, Nat.sub_add_eq]
    · rw [hf, hs, foldBytes_add]
  | case2 crc p len h =>
    refine ⟨crc, 0, ?_, by omega, fun hw ↦ by omega, rfl⟩
    rw [crcLoop, if_neg h]
    rfl

variable {u : CrcUnit} (hu : u.Folds) {f : ℕ → UInt8}
include hu

theorem Folds.step8 (crc : UInt64) (p : ℕ) :
    (u.crc32di crc.toUInt32.toUInt64 (getU64 f p)).toUInt32 = foldBytes f crc.toUInt32 p 8 := by
  rw [hu.di, UInt32.toUInt32_toUInt64]
  exact foldBytes_congr fun i hi ↦ by
    rw [Nat.zero_add]
    exact leByte_getU64 f p hi

theorem Folds.step4 (crc : UInt64) (p : ℕ) :
    (u.crc32si crc.toUInt32 (getU32 f p)).toUInt64.toUInt32 = foldBytes f crc.toUInt32 p 4 := by
  rw [hu.si, UInt32.toUInt32_toUInt64]
  exact foldBytes_congr fun i hi ↦ by
    rw [Nat.zero_add]
    exact leByte_getU32 f p hi

theorem Folds.step1 (crc : UInt64) (p : ℕ) :
    (u.crc32qi crc.toUInt32 (f p)).toUInt64.toUInt32 = foldBytes f crc.toUInt32 p 1 := by
  rw [hu.qi, foldBytes_one, UInt32.toUInt32_toUInt64]

theorem crc32cSse_eq_foldBytes (len : ℕ) :
    crc32cSse u f len = foldBytes f 0xFFFFFFFF 0 len ^^^ 0xFFFFFFFF := by
  obtain ⟨c₁, n₁, h₁, hle₁, -, hf₁⟩ := crcLoop_folds (Folds.step8 hu (f := f)) 0xFFFFFFFF 0 len
  obtain ⟨c₂, n₂, h₂, hle₂, -, hf₂⟩ :=
    crcLoop_folds (Folds.step4 hu (f := f)) c₁ (0 + n₁) (len - n₁)
  obtain ⟨c₃, n₃, h₃, hle₃, hlt₃, hf₃⟩ :=
    crcLoop_folds (Folds.step1 hu (f := f)) c₂ (0 + n₁ + n₂) (len - n₁ - n₂)
  have hlen : len = n₁ + n₂ + n₃ := by
    have := hlt₃ Nat.one_pos
    omega
  have hall : c₃.toUInt32 = foldBytes f 0xFFFFFFFF 0 len := by
    have hinit : UInt64.toUInt32 0xFFFFFFFF = 0xFFFFFFFF := rfl
    rw [hf₃, hf₂, hf₁, hlen, foldBytes_add, foldBytes_add, hinit]
    simp only [Nat.zero_add]
  rw [crc32cSse, h₁]
  dsimp only
  rw [h₂]
  dsimp only
  rw [h₃]
  dsimp only
  rw [UInt64.toUInt32_xor, hall]
  rfl

end loops

/-- The two builds of `xxfs_os_crc32c` and the bitwise definition give one CRC. -/
theorem crc_paths_agree {u : CrcUnit} (hu : u.Folds) (f : ℕ → UInt8) (len : ℕ) :
    crc32cSse u f len = crc32c f len ∧ crc32c f len = crc32cBits f len :=
  ⟨by rw [crc32cSse_eq_foldBytes hu, crc32c_eq_foldBytes], crc32c_eq_crc32cBits f len⟩

def softUnit : CrcUnit where
  crc32qi := crcByte
  crc32si c x := foldBytes (leByte x.toNat) c 0 4
  crc32di c x := (foldBytes (leByte x.toNat) c.toUInt32 0 8).toUInt64

theorem crc_paths_agree_soft : crc32cSse softUnit (fun i ↦ UInt8.ofNat (i * i)) 15 =
      crc32c (fun i ↦ UInt8.ofNat (i * i)) 15 ∧
    crc32c (fun i ↦ UInt8.ofNat (i * i)) 15 = crc32cBits (fun i ↦ UInt8.ofNat (i * i)) 15 :=
  crc_paths_agree (u := softUnit) ⟨fun _ _ ↦ rfl, fun _ _ ↦ rfl, fun c x ↦ by
    simp [softUnit]⟩ _ 15

section bursts

variable {f e : ℕ → UInt8} {len : ℕ}

theorem messageBit_xor (f e : ℕ → UInt8) (t : ℕ) :
    messageBit (fun i ↦ f i ^^^ e i) t = (messageBit f t ^^ messageBit e t) := by
  rw [messageBit, UInt8.toNat_xor, Nat.testBit_xor]
  rfl

theorem poly_msb : poly.msb = true := by decide

/-- The damage of a string shows in the CRC as it does in a register that starts clear. -/
theorem crc32c_xor (f e : ℕ → UInt8) (len : ℕ) :
    (crc32c (fun i ↦ f i ^^^ e i) len).toBitVec = (crc32c f len).toBitVec ^^^
      run poly 0#32 ((List.range (8 * len)).map (messageBit e)) := by
  have hmap : (List.range (8 * len)).map (messageBit fun i ↦ f i ^^^ e i) =
      (List.range (8 * len)).map fun t ↦ messageBit f t ^^ messageBit e t :=
    List.map_congr_left fun t _ ↦ messageBit_xor f e t
  rw [crc32c_eq_crc32cBits, crc32c_eq_crc32cBits, crc32cBits, crc32cBits, UInt32.toBitVec_xor,
    UInt32.toBitVec_xor, foldl_crcBit, foldl_crcBit, hmap]
  generalize (0xFFFFFFFF : UInt32).toBitVec = c
  have hrun := run_map_xor poly (messageBit f) (messageBit e) (List.range (8 * len)) c 0#32
  rw [BitVec.xor_zero] at hrun
  rw [hrun]
  ac_rfl

/-- Flipped bits that lie within 32 consecutive positions change the CRC of both builds. -/
theorem burst_detected (hne : ∃ t < 8 * len, messageBit e t = true)
    (hburst : ∃ s, ∀ t < 8 * len, messageBit e t = true → s ≤ t ∧ t < s + 32) :
    crc32c (fun i ↦ f i ^^^ e i) len ≠ crc32c f len ∧
      ∀ u : CrcUnit, u.Folds → crc32cSse u (fun i ↦ f i ^^^ e i) len ≠ crc32cSse u f len := by
  obtain ⟨s, hin⟩ := hburst
  have htable : crc32c (fun i ↦ f i ^^^ e i) len ≠ crc32c f len := by
    intro h
    have hx := crc32c_xor f e len
    rw [h] at hx
    refine run_burst_ne poly poly_msb hin hne ((BitVec.xor_right_inj (crc32c f len).toBitVec).mp ?_)
    rw [← hx, BitVec.xor_zero]
  refine ⟨htable, fun u hu h ↦ htable ?_⟩
  rwa [crc32cSse_eq_foldBytes hu, crc32cSse_eq_foldBytes hu, ← crc32c_eq_foldBytes,
    ← crc32c_eq_foldBytes] at h

/-- A burst over five bytes of a string of zeros. -/
theorem burst_detected_five :
    crc32c (fun i ↦ 0 ^^^ if i = 1 then 0x80 else if i < 5 then 0 else if i = 5 then 0x7F else 0) 9 ≠
        crc32c (fun _ ↦ 0) 9 ∧
      ∀ u : CrcUnit, u.Folds →
        crc32cSse u (fun i ↦ 0 ^^^ if i = 1 then 0x80 else if i < 5 then 0 else
          if i = 5 then 0x7F else 0) 9 ≠ crc32cSse u (fun _ ↦ 0) 9 :=
  burst_detected (f := fun _ ↦ 0) ⟨15, by decide, by decide⟩ ⟨15, by decide⟩

end bursts

end Xxfs.CrcPaths

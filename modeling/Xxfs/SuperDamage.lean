import Xxfs.CrcPaths
import Xxfs.FreshVolume

namespace Xxfs.SuperDamage

open Xxfs.DiskFormat Xxfs.Machine Xxfs.Volume Xxfs.Checksum Xxfs.CrcPaths Xxfs.FreshVolume
open Xxfs.Lib.LittleEndian Xxfs.Lib.ShiftRegister Xxfs.Lib.Computation Xxfs.Lib.Computation.Comp

/-- The image with bit `k` of byte `i` turned over. -/
def damaged (img : Image) (i k : ℕ) : Image :=
  img.write (fun _ ↦ img.data i ^^^ UInt8.ofNat (2 ^ k)) 1 i

/-- The end of `s_pdir_depth`, the last field that `xxfs_mount` uses. -/
def usedEnd : ℕ := 225

/-- `super_read` refuses the superblock, or reads the fields of `s`. -/
def Noticed (env : Env) (s : Super) (fs : Fs) : Prop :=
  ∃ rc fs', superRead env fs = some (rc, fs') ∧
    (rc = .eio ∨ ∀ j < usedEnd, fs'.sb.encode j = s.encode j)

section flips

variable {f : ℕ → UInt8}

def flipAt (f : ℕ → UInt8) (t : ℕ) : ℕ → UInt8 := flipBit f 0 t

theorem flipAt_other {t i : ℕ} (h : i ≠ t / 8) : flipAt f t i = f i := by
  rw [flipAt, flipBit, if_neg (by omega)]

theorem flipAt_self (f : ℕ → UInt8) (t : ℕ) :
    flipAt f t (t / 8) = f (t / 8) ^^^ UInt8.ofNat (2 ^ (t % 8)) := by
  rw [flipAt, flipBit, if_pos (by omega)]

theorem flipBit_word (f : ℕ → UInt8) (i b : ℕ) : flipBit f (8 * i) b = flipAt f (64 * i + b) := by
  have h₁ : (64 * i + b) / 8 = 8 * i + b / 8 := by omega
  have h₂ : (64 * i + b) % 8 = b % 8 := by omega
  funext j
  rw [flipAt, flipBit, flipBit, h₁, h₂, Nat.zero_add]

theorem flipAt_flipAt (f : ℕ → UInt8) (t : ℕ) : flipAt (flipAt f t) t = f := by
  funext i
  by_cases h : i = t / 8
  · rw [h, flipAt_self, flipAt_self, UInt8.xor_assoc, UInt8.xor_self, UInt8.xor_zero]
  · rw [flipAt_other h, flipAt_other h]

theorem messageBit_flipAt (f : ℕ → UInt8) (t j : ℕ) :
    messageBit (flipAt f t) j = if j = t then !messageBit f j else messageBit f j := by
  have hmask : (UInt8.ofNat (2 ^ (t % 8))).toNat = 2 ^ (t % 8) := by
    rw [UInt8.toNat_ofNat']
    exact Nat.mod_eq_of_lt (Nat.pow_lt_pow_right (by decide) (Nat.mod_lt t (by decide)))
  by_cases hb : j / 8 = t / 8
  · rw [messageBit, messageBit, hb, flipAt_self, UInt8.toNat_xor, Nat.testBit_xor, hmask,
      Nat.testBit_two_pow]
    by_cases hj : j = t
    · simp [hj]
    · have hne : t % 8 ≠ j % 8 := by omega
      simp [hj, hne]
  · have hj : j ≠ t := fun h ↦ hb (by rw [h])
    rw [messageBit, flipAt_other hb, if_neg hj]
    rfl

theorem flipAt_ne (f : ℕ → UInt8) (t : ℕ) : flipAt f t (t / 8) ≠ f (t / 8) := by
  intro h
  have hbit := messageBit_flipAt f t t
  rw [if_pos rfl, messageBit, h] at hbit
  exact absurd hbit (by rw [messageBit]; simp)

end flips

section crc

variable (f : ℕ → UInt8) {len : ℕ}

theorem crc32c_ne_of_run {g : ℕ → UInt8}
    (h : run poly 0xFFFFFFFF#32 ((List.range (8 * len)).map (messageBit g)) ≠
      run poly 0xFFFFFFFF#32 ((List.range (8 * len)).map (messageBit f))) :
    crc32c g len ≠ crc32c f len := by
  intro hcrc
  rw [crc32c_eq_crc32cBits, crc32c_eq_crc32cBits, crc32cBits, crc32cBits] at hcrc
  have hreg := congrArg UInt32.toBitVec ((UInt32.xor_left_inj _).mp hcrc)
  rw [foldl_crcBit, foldl_crcBit] at hreg
  exact h hreg

theorem iterate_shift_poly : ∀ d < 64, d ≠ 0 → (shift poly)^[d] 1#32 ≠ 1#32 := by
  decide +kernel

theorem crc32c_flipAt_ne {t : ℕ} (ht : t < 8 * len) : crc32c (flipAt f t) len ≠ crc32c f len :=
  crc32c_ne_of_run f (run_range_flip_ne poly_msb _ ht (messageBit_flipAt f t))

theorem messageBit_flips {t t' : ℕ} (h : t ≠ t') (j : ℕ) :
    messageBit (flipAt (flipAt f t) t') j =
      if j = t ∨ j = t' then !messageBit f j else messageBit f j := by
  rw [messageBit_flipAt, messageBit_flipAt]
  by_cases h₁ : j = t
  · simp [h₁, h]
  · by_cases h₂ : j = t'
    · simp [h₂, h.symm]
    · simp [h₁, h₂]

theorem crc32c_flips_ne {t t' : ℕ} (h : t ≠ t') (hw : t / 64 = t' / 64) (ht : t < 8 * len)
    (ht' : t' < 8 * len) : crc32c (flipAt (flipAt f t) t') len ≠ crc32c f len := by
  have hbits := messageBit_flips f h
  rcases Nat.lt_or_gt_of_ne h with h | h
  · exact crc32c_ne_of_run f (run_range_flips_ne poly_msb _ h ht' hbits
      (iterate_shift_poly _ (by omega) (by omega)))
  · refine crc32c_ne_of_run f (run_range_flips_ne poly_msb _ h ht (fun j ↦ ?_)
      (iterate_shift_poly _ (by omega) (by omega)))
    rw [hbits]
    simp only [or_comm]

end crc

section ecc

variable (f computed : ℕ → UInt8) (eccAt : ℕ)

theorem eccFix_skip (c : Bool) (m n i : ℕ) (h : ∀ j < m, f (eccAt + (i + j)) = computed (i + j)) :
    eccFix computed eccAt (m + n) i c f = eccFix computed eccAt n (i + m) c f := by
  induction m generalizing i with
  | zero => rw [Nat.zero_add, Nat.add_zero]
  | succ m ih =>
    have h0 : f (eccAt + i) ^^^ computed i = 0 := by
      have := h 0 (by omega)
      rw [Nat.add_zero] at this
      rw [this, UInt8.xor_self]
    rw [Nat.add_right_comm, eccFix]
    dsimp only
    rw [if_pos h0, ih (i + 1) fun j hj ↦ ?_]
    · congr 1
      omega
    · have := h (j + 1) (by omega)
      rwa [Nat.add_comm j 1, ← Nat.add_assoc i 1 j] at this

theorem eccFix_clean (c : Bool) (n i : ℕ) (h : ∀ j < n, f (eccAt + (i + j)) = computed (i + j)) :
    eccFix computed eccAt n i c f = (if c then .corrected else .ok, f) := by
  have := eccFix_skip f computed eccAt c n 0 i h
  rw [Nat.add_zero] at this
  rw [this]
  rfl

theorem eccFix_one {n w : ℕ} (hw : w < n) (hecc : 8 * n ≤ eccAt)
    (h : ∀ j < n, j ≠ w → f (eccAt + j) = computed j) :
    (eccFix computed eccAt n 0 false f).1 ≠ .corrected ∨
      ∃ b < 64, eccFix computed eccAt n 0 false f = (.corrected, flipAt f (64 * w + b)) := by
  obtain ⟨m, rfl⟩ : ∃ m, n = w + (m + 1) := ⟨n - w - 1, by omega⟩
  have hskip := eccFix_skip f computed eccAt false w (m + 1) 0 fun j hj ↦ h _ (by omega) (by omega)
  rw [hskip, Nat.zero_add, eccFix]
  dsimp only
  split
  · left
    rw [eccFix_clean f computed eccAt false m (w + 1) fun j hj ↦ h _ (by omega) (by omega)]
    simp
  · split
    · split
      · exact .inl (by simp)
      · rename_i hpos
        generalize ((f (eccAt + w) ^^^ computed w) &&& 127).toNat = pos at hpos ⊢
        have hb : pos - 1 < 64 := by omega
        refine .inr ⟨pos - 1, hb, ?_⟩
        rw [flipBit_word, eccFix_clean _ computed eccAt true m (w + 1) fun j hj ↦ ?_]
        · rfl
        · rw [flipAt_other (by omega)]
          exact h _ (by omega) (by omega)
    · exact .inl (by simp)

end ecc

/-- A superblock as `super_write` leaves it: its bytes, checksum and ECC bytes agree. -/
structure Written (s : Super) : Prop where
  crc : crc32c s.encode superCrcOff = getU32 s.encode superCrcOff
  ecc : ∀ i < nwords superCrcOff, s.encode (superEccOff + i) = eccWord s.encode (8 * i)

theorem sChecksum_eq (s : Super) : s.sChecksum = getU32 s.encode superCrcOff :=
  (congrArg Super.sChecksum (Super.decode_encode s)).symm

theorem sEcc_eq (s : Super) (i : Fin 64) : s.encode (superEccOff + i) = s.sEcc i :=
  congrFun (congrArg Super.sEcc (Super.decode_encode s)) i

theorem sMagic_eq (s : Super) : s.sMagic = getU32 s.encode 0 :=
  (congrArg Super.sMagic (Super.decode_encode s)).symm

theorem written_superSetChecksumEcc (s : Super) : Written (superSetChecksumEcc s) := by
  constructor
  · obtain ⟨c, e, hc, he⟩ := superSetChecksumEcc_eq s
    rw [← sChecksum_eq, he, crc_reseal, ← hc]
    rfl
  · intro i hi
    have hi' : i < 26 := hi
    rw [sEcc_eq _ ⟨i, by omega⟩]
    change (if i < nwords superCrcOff then
      eccWord (Super.reseal s (crc32c s.encode superCrcOff) s.sEcc).encode (8 * i) else _) = _
    rw [if_pos hi]
    refine eccWord_congr fun j hj ↦ ?_
    have hlt : 8 * i + j < superCrcOff := by
      rw [superCrcOff]
      omega
    obtain ⟨c, e, -, he⟩ := superSetChecksumEcc_eq s
    rw [he, reseal_encode s _ _ hlt, reseal_encode s _ _ hlt]

/-- What `super_read` makes of the superblock it has read. -/
def readBack (s : Super) : Rc × Super :=
  if crc32c s.encode superCrcOff = s.sChecksum then (magicRc s, s)
  else
    let fixed := eccCorrect s.encode superCrcOff superEccOff
    let s' := Super.decode fixed.2
    if fixed.1 = .corrected ∧ crc32c s'.encode superCrcOff = s'.sChecksum then (magicRc s', s')
    else (.eio, s')

section flipped

variable {s : Super} {t : ℕ}

theorem encode_decode_flipAt (ht : t < 8 * usedEnd) :
    (Super.decode (flipAt s.encode t)).encode = flipAt s.encode t := by
  refine Super.encode_decode fun i hi ↦ ?_
  have : blockSize = 4096 := rfl
  have : usedEnd = 225 := rfl
  rw [flipAt_other (by omega), s.encode_beyond hi]

theorem getU32_flipAt {f : ℕ → UInt8} {o : ℕ} (h : t / 8 < o ∨ o + 4 ≤ t / 8) :
    getU32 (flipAt f t) o = getU32 f o := by
  rw [getU32, getU32, getLE_congr fun j hj ↦ flipAt_other (by omega)]

theorem getU32_flipAt_ne {f : ℕ → UInt8} {o : ℕ} (h : o ≤ t / 8) (h' : t / 8 < o + 4) :
    getU32 (flipAt f t) o ≠ getU32 f o := by
  intro heq
  have hj : t / 8 - o < 4 := by omega
  have hat : o + (t / 8 - o) = t / 8 := by omega
  have h₁ := leByte_getU32 (flipAt f t) o hj
  rw [heq, leByte_getU32 f o hj, hat] at h₁
  exact flipAt_ne f t h₁.symm

variable (hw : Written s)
include hw

theorem stored_ecc (ht : t < 8 * superEccOff) {i : ℕ} (hi : i < nwords superCrcOff)
    (hne : i ≠ t / 64) :
    flipAt s.encode t (superEccOff + i) = eccWord (flipAt s.encode t) (8 * i) := by
  rw [flipAt_other (by omega), hw.ecc i hi]
  exact eccWord_congr fun j hj ↦ (flipAt_other (by omega)).symm

/-- A flip that the checksum covers is taken back, or the superblock is refused: a wrong
correction leaves two flipped bits in one word. -/
theorem readBack_covered (ht : t < 8 * superCrcOff) :
    (readBack (Super.decode (flipAt s.encode t))).1 = .eio ∨
      (readBack (Super.decode (flipAt s.encode t))).2 = s := by
  have h208 : superCrcOff = 208 := rfl
  have h228 : superEccOff = 228 := rfl
  have hn : nwords superCrcOff = 26 := rfl
  have henc := encode_decode_flipAt (s := s) (show t < 8 * usedEnd by rw [usedEnd]; omega)
  have hsum : (Super.decode (flipAt s.encode t)).sChecksum = crc32c s.encode superCrcOff := by
    rw [sChecksum_eq, henc, getU32_flipAt (by omega), hw.crc]
  rw [readBack, henc, hsum, if_neg (crc32c_flipAt_ne _ ht)]
  have hecc := eccFix_one (flipAt s.encode t) (fun i ↦ eccWord (flipAt s.encode t) (8 * i))
    superEccOff (show t / 64 < nwords superCrcOff by omega) (by omega)
    fun j hj hne ↦ stored_ecc hw (by omega) hj hne
  dsimp only
  rcases hecc with hecc | ⟨b, hb, hecc⟩
  · left
    rw [if_neg fun h ↦ hecc h.1]
  · rw [eccCorrect, hecc]
    dsimp only
    by_cases hbit : 64 * (t / 64) + b = t
    · right
      have hs : Super.decode (flipAt (flipAt s.encode t) t) = s := by
        rw [flipAt_flipAt, Super.decode_encode]
      rw [hbit, hs]
      split <;> rfl
    · left
      have hdec : (Super.decode (flipAt (flipAt s.encode t) (64 * (t / 64) + b))).encode =
          flipAt (flipAt s.encode t) (64 * (t / 64) + b) := by
        rw [← henc]
        exact encode_decode_flipAt (by rw [usedEnd]; omega)
      rw [if_neg]
      rintro ⟨-, hcrc⟩
      rw [sChecksum_eq, hdec, getU32_flipAt (by omega), getU32_flipAt (by omega), ← hw.crc] at hcrc
      exact crc32c_flips_ne s.encode (Ne.symm hbit) (by omega) ht (by omega) hcrc

/-- A flip in the checksum itself cannot be corrected: every ECC byte is right. -/
theorem readBack_checksum (ht : 8 * superCrcOff ≤ t) (ht' : t < 8 * (superCrcOff + 4)) :
    (readBack (Super.decode (flipAt s.encode t))).1 = .eio := by
  have h208 : superCrcOff = 208 := rfl
  have h228 : superEccOff = 228 := rfl
  have hn : nwords superCrcOff = 26 := rfl
  have henc := encode_decode_flipAt (s := s) (show t < 8 * usedEnd by rw [usedEnd]; omega)
  have hcrc : crc32c (flipAt s.encode t) superCrcOff = getU32 s.encode superCrcOff := by
    rw [← hw.crc]
    exact crc32c_congr fun i hi ↦ flipAt_other (by omega)
  have hclean := eccFix_clean (flipAt s.encode t) (fun i ↦ eccWord (flipAt s.encode t) (8 * i))
    superEccOff false (nwords superCrcOff) 0 fun j hj ↦ by
      rw [Nat.zero_add]
      exact stored_ecc hw (by omega) hj (by omega)
  rw [readBack, henc, sChecksum_eq, henc, hcrc, if_neg (getU32_flipAt_ne (by omega) (by omega)).symm]
  dsimp only
  rw [eccCorrect, hclean, if_neg (by simp)]

theorem readBack_uncovered (ht : 8 * (superCrcOff + 4) ≤ t) (ht' : t < 8 * usedEnd) :
    readBack (Super.decode (flipAt s.encode t)) =
      (magicRc s, Super.decode (flipAt s.encode t)) := by
  have h208 : superCrcOff = 208 := rfl
  have henc := encode_decode_flipAt (s := s) ht'
  have hcrc : crc32c (flipAt s.encode t) superCrcOff = getU32 s.encode superCrcOff := by
    rw [← hw.crc]
    exact crc32c_congr fun i hi ↦ flipAt_other (by omega)
  have hmagic : magicRc (Super.decode (flipAt s.encode t)) = magicRc s := by
    rw [magicRc, magicRc, sMagic_eq, henc, getU32_flipAt (by omega), ← sMagic_eq]
  rw [readBack, henc, sChecksum_eq, henc, hcrc, getU32_flipAt (by omega), if_pos rfl, hmagic]

theorem readBack_iff (ht : t < 8 * usedEnd) :
    ((readBack (Super.decode (flipAt s.encode t))).1 = .eio ∨ ∀ j < usedEnd,
      (readBack (Super.decode (flipAt s.encode t))).2.encode j = s.encode j) ↔
      s.sMagic ≠ xxfsMagic ∨ t < 8 * (superCrcOff + 4) := by
  have h208 : superCrcOff = 208 := rfl
  rcases Nat.lt_or_ge t (8 * (superCrcOff + 4)) with h | h
  · refine ⟨fun _ ↦ .inr h, fun _ ↦ ?_⟩
    rcases Nat.lt_or_ge t (8 * superCrcOff) with h' | h'
    · rcases readBack_covered hw h' with hr | hr
      · exact .inl hr
      · exact .inr fun j _ ↦ by rw [hr]
    · exact .inl (readBack_checksum hw h' h)
  · rw [readBack_uncovered hw h ht]
    dsimp only
    constructor
    · rintro (hrc | hsame)
      · left
        intro hm
        rw [magicRc, if_neg (not_not.mpr hm)] at hrc
        cases hrc
      · have := hsame (t / 8) (by omega)
        rw [encode_decode_flipAt ht] at this
        exact (flipAt_ne _ _ this).elim
    · rintro (hm | hlt)
      · exact .inl (if_pos hm)
      · omega

end flipped

section read

variable {env : Env} {fs : Fs}

theorem osPwrite_sb (env : Env) (src : ℕ → UInt8) (len : ℕ) (off : UInt64) (fs : Fs) :
    ∃ b fs', osPwrite env src len off fs = some (b, fs') ∧ fs'.sb = fs.sb := by
  rw [osPwrite, bind_apply, tick_apply, Option.bind_some]
  dsimp only
  split
  · exact ⟨_, _, rfl, rfl⟩
  · exact ⟨_, _, rfl, rfl⟩

/-- A successful read of the block decides what `super_read` answers. -/
theorem superRead_readBack (hio : env.io fs.clock = true) (hsize : blockSize ≤ fs.img.size)
    {f : ℕ → UInt8} (hf : ∀ i < blockSize, fs.img.data i = f i) : ∃ fs',
      superRead env fs = some ((readBack (Super.decode f)).1, fs') ∧
      fs'.sb = (readBack (Super.decode f)).2 := by
  have e0 : UInt64.toNat 0 = 0 := rfl
  have hmin : min blockSize (fs.img.size - UInt64.toNat 0) = blockSize := by omega
  have hread := osPread_of_io fs hio (fun _ ↦ 0) blockSize 
    (show UInt64.toNat 0 < 2 ^ 63 by decide)
  rw [hmin] at hread
  have hdec : Super.decode (fun i ↦ if i < blockSize then fs.img.data (UInt64.toNat 0 + i) else 0) =
      Super.decode f := by
    refine Super.decode_congr fun i hi ↦ ?_
    rw [if_pos hi, e0, Nat.zero_add, hf i hi]
  rw [superRead, bind_apply, hread, Option.bind_some]
  dsimp only
  rw [hdec, if_neg (Nat.lt_irrefl _)]
  generalize Super.decode f = s
  rw [readBack]
  -- the branches are chosen before the sequence is run, so that no checksum is evaluated
  by_cases hcrc : crc32c s.encode superCrcOff = s.sChecksum
  · rw [if_pos hcrc, if_pos hcrc]
    exact ⟨_, rfl, rfl⟩
  · rw [if_neg hcrc, if_neg hcrc]
    dsimp only
    generalize eccCorrect s.encode superCrcOff superEccOff = fixed
    generalize Super.decode fixed.2 = s'
    by_cases hfix : fixed.1 = .corrected ∧ crc32c s'.encode superCrcOff = s'.sChecksum
    · rw [if_pos hfix, if_pos hfix]
      obtain ⟨b, fs', hw, hsb⟩ := osPwrite_sb env s'.encode blockSize 0
        { fs with sb := s', clock := fs.clock + 1 }
      refine ⟨fs', ?_, hsb⟩
      simp only [bind_apply, modify_apply, Option.bind_some, discard_apply]
      rw [hw]
      rfl
    · rw [if_neg hfix, if_neg hfix]
      exact ⟨_, rfl, rfl⟩

theorem superRead_failed (hio : env.io fs.clock = false) :
    superRead env fs = some (.eio, { fs with clock := fs.clock + 1 }) := by
  simp [superRead, osPread, hio]

theorem damaged_data {img : Image} {f : ℕ → UInt8} {n i k : ℕ} (hf : ∀ j < n, img.data j = f j)
    (hi : i < n) (hk : k < 8) : ∀ j < n, (damaged img i k).data j = flipAt f (8 * i + k) j := by
  intro j hj
  have hdiv : (8 * i + k) / 8 = i := by omega
  have hmod : (8 * i + k) % 8 = k := by omega
  by_cases h : j = i
  · subst h
    have hself := flipAt_self f (8 * j + k)
    rw [hdiv, hmod] at hself
    rw [damaged, Image.write_in _ _ le_rfl (by omega), hf j hj, hself]
  · rw [damaged, Image.write_out _ _ (by omega), flipAt_other (by omega), hf j hj]

theorem damaged_size {img : Image} {i : ℕ} (k : ℕ) (hi : i < img.size) :
    (damaged img i k).size = img.size := by
  simp only [damaged, Image.write, one_ne_zero, ↓reduceIte]
  omega

end read

section write

variable {env : Env} (he : Healthy env) {fs fs₁ : Fs}
include he

/-- What `super_write` puts on the image is the superblock it leaves in memory, sealed. -/
theorem superWrite_written (h : superWrite env fs = some ((), fs₁)) : Written fs₁.sb ∧
    (∀ i < blockSize, fs₁.img.data i = fs₁.sb.encode i) ∧ blockSize ≤ fs₁.img.size := by
  obtain ⟨_, fs₂, -, h⟩ := of_bind h
  obtain ⟨_, fs₃, hseal, h⟩ := of_bind h
  obtain ⟨-, rfl⟩ := Prod.mk.inj (Option.some.inj hseal)
  simp only [bind_apply, get_apply, Option.bind_some, discard_apply] at h
  rw [he.osPwrite_apply _ _ _ (by decide)] at h
  obtain ⟨-, rfl⟩ := Prod.mk.inj (Option.some.inj h)
  refine ⟨written_superSetChecksumEcc _, fun i hi ↦ ?_, ?_⟩
  · exact Image.write_in _ _ (Nat.zero_le i) (by simpa using hi)
  · simp only [Image.write]
    rw [if_neg (by decide)]
    exact le_trans (Nat.le_add_left _ _) (le_max_right _ _)

theorem noticed_iff_readBack (h : superWrite env fs = some ((), fs₁)) {i k : ℕ}
    (hi : i < usedEnd) (hk : k < 8) {env' : Env} {fs₂ : Fs}
    (himg : fs₂.img = damaged fs₁.img i k) (hio : env'.io fs₂.clock = true) :
    Noticed env' fs₁.sb fs₂ ↔ fs₁.sb.sMagic ≠ xxfsMagic ∨ i < superCrcOff + 4 := by
  obtain ⟨hw, hdata, hsize⟩ := superWrite_written he h
  have hue : usedEnd = 225 := rfl
  have hbs : blockSize = 4096 := rfl
  have hread := superRead_readBack hio (by rw [himg, damaged_size k (by omega)]; exact hsize)
    (by rw [himg]; exact damaged_data hdata (by omega) hk)
  obtain ⟨fs₃, hr, hsb⟩ := hread
  have hiff := readBack_iff hw (show 8 * i + k < 8 * usedEnd by omega)
  have hlt : 8 * i + k < 8 * (superCrcOff + 4) ↔ i < superCrcOff + 4 := by omega
  rw [hlt] at hiff
  rw [← hiff, ← hsb]
  constructor
  · rintro ⟨rc, fs', hrun, hout⟩
    obtain ⟨rfl, rfl⟩ := Prod.mk.inj (Option.some.inj (hrun.symm.trans hr))
    exact hout
  · intro hout
    exact ⟨_, fs₃, hr, hout⟩

/-- A flipped bit is noticed exactly if it lies in the checksum or in front of it, unless the
read fails or the magic number was never valid: the place, size and depth of the page directory
are behind the checksum. -/
theorem damage_noticed_iff (h : superWrite env fs = some ((), fs₁)) {i k : ℕ} (hi : i < usedEnd)
    (hk : k < 8) {env' : Env} {fs₂ : Fs} (himg : fs₂.img = damaged fs₁.img i k) :
    Noticed env' fs₁.sb fs₂ ↔
      env'.io fs₂.clock = false ∨ fs₁.sb.sMagic ≠ xxfsMagic ∨ i < superCrcOff + 4 := by
  cases hio : env'.io fs₂.clock with
  | true =>
    rw [noticed_iff_readBack he h hi hk himg hio]
    simp
  | false => exact ⟨fun _ ↦ .inl rfl, fun _ ↦ ⟨.eio, _, superRead_failed hio, .inl rfl⟩⟩

end write

theorem superWrite_fresh : ∃ fs₁, superWrite steady (freshFs steady 1 0) = some ((), fs₁) ∧
    fs₁.sb.sMagic = xxfsMagic := by
  have hs : FreshSuper (freshFs steady 1 0).sb _ := fresh_super 1 0
  have hd := dataStart_bounds (totalBlocks 1)
  have hoff : (freshFs steady 1 0).sb.sPdirOff.toNat = (dataStart (totalBlocks 1)).toNat + 8192 := by
    rw [hs.pdirOff]
    exact dataStart_add _ 8192 (by decide)
  have hne : (freshFs steady 1 0).sb.sPdirOff ≠ 0 := fun h ↦ by
    rw [h] at hoff
    change 0 = _ at hoff
    omega
  have hdir : (freshFs steady 1 0).pdir = ⟨[dataStart (totalBlocks 1) + 4096], 0⟩ := rfl
  have hmagic := hs.magic
  generalize freshFs steady 1 0 = fs at hoff hne hdir hmagic
  generalize hsb : ({ fs.sb with sPdirSize := 1, sPdirDepth := 0 } : Super) = sb
  obtain ⟨c, e, -, hseal⟩ := superSetChecksumEcc_eq sb
  refine ⟨_, superWrite_apply steady_healthy hdir hne (by omega) hsb, ?_⟩
  rw [hseal, ← hsb]
  exact hmagic

/-- The first bit of `s_magic` of a fresh superblock. -/
theorem damage_noticed_magic : ∃ fs₁, superWrite steady (freshFs steady 1 0) = some ((), fs₁) ∧
    (Noticed steady fs₁.sb { fs₁ with img := damaged fs₁.img 0 0 } ↔
      steady.io fs₁.clock = false ∨ fs₁.sb.sMagic ≠ xxfsMagic ∨ 0 < superCrcOff + 4) := by
  obtain ⟨fs₁, h, -⟩ := superWrite_fresh
  exact ⟨fs₁, h, damage_noticed_iff steady_healthy h (by decide) (by decide) rfl⟩

/-- The first bit of `s_pdir_off`: `super_read` accepts the wrong place of the directory. -/
theorem damage_pdirOff_accepted : ¬∀ (env : Env) (fs fs₁ fs₂ : Fs) (i k : ℕ), Healthy env →
    superWrite env fs = some ((), fs₁) → i < usedEnd → k < 8 →
    fs₂.img = damaged fs₁.img i k → Noticed env fs₁.sb fs₂ := by
  intro hall
  obtain ⟨fs₁, h, hm⟩ := superWrite_fresh
  have hn := hall steady _ fs₁ { fs₁ with img := damaged fs₁.img 212 0 } 212 0 steady_healthy h
    (by decide) (by decide) rfl
  rcases (noticed_iff_readBack steady_healthy h (by decide) (by decide) rfl rfl).mp hn with h' | h'
  · exact h' hm
  · exact absurd h' (by decide)

end Xxfs.SuperDamage

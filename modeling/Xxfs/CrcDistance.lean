import Mathlib.NumberTheory.LucasLehmer
import Xxfs.CrcPaths
import Xxfs.EccRepair
import Xxfs.Lib.LinearRegister

namespace Xxfs.CrcPaths

open Function
open Xxfs.EccRepair hiding flips
open Xxfs.DiskFormat Xxfs.Checksum Xxfs.Lib.LittleEndian Xxfs.Lib.ShiftRegister Xxfs.Lib.LinearRegister

/-- How many bits of the first `len` bytes an error flips. -/
def flips (e : ℕ → UInt8) (len : ℕ) : ℕ := (List.range (8 * len)).countP (messageBit e)

/-- No string has the CRC that it has with the error, in neither build. -/
def Detected (e : ℕ → UInt8) (len : ℕ) : Prop :=
  ∀ f : ℕ → UInt8, crc32c (fun i ↦ f i ^^^ e i) len ≠ crc32c f len ∧
    ∀ u : CrcUnit, u.Folds → crc32cSse u (fun i ↦ f i ^^^ e i) len ≠ crc32cSse u f len

section distance

variable {e : ℕ → UInt8} {len : ℕ}

theorem poly_odd : oddWord poly = true := by decide

theorem poly_round : combine (doubled^[31] (columns (shift poly))) 1#32 = shift poly 1#32 := by
  decide +kernel

theorem mersenne_prime : (2 ^ 31 - 1).Prime := lucas_lehmer_sufficiency 31 (by norm_num) (by norm_num)

/-- The register comes round to one after `2 ^ 31 - 1` shifts and not before. -/
theorem poly_period : minimalPeriod (shift poly) 1#32 = 2 ^ 31 - 1 :=
  minimalPeriod_shift poly_msb mersenne_prime poly_round (by decide)

/-- An error is detected if it does not take a clear register back to zero. -/
theorem detected_iff : Detected e len ↔
    run poly 0#32 ((List.range (8 * len)).map (messageBit e)) ≠ 0#32 := by
  constructor
  · intro h h0
    have hx := crc32c_xor (fun _ ↦ 0) e len
    rw [h0, BitVec.xor_zero] at hx
    exact (h fun _ ↦ 0).1 (UInt32.toBitVec_inj.mp hx)
  · intro h f
    have htable : crc32c (fun i ↦ f i ^^^ e i) len ≠ crc32c f len := by
      intro heq
      have hx := crc32c_xor f e len
      rw [heq] at hx
      refine h ((BitVec.xor_right_inj (crc32c f len).toBitVec).mp ?_)
      rw [← hx, BitVec.xor_zero]
    refine ⟨htable, fun u hu heq ↦ htable ?_⟩
    rwa [crc32cSse_eq_foldBytes hu, crc32cSse_eq_foldBytes hu, ← crc32c_eq_foldBytes,
      ← crc32c_eq_foldBytes] at heq

theorem odd_detected (h : Odd (flips e len)) : Detected e len := by
  refine detected_iff.mpr (run_odd_ne poly_odd ((odds_iff _).mpr ?_))
  rwa [List.countP_map, Function.id_comp]

theorem flips_two (h : flips e len = 2) : ∃ t t', t < t' ∧ t' < 8 * len ∧
    (List.range (8 * len)).map (messageBit e) =
      (List.range (8 * len)).map fun j ↦ decide (j = t) ^^ decide (j = t') := by
  rw [flips, List.countP_eq_length_filter] at h
  obtain ⟨t, t', hpair⟩ := List.length_eq_two.mp h
  have hsorted : ((List.range (8 * len)).filter (messageBit e)).Pairwise (· < ·) :=
    List.pairwise_lt_range.filter _
  have hmem (j : ℕ) : j ∈ [t, t'] ↔ j < 8 * len ∧ messageBit e j = true := by
    rw [← hpair, List.mem_filter, List.mem_range]
  rw [hpair] at hsorted
  have htt : t < t' := List.rel_of_pairwise_cons hsorted (List.mem_singleton.mpr rfl)
  refine ⟨t, t', htt, ((hmem t').mp (by simp)).1, List.map_congr_left fun j hj ↦ ?_⟩
  have hbit : messageBit e j = true ↔ j = t ∨ j = t' := by
    have := hmem j
    simpa [List.mem_range.mp hj, iff_comm] using this
  rw [Bool.eq_iff_iff, hbit]
  rcases eq_or_ne j t with rfl | hne
  · simp [htt.ne]
  · simp [hne]

theorem pair_detected (h : flips e len = 2) (hlen : 8 * len < 2 ^ 31) : Detected e len := by
  obtain ⟨t, t', htt, ht, hmap⟩ := flips_two h
  rw [detected_iff, hmap, Ne, run_pair_eq_zero_iff poly_msb htt ht]
  refine not_isPeriodicPt_of_pos_of_lt_minimalPeriod (by omega) ?_
  rw [poly_period]
  omega

/-- The first bit of a string, and the one at which the register has come round. -/
def farPair (i : ℕ) : UInt8 := if i = 0 then 1 else if i = 2 ^ 28 - 1 then 0x80 else 0

theorem messageBit_farPair (j : ℕ) :
    messageBit farPair j = (decide (j = 0) ^^ decide (j = 2 ^ 31 - 1)) := by
  have hlow (k : ℕ) (hk : k < 8) : (1 : UInt8).toNat.testBit k = decide (k = 0) := by
    revert k
    decide
  have hhigh (k : ℕ) (hk : k < 8) : (0x80 : UInt8).toNat.testBit k = decide (k = 7) := by
    revert k
    decide
  have h8 := Nat.mod_lt j (show 0 < 8 by decide)
  rw [messageBit, farPair]
  split
  · rw [hlow _ h8, decide_eq_false (show j ≠ 2 ^ 31 - 1 by omega), Bool.xor_false, decide_eq_decide]
    omega
  · split
    · rw [hhigh _ h8, decide_eq_false (show j ≠ 0 by omega), Bool.false_xor, decide_eq_decide]
      omega
    · rw [decide_eq_false (show j ≠ 0 by omega), decide_eq_false (show j ≠ 2 ^ 31 - 1 by omega)]
      exact Nat.zero_testBit _

theorem flips_farPair (hlen : 2 ^ 31 ≤ 8 * len) : flips farPair len = 2 := by
  have hpair : (Finset.range (8 * len)).filter (fun j ↦ messageBit farPair j = true) = {0, 2 ^ 31 - 1} := by
    ext j
    rw [Finset.mem_filter, Finset.mem_range, messageBit_farPair, Finset.mem_insert, Finset.mem_singleton]
    rcases eq_or_ne j 0 with rfl | hne
    · simp
      omega
    · simp [hne]
      omega
  have hcard : flips farPair len =
      ((Finset.range (8 * len)).filter fun j ↦ messageBit farPair j = true).card := by
    rw [flips, List.countP_eq_length_filter, ← List.toFinset_card_of_nodup (List.nodup_range.filter _),
      List.toFinset_filter, List.toFinset_range]
  rw [hcard, hpair]
  rfl

/-- Every odd number of flipped bits changes the CRC of both builds, in a string of any length; two
flipped bits always do if and only if the string has less than `2 ^ 31` bits. -/
theorem flips_detected (len : ℕ) : (∀ e, Odd (flips e len) → Detected e len) ∧
    ((∀ e, flips e len = 2 → Detected e len) ↔ 8 * len < 2 ^ 31) := by
  refine ⟨fun e ↦ odd_detected, fun h ↦ ?_, fun hlen e h ↦ pair_detected h hlen⟩
  by_contra hlong
  have hfar := h farPair (flips_farPair (Nat.le_of_not_lt hlong))
  have hmap : (List.range (8 * len)).map (messageBit farPair) =
      (List.range (8 * len)).map fun j ↦ decide (j = 0) ^^ decide (j = 2 ^ 31 - 1) :=
    List.map_congr_left fun j _ ↦ messageBit_farPair j
  rw [detected_iff, hmap, Ne, run_pair_eq_zero_iff poly_msb (by decide) (by omega)] at hfar
  refine hfar ?_
  have hround := isPeriodicPt_minimalPeriod (shift poly) 1#32
  rw [poly_period] at hround
  exact hround

end distance

section inodes

variable {n n' : Inode}

/-- The bits in which two inodes differ ahead of the checksum. -/
def distance (n n' : Inode) : ℕ := flips (fun i ↦ n.encode i ^^^ n'.encode i) inoCrcOff

theorem distance_eq_zero_iff : distance n n' = 0 ↔ ∀ i < inoCrcOff, n.encode i = n'.encode i := by
  rw [distance, flips, List.countP_eq_zero]
  constructor
  · intro h i hi
    refine UInt8.toNat_inj.mp (Nat.eq_of_testBit_eq fun k ↦ ?_)
    by_cases hk : k < 8
    · have hbit := h (8 * i + k) (List.mem_range.mpr (by omega))
      have hdiv : (8 * i + k) / 8 = i := by omega
      have hmod : (8 * i + k) % 8 = k := by omega
      rw [messageBit_xor, messageBit, messageBit, hdiv, hmod] at hbit
      simpa using hbit
    · have hlarge : 2 ^ 8 ≤ 2 ^ k := Nat.pow_le_pow_right (by decide) (Nat.le_of_not_lt hk)
      rw [Nat.testBit_lt_two_pow ((n.encode i).toNat_lt.trans_le hlarge),
        Nat.testBit_lt_two_pow ((n'.encode i).toNat_lt.trans_le hlarge)]
  · intro h t ht
    have hlt : t / 8 < inoCrcOff := Nat.div_lt_of_lt_mul (List.mem_range.mp ht)
    rw [messageBit_xor, messageBit, messageBit, h _ hlt, Bool.xor_self]
    exact Bool.false_ne_true

/-- Inodes that carry the same valid checksum are the same ahead of it, or far apart. -/
theorem sealed_distance (hs : Sealed n) (hs' : Sealed n') (hsum : n'.iChecksum = n.iChecksum) :
    distance n n' = 0 ∨ 4 ≤ distance n n' ∧ Even (distance n n') := by
  have hnot : ¬Detected (fun i ↦ n.encode i ^^^ n'.encode i) inoCrcOff := by
    intro h
    refine (h n.encode).1 ?_
    have hback : (fun i ↦ n.encode i ^^^ (n.encode i ^^^ n'.encode i)) = n'.encode := by
      funext i
      rw [← UInt8.xor_assoc, UInt8.xor_self, UInt8.zero_xor]
    rw [hback, hs, hs', hsum]
  have heven : Even (distance n n') := Nat.not_odd_iff_even.mp fun hodd ↦ hnot (odd_detected hodd)
  have htwo : distance n n' ≠ 2 := fun h ↦ hnot (pair_detected h (by decide))
  obtain ⟨k, hk⟩ := heven
  by_cases h0 : distance n n' = 0
  · exact .inl h0
  · exact .inr ⟨by omega, k, hk⟩

theorem verify_sealed (h : (inodeVerifyEcc n).1 ≠ .uncorrectable) : Sealed (inodeVerifyEcc n).2 := by
  by_cases hs : Sealed n
  · rwa [hs.verify]
  · unfold Sealed at hs
    rw [inodeVerifyEcc, if_neg hs] at h ⊢
    dsimp only at h ⊢
    split at h
    · rename_i hc
      rw [if_pos hc]
      exact hc.2
    · exact (h rfl).elim

/-- Whatever damage `inode_verify_ecc` accepts or corrects with the checksum of an inode, it
delivers the bytes of that inode, or ones that differ from them in at least four bits. -/
theorem verify_distance (hs : Sealed n) (h : (inodeVerifyEcc n').1 ≠ .uncorrectable)
    (hsum : (inodeVerifyEcc n').2.iChecksum = n.iChecksum) :
    (∀ i < inoCrcOff, n.encode i = (inodeVerifyEcc n').2.encode i) ∨
      4 ≤ distance n (inodeVerifyEcc n').2 ∧ Even (distance n (inodeVerifyEcc n').2) := by
  rw [← distance_eq_zero_iff]
  exact sealed_distance hs (verify_sealed h) hsum

/-- The inode with bit `b` of its word `i` flipped. -/
def struck (n : Inode) (i b : ℕ) : Inode := Inode.decode (flipBit n.encode (8 * i) b)

section struck

variable {i b : ℕ}

theorem encode_struck {a : ℕ} (ha : a < inodeSize) :
    (struck n i b).encode a = flipBit n.encode (8 * i) b a := Inode.encode_decode _ ha

theorem struck_flipped (hi : i < 62) : Flipped n.encode (struck n i b).encode i b := by
  intro j hj
  have hsize : inodeSize = 560 := rfl
  exact encode_struck (by omega)

theorem struck_other (hb : b < 64) {a : ℕ} (ha : a < inodeSize) (hne : a / 8 ≠ i) :
    (struck n i b).encode a = n.encode a := (encode_struck ha).trans (if_neg (by omega))

theorem struck_checksum (hi : i < 61) (hb : b < 64) : (struck n i b).iChecksum = n.iChecksum := by
  have hsize : inodeSize = 560 := rfl
  have hread : ∀ n : Inode, UInt32.ofNat (getLE n.encode 4 488) = n.iChecksum := fun n ↦
    congrArg Inode.iChecksum (Inode.decode_encode n)
  rw [← hread, ← hread, getLE_congr fun j hj ↦ struck_other hb (by omega) (by omega)]

theorem distance_struck (hi : i < 61) (hb : b < 64) : distance n (struck n i b) = 1 := by
  have hcrc : inoCrcOff = 488 := rfl
  have hsize : inodeSize = 560 := rfl
  have hbit : ∀ t ∈ List.range (8 * inoCrcOff),
      messageBit (fun a ↦ n.encode a ^^^ (struck n i b).encode a) t =
        decide (t = 64 * i + b) := by
    intro t ht
    have hlt := List.mem_range.mp ht
    rw [messageBit, encode_struck (by omega), flipBit]
    split
    · rename_i ha
      rw [← UInt8.xor_assoc, UInt8.xor_self, testBit_flip 0 (Nat.mod_lt b (by decide)),
        UInt8.toNat_zero, Nat.zero_testBit, Bool.false_xor, decide_eq_decide]
      omega
    · rename_i ha
      rw [UInt8.xor_self, UInt8.toNat_zero, Nat.zero_testBit, eq_comm, decide_eq_false_iff_not]
      omega
  rw [distance, flips, List.countP_congr fun t ht ↦ by rw [hbit t ht, decide_eq_true_iff, ← beq_iff_eq]]
  exact List.count_eq_one_of_mem List.nodup_range (List.mem_range.mpr (by omega))

theorem struck_not_sealed (hs : Sealed n) (hi : i < 61) (hb : b < 64) : ¬Sealed (struck n i b) := by
  intro h
  have hone := distance_struck (n := n) hi hb
  rcases sealed_distance hs h (struck_checksum hi hb) with h0 | ⟨h4, -⟩
  · omega
  · omega

/-- The stored ECC bytes are still those of the inode, so the syndrome is the change of the word's. -/
theorem struck_syndrome (hc : Consistent n) (hi : i < 61) (hb : b < 64) {k : ℕ} (hk : k < 62) :
    syndrome (struck n i b).encode inoEccOff k =
      eccWord n.encode (8 * k) ^^^ eccWord (struck n i b).encode (8 * k) := by
  have hsize : inodeSize = 560 := rfl
  have hoff : inoEccOff = 492 := rfl
  rw [syndrome, struck_other hb (by omega) (by omega), encode_iEcc n ⟨k, hk⟩, ← hc.ecc ⟨k, hk⟩]

theorem struck_syndrome_other (hc : Consistent n) (hi : i < 61) (hb : b < 64) {k : ℕ} (hk : k < 62)
    (hne : k ≠ i) : syndrome (struck n i b).encode inoEccOff k = 0 := by
  have hsize : inodeSize = 560 := rfl
  rw [struck_syndrome hc hi hb hk,
    eccWord_congr fun j hj ↦ struck_other hb (by omega) (by omega), UInt8.xor_self]

theorem struck_restored (hc : Consistent n) (hi : i < 61) (hb : b < 64)
    (hl : Locates (syndrome (struck n i b).encode inoEccOff i))
    (hpos : bitPos (syndrome (struck n i b).encode inoEccOff i) = b + 1) {a : ℕ} (ha : a < inodeSize) :
    EccRepair.flips (struck n i b).encode inoEccOff 62 a = n.encode a := by
  have hlt : i < 62 := hi.trans (by decide)
  have hdiv : 8 * (a / 8) + a % 8 = a := Nat.div_add_mod a 8
  have hmod : a % 8 < 8 := Nat.mod_lt a (by decide)
  by_cases hai : a / 8 = i
  · have hword : ∀ j < 8, EccRepair.flips (struck n i b).encode inoEccOff 62 (8 * i + j) =
        n.encode (8 * i + j) :=
      (restored_iff hlt hb (struck_flipped hlt) hl).mpr hpos
    have hat : 8 * i + a % 8 = a := hai ▸ hdiv
    have hbyte := hword (a % 8) hmod
    rw [hat] at hbyte
    exact hbyte
  · by_cases hlow : a / 8 < 62
    · have hbyte : EccRepair.flips (struck n i b).encode inoEccOff 62 (8 * (a / 8) + a % 8) = _ :=
        flips_word hlow hmod
      rw [struck_syndrome_other hc hi hb hlow hai, if_neg fun h ↦ h.1 rfl, hdiv] at hbyte
      rw [hbyte, struck_other hb ha hai]
    · have hbehind : 62 * 8 ≤ a := Nat.mul_le_of_le_div 8 62 a (Nat.le_of_not_lt hlow)
      rw [flips_beyond hbehind, struck_other hb ha hai]

/-- `inode_verify_ecc` restores an inode with one bit flipped, if the table gives that bit its own
number. -/
theorem verify_struck (hc : Consistent n) (hi : i < 61) (hb : b < 64) (hm : Mends n.encode i b) :
    inodeVerifyEcc (struck n i b) = (.corrected, n) := by
  have hwords : nwords inoEccOff = 62 := by decide
  have hlt : i < 62 := hi.trans (by decide)
  obtain ⟨hl, hpos⟩ := ((struck_flipped (n := n) hlt).mends_iff hb).mp hm
  rw [← struck_syndrome hc hi hb hlt] at hl hpos
  have hp : Passes (struck n i b).encode inoEccOff (nwords inoEccOff) := by
    intro k hk
    by_cases hki : k = i
    · rw [hki]
      exact .inr hl
    · exact .inl (struck_syndrome_other hc hi hb (hwords ▸ hk) hki)
  obtain ⟨r, hr, -, hiff⟩ := eccCorrect_passes (by decide) hp
  obtain rfl := hiff.mpr ⟨i, hwords.symm ▸ hlt, hl.ne_zero⟩
  rw [hwords] at hr
  have hback : Inode.decode (EccRepair.flips (struck n i b).encode inoEccOff 62) = n :=
    (Inode.decode_congr fun a ha ↦ struck_restored hc hi hb hl hpos ha).trans (Inode.decode_encode n)
  have hns := struck_not_sealed hc.crc hi hb
  unfold Sealed at hns
  rw [inodeVerifyEcc, if_neg hns, hr]
  dsimp only
  rw [hback, if_pos ⟨rfl, hc.crc⟩]

end struck

/-- Bit 15 of the mode is restored. -/
theorem verify_distance_struck : ∃ n n', n' ≠ n ∧ inodeVerifyEcc n' = (.corrected, n) ∧
    ((∀ i < inoCrcOff, n.encode i = (inodeVerifyEcc n').2.encode i) ∨
      4 ≤ distance n (inodeVerifyEcc n').2 ∧ Even (distance n (inodeVerifyEcc n').2)) := by
  have hc := consistent_inodeSetChecksumEcc Inode.zero
  have hm : Mends (inodeSetChecksumEcc Inode.zero).encode 0 15 :=
    ⟨by decide +kernel, by decide +kernel⟩
  have hfix := verify_struck hc (by decide) (by decide) hm
  have hns := struck_not_sealed hc.crc (i := 0) (b := 15) (by decide) (by decide)
  refine ⟨_, struck (inodeSetChecksumEcc Inode.zero) 0 15, fun h ↦ hns (by rw [h]; exact hc.crc), hfix,
    verify_distance hc.crc ?_ ?_⟩
  · rw [hfix]
    decide
  · rw [hfix]

end inodes

end Xxfs.CrcPaths

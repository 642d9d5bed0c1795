import Mathlib.Data.List.Basic
import Xxfs.Checksum
import Xxfs.FormatRoundTrip

namespace Xxfs.Checksum

open Xxfs.Lib.LittleEndian Xxfs.DiskFormat

theorem crc32c_congr {f g : ℕ → UInt8} {len : ℕ} (h : ∀ i < len, f i = g i) :
    crc32c f len = crc32c g len := by
  have hfold := List.foldl_ext (fun crc i ↦ crcStep crc (f i)) (fun crc i ↦ crcStep crc (g i))
    (0xFFFFFFFF : UInt32) (l := List.range len)
    fun c i hi ↦ congrArg (crcStep c) (h i (List.mem_range.mp hi))
  exact congrArg (· ^^^ 0xFFFFFFFF) hfold

section super

variable (s : Super) (c : UInt32) (e : Fin 64 → UInt8)

theorem reseal_encode {i : ℕ} (hi : i < superCrcOff) :
    (Super.reseal s c e).encode i = s.encode i := by
  have hw : i < ((s.fields.take 33).map Prod.fst).sum := by
    simpa [Super.fields, superCrcOff] using hi
  have h := layout_prefix _ ((Super.reseal s c e).fields.drop 33) (s.fields.drop 33) hw
  exact h

theorem crc_reseal : crc32c (Super.reseal s c e).encode superCrcOff = crc32c s.encode superCrcOff :=
  crc32c_congr fun _ hi ↦ reseal_encode s c e hi

end super

section inode

variable (n : Inode) (c : UInt32) (e : Fin 62 → UInt8)

/-- The inode with another checksum and other ECC bytes. -/
def Inode.reseal : Inode := { n with iChecksum := c, iEcc := e }

theorem inode_reseal_encode {i : ℕ} (hi : i < inoCrcOff) :
    (Inode.reseal n c e).encode i = n.encode i := by
  have hw : i < ((n.fields.take 21).map Prod.fst).sum := by
    simpa [Inode.fields, inoCrcOff] using hi
  have h := layout_prefix _ ((Inode.reseal n c e).fields.drop 21) (n.fields.drop 21) hw
  exact h

theorem crc_inode_reseal :
    crc32c (Inode.reseal n c e).encode inoCrcOff = crc32c n.encode inoCrcOff :=
  crc32c_congr fun _ hi ↦ inode_reseal_encode n c e hi

theorem inodeSetChecksumEcc_eq : ∃ c e, c = crc32c n.encode inoCrcOff ∧
    inodeSetChecksumEcc n = Inode.reseal n c e := by
  have hfold (l : List ℕ) (c : UInt32) (e : Fin 62 → UInt8) :
      ∃ e', l.foldl inodeEccStep (Inode.reseal n c e) = Inode.reseal n c e' := by
    induction l generalizing e with
    | nil => exact ⟨e, rfl⟩
    | cons i l ih => exact ih _
  obtain ⟨e', he'⟩ := hfold (List.range (nwords inoEccOff)) (crc32c n.encode inoCrcOff) n.iEcc
  exact ⟨_, e', rfl, he'⟩

/-- The checksum of the inode covers what it says it covers. -/
def Sealed : Prop := crc32c n.encode inoCrcOff = n.iChecksum

theorem sealed_inodeSetChecksumEcc : Sealed (inodeSetChecksumEcc n) := by
  obtain ⟨c, e, hc, he⟩ := inodeSetChecksumEcc_eq n
  rw [he, Sealed, crc_inode_reseal, ← hc]
  rfl

theorem Sealed.verify {n : Inode} (h : Sealed n) : inodeVerifyEcc n = (.ok, n) := by
  unfold Sealed at h
  rw [inodeVerifyEcc, if_pos h]

section ecc

variable {n : Inode}

theorem eccWord_congr {f g : ℕ → UInt8} {o : ℕ} (h : ∀ j < 8, f (o + j) = g (o + j)) :
    eccWord f o = eccWord g o := by
  have hbytes := List.foldl_ext (fun e j ↦ e ^^^ hamming (f (o + j)))
    (fun e j ↦ e ^^^ hamming (g (o + j))) (0 : UInt8) (l := List.range 8)
    fun e j hj ↦ by rw [h j (List.mem_range.mp hj)]
  have hparity := List.foldl_ext (fun acc k ↦ acc ^^ (f (o + k / 8)).toNat.testBit (k % 8))
    (fun acc k ↦ acc ^^ (g (o + k / 8)).toNat.testBit (k % 8)) false (l := List.range 64)
    fun acc k hk ↦ by rw [h (k / 8) (by have := List.mem_range.mp hk; omega)]
  rw [eccWord, eccWord, parity, parity, hbytes, hparity]

theorem encode_iEcc (n : Inode) (j : Fin 62) : n.encode (inoEccOff + j) = n.iEcc j := by
  have h := congrArg Inode.iEcc (Inode.decode_encode n)
  exact congrFun h j

theorem encode_below_ecc (n : Inode) (e : Fin 62 → UInt8) {i : ℕ} (hi : i < inoEccOff) :
    ({ n with iEcc := e } : Inode).encode i = n.encode i := by
  have hw : i < ((n.fields.take 22).map Prod.fst).sum := by
    simpa [Inode.fields, inoEccOff] using hi
  exact layout_prefix _ (({ n with iEcc := e } : Inode).fields.drop 22) (n.fields.drop 22) hw

/-- Word `i` of the inode does not cover the ECC byte of a word that is not before it. -/
theorem eccWord_set (n : Inode) {i k : ℕ} (hk : k < 62) (hi : i ≤ k) (x : UInt8) :
    eccWord ({ n with iEcc := fun j ↦ if j.val = k then x else n.iEcc j } : Inode).encode (8 * i) =
      eccWord n.encode (8 * i) := by
  refine eccWord_congr fun j hj ↦ ?_
  by_cases hlow : 8 * i + j < inoEccOff
  · exact encode_below_ecc n _ hlow
  · -- only the last word reaches the ECC bytes, and it covers the first four of them
    have hoff : inoEccOff = 492 := rfl
    obtain ⟨m, hm⟩ : ∃ m : Fin 62, 8 * i + j = inoEccOff + m :=
      ⟨⟨8 * i + j - inoEccOff, by omega⟩, by dsimp only; omega⟩
    rw [hm, encode_iEcc, encode_iEcc]
    exact if_neg (by omega)

/-- The checksum and every ECC byte of the inode are those of its content. -/
structure Consistent (n : Inode) : Prop where
  crc : crc32c n.encode inoCrcOff = n.iChecksum
  ecc : ∀ i : Fin 62, eccWord n.encode (8 * i) = n.iEcc i

theorem eccSteps (n : Inode) {k : ℕ} (hk : k ≤ 62) :
    ∀ i : Fin 62, i.val < k → eccWord ((List.range k).foldl inodeEccStep n).encode (8 * i) =
      ((List.range k).foldl inodeEccStep n).iEcc i := by
  induction k with
  | zero => exact fun i hi ↦ absurd hi (Nat.not_lt_zero _)
  | succ k ih =>
    intro i hi
    rw [List.range_succ, List.foldl_append, List.foldl_cons, List.foldl_nil, inodeEccStep,
      eccWord_set _ (by omega) (by omega)]
    dsimp only
    split
    · rename_i hik
      rw [hik]
    · exact ih (by omega) i (by omega)

theorem consistent_inodeSetChecksumEcc (n : Inode) : Consistent (inodeSetChecksumEcc n) :=
  ⟨sealed_inodeSetChecksumEcc n, fun i ↦ eccSteps _ le_rfl i i.isLt⟩

def ConsistentVal (val : List UInt8) : Prop := ∃ n, val = inodeToVal n ∧ Consistent n

theorem consistentVal_set (n : Inode) : ConsistentVal (inodeToVal (inodeSetChecksumEcc n)) :=
  ⟨_, rfl, consistent_inodeSetChecksumEcc n⟩

end ecc

end inode

end Xxfs.Checksum

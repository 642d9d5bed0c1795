import Xxfs.DiskFormat

namespace Xxfs.Checksum

open Xxfs.Lib.LittleEndian Xxfs.DiskFormat

def crcShift (c : UInt32) : UInt32 :=
  if c &&& 1 = 1 then (0x82F63B78 : UInt32) ^^^ (c >>> 1) else c >>> 1

/-- `crc32c_table[i]`, as `crc32c_init` fills it. -/
def crc32cTable (i : UInt32) : UInt32 := crcShift^[8] i

def crcStep (crc : UInt32) (b : UInt8) : UInt32 :=
  crc32cTable ((crc ^^^ b.toUInt32) &&& 0xFF) ^^^ (crc >>> 8)

def crc32c (f : ℕ → UInt8) (len : ℕ) : UInt32 :=
  (List.range len).foldl (fun crc i ↦ crcStep crc (f i)) 0xFFFFFFFF ^^^ 0xFFFFFFFF

/-- `_hamming_parity`: the source gives 248 entries, the last eight are zero. -/
def hammingParity : List UInt8 :=
  [0x00, 0x69, 0x6a, 0x03, 0x6c, 0x05, 0x06, 0x6f, 0x70, 0x19, 0x1a, 0x73, 0x1c, 0x75, 0x76, 0x1f,
   0x78, 0x11, 0x12, 0x7b, 0x14, 0x7d, 0x7e, 0x17, 0x08, 0x61, 0x62, 0x0b, 0x64, 0x0d, 0x0e, 0x67,
   0x60, 0x09, 0x0a, 0x63, 0x0c, 0x65, 0x66, 0x0f, 0x10, 0x79, 0x7a, 0x13, 0x7c, 0x15, 0x16, 0x7f,
   0x18, 0x71, 0x72, 0x1b, 0x74, 0x1d, 0x1e, 0x77, 0x68, 0x01, 0x02, 0x6b, 0x04, 0x6d, 0x6e, 0x07,
   0x48, 0x21, 0x22, 0x4b, 0x24, 0x4d, 0x4e, 0x27, 0x38, 0x51, 0x52, 0x3b, 0x54, 0x3d, 0x3e, 0x57,
   0x30, 0x59, 0x5a, 0x33, 0x5c, 0x35, 0x36, 0x5f, 0x40, 0x29, 0x2a, 0x43, 0x2c, 0x45, 0x46, 0x2f,
   0x28, 0x41, 0x42, 0x2b, 0x44, 0x2d, 0x2e, 0x47, 0x58, 0x31, 0x32, 0x5b, 0x34, 0x5d, 0x5e, 0x37,
   0x50, 0x39, 0x3a, 0x53, 0x3c, 0x55, 0x56, 0x3f, 0x20, 0x49, 0x4a, 0x23, 0x4c, 0x25, 0x26, 0x4f,
   0x90, 0xf9, 0xfa, 0x93, 0xfc, 0x95, 0x96, 0xff, 0xe0, 0x89, 0x8a, 0xe3, 0x8c, 0xe5, 0xe6, 0x8f,
   0xe8, 0x81, 0x82, 0xeb, 0x84, 0xed, 0xee, 0x87, 0x98, 0xf1, 0xf2, 0x9b, 0xf4, 0x9d, 0x9e, 0xf7,
   0xf0, 0x99, 0x9a, 0xf3, 0x9c, 0xf5, 0xf6, 0x9f, 0x80, 0xe9, 0xea, 0x83, 0xec, 0x85, 0x86, 0xef,
   0x88, 0xe1, 0xe2, 0x8b, 0xe4, 0x8d, 0x8e, 0xe7, 0xd8, 0xb1, 0xb2, 0xdb, 0xb4, 0xdd, 0xde, 0xb7,
   0xc8, 0xa1, 0xa2, 0xcb, 0xa4, 0xcd, 0xce, 0xa7, 0xb0, 0xd9, 0xda, 0xb3, 0xdc, 0xb5, 0xb6, 0xdf,
   0xa0, 0xc9, 0xca, 0xa3, 0xcc, 0xa5, 0xa6, 0xcf, 0xb8, 0xd1, 0xd2, 0xbb, 0xd4, 0xbd, 0xbe, 0xd7,
   0xc0, 0xa9, 0xaa, 0xc3, 0xac, 0xc5, 0xc6, 0xaf, 0xd0, 0xb9, 0xba, 0xd3, 0xbc, 0xc5, 0xc6, 0xaf,
   0xa8, 0xc1, 0xc2, 0xab, 0xc4, 0xad, 0xae, 0xc7]

def hamming (b : UInt8) : UInt8 := hammingParity.getD b.toNat 0

/-- `__builtin_parityll` of the eight bytes. -/
def parity (f : ℕ → UInt8) (o : ℕ) : Bool :=
  (List.range 64).foldl (fun acc k ↦ acc ^^ (f (o + k / 8)).toNat.testBit (k % 8)) false

/-- The ECC byte of the 64-bit word at byte offset `o`. -/
def eccWord (f : ℕ → UInt8) (o : ℕ) : UInt8 :=
  (List.range 8).foldl (fun e j ↦ e ^^^ hamming (f (o + j))) 0 |||
    (if parity f o then 0x80 else 0)

def nwords (len : ℕ) : ℕ := (len + 7) / 8

inductive EccResult
  | ok | corrected | uncorrectable
  deriving DecidableEq

def flipBit (f : ℕ → UInt8) (o bit : ℕ) : ℕ → UInt8 :=
  fun i ↦ if i = o + bit / 8 then f i ^^^ UInt8.ofNat (2 ^ (bit % 8)) else f i

/-- The loop of `xxfs_os_ecc_correct` over the words from `i` on. The stored ECC bytes lie at
`eccAt` of the same memory, so a correction of the last words of an inode can change them. -/
def eccFix (computed : ℕ → UInt8) (eccAt : ℕ) :
    ℕ → ℕ → Bool → (ℕ → UInt8) → EccResult × (ℕ → UInt8)
  | 0, _, corrected, f => (if corrected then .corrected else .ok, f)
  | n + 1, i, corrected, f =>
    let syndrome := f (eccAt + i) ^^^ computed i
    if syndrome = 0 then eccFix computed eccAt n (i + 1) corrected f
    else if syndrome &&& 0x80 ≠ 0 then
      let pos := (syndrome &&& 0x7F).toNat
      if pos = 0 ∨ 64 < pos then (.uncorrectable, f)
      else eccFix computed eccAt n (i + 1) true (flipBit f (8 * i) (pos - 1))
    else (.uncorrectable, f)

def eccCorrect (f : ℕ → UInt8) (len eccAt : ℕ) : EccResult × (ℕ → UInt8) :=
  eccFix (fun i ↦ eccWord f (8 * i)) eccAt (nwords len) 0 false f

/-- One iteration of `xxfs_os_ecc_compute` on an inode: the ECC byte is stored in the inode
itself, where the last word will read it. -/
def inodeEccStep (n : Inode) (i : ℕ) : Inode :=
  let e := eccWord n.encode (8 * i)
  { n with iEcc := fun j ↦ if j.val = i then e else n.iEcc j }

def inodeSetChecksumEcc (n : Inode) : Inode :=
  (List.range (nwords inoEccOff)).foldl inodeEccStep
    { n with iChecksum := crc32c n.encode inoCrcOff }

def inodeVerifyEcc (n : Inode) : EccResult × Inode :=
  if crc32c n.encode inoCrcOff = n.iChecksum then (.ok, n)
  else
    let r := eccCorrect n.encode inoEccOff inoEccOff
    let n' := Inode.decode r.2
    if r.1 = .corrected ∧ crc32c n'.encode inoCrcOff = n'.iChecksum then (.corrected, n')
    else (.uncorrectable, n')

/-- The superblock's ECC bytes lie behind every word they cover. -/
def superSetChecksumEcc (s : Super) : Super :=
  let s := { s with sChecksum := crc32c s.encode superCrcOff }
  { s with sEcc := fun i ↦ if i.val < nwords superCrcOff then eccWord s.encode (8 * i) else s.sEcc i }

section super

variable (s : Super)

/-- The superblock with another checksum and other ECC bytes. -/
def Super.reseal (c : UInt32) (e : Fin 64 → UInt8) : Super := { s with sChecksum := c, sEcc := e }

@[simp] theorem reseal_sFreeBlocks (c : UInt32) (e : Fin 64 → UInt8) :
    (Super.reseal s c e).sFreeBlocks = s.sFreeBlocks := rfl

@[simp] theorem reseal_sBlockCount (c : UInt32) (e : Fin 64 → UInt8) :
    (Super.reseal s c e).sBlockCount = s.sBlockCount := rfl

@[simp] theorem reseal_sDataOff (c : UInt32) (e : Fin 64 → UInt8) :
    (Super.reseal s c e).sDataOff = s.sDataOff := rfl

@[simp] theorem reseal_sInodesCount (c : UInt32) (e : Fin 64 → UInt8) :
    (Super.reseal s c e).sInodesCount = s.sInodesCount := rfl

theorem superSetChecksumEcc_eq : ∃ c e, c = crc32c s.encode superCrcOff ∧
    superSetChecksumEcc s = Super.reseal s c e :=
  ⟨_, _, rfl, rfl⟩

end super

end Xxfs.Checksum

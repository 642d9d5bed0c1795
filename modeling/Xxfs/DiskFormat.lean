import Xxfs.Lib.LittleEndian

namespace Xxfs.DiskFormat

open Xxfs.Lib.LittleEndian

/-- The return codes of the library. -/
inductive Rc
  | ok | enoent | eexist | enomem | enospc | eio | einval | enotdir | eisdir | enotempty
  | eacces | enametoolong
  deriving DecidableEq, Repr

abbrev Path := List UInt8

def blockSize : ℕ := 4096
def xxfsMagic : UInt32 := 0x58585346
def inlineMax : ℕ := 128
def maxPath : ℕ := 4096
def maxName : ℕ := 255
def ftReg : UInt16 := 1
def ftDir : UInt16 := 2
def ftLnk : UInt16 := 3
def flagSync : UInt64 := 0x0001
def flagNolock : UInt64 := 0x0040
def walBlocks : UInt32 := 2048
def ppBlocks : UInt32 := 512
def bgBlocks : UInt32 := 8192

/-- `struct xxfs_super`, packed: the offsets of `encode` have no gaps. -/
structure Super where
  sMagic : UInt32
  sVersion : UInt32
  sBlockSize : UInt32
  sBlockSizeBits : UInt32
  sBlockCount : UInt64
  sFreeBlocks : UInt64
  sInodesCount : UInt64
  sFreeInodes : UInt64
  sRootIno : UInt64
  sCowGeneration : UInt64
  sMainIdxRoot : UInt64
  sWalOff : UInt64
  sWalBlocks : UInt32
  sWalSeq : UInt64
  sWalCommitSeq : UInt64
  sPpPingOff : UInt64
  sPpPongOff : UInt64
  sPpBlocks : UInt32
  sPpActive : UInt32
  sPpPingSeq : UInt64
  sPpPongSeq : UInt64
  sLrcTableOff : UInt64
  sLrcGroups : UInt32
  sBgCount : UInt32
  sBgBlocks : UInt32
  sBgDescOff : UInt64
  sDataOff : UInt64
  sMtime : UInt64
  sWtime : UInt64
  sState : UInt32
  sFeatureCompat : UInt32
  sFeatureRoCompat : UInt32
  sFeatureIncompat : UInt32
  sChecksum : UInt32
  sPdirOff : UInt64
  sPdirSize : UInt32
  sPdirDepth : UInt8
  sPad : Fin 3 → UInt8
  sEcc : Fin 64 → UInt8
  sReserved : Fin 3804 → UInt8

/-- The bytes of a fixed-size array, as a field of a `layout`. -/
def arr {n : ℕ} (a : Fin n → UInt8) : ℕ × (ℕ → UInt8) :=
  (n, fun i ↦ if h : i < n then a ⟨i, h⟩ else 0)

def u64 (v : UInt64) : ℕ × (ℕ → UInt8) := (8, leByte v.toNat)
def u32 (v : UInt32) : ℕ × (ℕ → UInt8) := (4, leByte v.toNat)
def u16 (v : UInt16) : ℕ × (ℕ → UInt8) := (2, leByte v.toNat)
def u8 (v : UInt8) : ℕ × (ℕ → UInt8) := (1, fun _ ↦ v)

/-- The offset of `s_checksum`: the bytes before it are the ones it covers. -/
def superCrcOff : ℕ := 208
def superEccOff : ℕ := 228

def Super.fields (s : Super) : List (ℕ × (ℕ → UInt8)) :=
  [u32 s.sMagic, u32 s.sVersion, u32 s.sBlockSize, u32 s.sBlockSizeBits, u64 s.sBlockCount,
    u64 s.sFreeBlocks, u64 s.sInodesCount, u64 s.sFreeInodes, u64 s.sRootIno,
    u64 s.sCowGeneration, u64 s.sMainIdxRoot, u64 s.sWalOff, u32 s.sWalBlocks, u64 s.sWalSeq,
    u64 s.sWalCommitSeq, u64 s.sPpPingOff, u64 s.sPpPongOff, u32 s.sPpBlocks, u32 s.sPpActive,
    u64 s.sPpPingSeq, u64 s.sPpPongSeq, u64 s.sLrcTableOff, u32 s.sLrcGroups, u32 s.sBgCount,
    u32 s.sBgBlocks, u64 s.sBgDescOff, u64 s.sDataOff, u64 s.sMtime, u64 s.sWtime, u32 s.sState,
    u32 s.sFeatureCompat, u32 s.sFeatureRoCompat, u32 s.sFeatureIncompat, u32 s.sChecksum,
    u64 s.sPdirOff, u32 s.sPdirSize, u8 s.sPdirDepth, arr s.sPad, arr s.sEcc, arr s.sReserved]

def Super.encode (s : Super) : ℕ → UInt8 := layout s.fields

def Super.decode (f : ℕ → UInt8) : Super where
  sMagic := getU32 f 0
  sVersion := getU32 f 4
  sBlockSize := getU32 f 8
  sBlockSizeBits := getU32 f 12
  sBlockCount := getU64 f 16
  sFreeBlocks := getU64 f 24
  sInodesCount := getU64 f 32
  sFreeInodes := getU64 f 40
  sRootIno := getU64 f 48
  sCowGeneration := getU64 f 56
  sMainIdxRoot := getU64 f 64
  sWalOff := getU64 f 72
  sWalBlocks := getU32 f 80
  sWalSeq := getU64 f 84
  sWalCommitSeq := getU64 f 92
  sPpPingOff := getU64 f 100
  sPpPongOff := getU64 f 108
  sPpBlocks := getU32 f 116
  sPpActive := getU32 f 120
  sPpPingSeq := getU64 f 124
  sPpPongSeq := getU64 f 132
  sLrcTableOff := getU64 f 140
  sLrcGroups := getU32 f 148
  sBgCount := getU32 f 152
  sBgBlocks := getU32 f 156
  sBgDescOff := getU64 f 160
  sDataOff := getU64 f 168
  sMtime := getU64 f 176
  sWtime := getU64 f 184
  sState := getU32 f 192
  sFeatureCompat := getU32 f 196
  sFeatureRoCompat := getU32 f 200
  sFeatureIncompat := getU32 f 204
  sChecksum := getU32 f 208
  sPdirOff := getU64 f 212
  sPdirSize := getU32 f 220
  sPdirDepth := f 224
  sPad i := f (225 + i)
  sEcc i := f (228 + i)
  sReserved i := f (292 + i)

/-- `struct xxfs_inode`. The compiler's padding is kept (`iPad`, `iTail`), as the checksum
covers it and values are copied byte by byte; `iUnion` is the 128-byte union of the inline
data and the extent. -/
structure Inode where
  iMode : UInt16
  iUid : UInt16
  iGid : UInt16
  iFileType : UInt16
  iNlinks : UInt32
  iPad : UInt32
  iSize : UInt64
  iBlocks : UInt64
  iAtime : UInt64
  iMtime : UInt64
  iCtime : UInt64
  iBtime : UInt64
  iFlags : UInt64
  iGeneration : UInt64
  iWinAttrs : UInt32
  iUidHigh : UInt32
  iGidHigh : UInt32
  iReserved1 : UInt32
  iParentIno : UInt64
  iName : Fin 256 → UInt8
  iUnion : Fin 128 → UInt8
  iChecksum : UInt32
  iEcc : Fin 62 → UInt8
  iTail : Fin 6 → UInt8

def inodeSize : ℕ := 560
def inoCrcOff : ℕ := 488
def inoEccOff : ℕ := 492

def Inode.fields (n : Inode) : List (ℕ × (ℕ → UInt8)) :=
  [u16 n.iMode, u16 n.iUid, u16 n.iGid, u16 n.iFileType, u32 n.iNlinks, u32 n.iPad, u64 n.iSize,
    u64 n.iBlocks, u64 n.iAtime, u64 n.iMtime, u64 n.iCtime, u64 n.iBtime, u64 n.iFlags,
    u64 n.iGeneration, u32 n.iWinAttrs, u32 n.iUidHigh, u32 n.iGidHigh, u32 n.iReserved1,
    u64 n.iParentIno, arr n.iName, arr n.iUnion, u32 n.iChecksum, arr n.iEcc, arr n.iTail]

def Inode.encode (n : Inode) : ℕ → UInt8 := layout n.fields

def Inode.decode (f : ℕ → UInt8) : Inode where
  iMode := getU16 f 0
  iUid := getU16 f 2
  iGid := getU16 f 4
  iFileType := getU16 f 6
  iNlinks := getU32 f 8
  iPad := getU32 f 12
  iSize := getU64 f 16
  iBlocks := getU64 f 24
  iAtime := getU64 f 32
  iMtime := getU64 f 40
  iCtime := getU64 f 48
  iBtime := getU64 f 56
  iFlags := getU64 f 64
  iGeneration := getU64 f 72
  iWinAttrs := getU32 f 80
  iUidHigh := getU32 f 84
  iGidHigh := getU32 f 88
  iReserved1 := getU32 f 92
  iParentIno := getU64 f 96
  iName i := f (104 + i)
  iUnion i := f (360 + i)
  iChecksum := getU32 f 488
  iEcc i := f (492 + i)
  iTail i := f (554 + i)

def Inode.zero : Inode := Inode.decode fun _ ↦ 0

/-- `memcpy` of `len` bytes of `src` to offset `off` of a fixed-size array. -/
def arrCopy {n : ℕ} (a : Fin n → UInt8) (off len : ℕ) (src : ℕ → UInt8) : Fin n → UInt8 :=
  fun i ↦ if off ≤ i ∧ i < off + len then src (i - off) else a i

def Inode.iExtentOff (n : Inode) : UInt64 := getU64 (arr n.iUnion).2 0
def Inode.iExtentLen (n : Inode) : UInt32 := getU32 (arr n.iUnion).2 8

/-- Assigning `i_extent_off` and `i_extent_len` overwrites the first 12 inline bytes. -/
def Inode.setExtent (n : Inode) (off : UInt64) (len : UInt32) : Inode :=
  { n with iUnion := arrCopy (arrCopy n.iUnion 0 8 (leByte off.toNat)) 8 4 (leByte len.toNat) }

def bytesAt (l : List UInt8) (i : ℕ) : UInt8 := l.getD i 0

def toList (f : ℕ → UInt8) (n : ℕ) : List UInt8 := (List.range n).map f

def inodeToVal (n : Inode) : List UInt8 := toList n.encode inodeSize
def valToInode (v : List UInt8) : Inode := Inode.decode (bytesAt v)

/-- `struct paged_slot` -/
structure PagedSlot where
  hash : UInt64
  fileOff : UInt64
  klen : UInt32
  vlen : UInt32
  keyPrefix : Fin 16 → UInt8
  flags : UInt8
  pad : Fin 7 → UInt8

def keyPrefixLen : ℕ := 16
def slotFInline : UInt8 := 1
def slotsPerPage : ℕ := 56
def inlineSpace : ℕ := 1392

def PagedSlot.fields (s : PagedSlot) : List (ℕ × (ℕ → UInt8)) :=
  [u64 s.hash, u64 s.fileOff, u32 s.klen, u32 s.vlen, arr s.keyPrefix, u8 s.flags, arr s.pad]

def PagedSlot.encode (s : PagedSlot) : ℕ → UInt8 := layout s.fields

def PagedSlot.decode (f : ℕ → UInt8) : PagedSlot where
  hash := getU64 f 0
  fileOff := getU64 f 8
  klen := getU32 f 16
  vlen := getU32 f 20
  keyPrefix i := f (24 + i)
  flags := f 40
  pad i := f (41 + i)

def PagedSlot.zero : PagedSlot := PagedSlot.decode fun _ ↦ 0

/-- `struct paged_page` -/
structure PagedPage where
  count : UInt16
  localDepth : UInt16
  inlineUsed : UInt32
  overflowNext : UInt64
  slots : Fin 56 → PagedSlot
  inlineArea : Fin 1392 → UInt8

def PagedPage.encode (p : PagedPage) (i : ℕ) : UInt8 :=
  if i < 16 then
    layout [u16 p.count, u16 p.localDepth, u32 p.inlineUsed, u64 p.overflowNext] i
  else if h : i - 16 < 56 * 48 then
    (p.slots ⟨(i - 16) / 48, by omega⟩).encode ((i - 16) % 48)
  else if h : i - 2704 < 1392 then p.inlineArea ⟨i - 2704, h⟩
  else 0

def PagedPage.decode (f : ℕ → UInt8) : PagedPage where
  count := getU16 f 0
  localDepth := getU16 f 2
  inlineUsed := getU32 f 4
  overflowNext := getU64 f 8
  slots i := PagedSlot.decode fun j ↦ f (16 + 48 * i + j)
  inlineArea i := f (2704 + i)

def PagedPage.zero : PagedPage := PagedPage.decode fun _ ↦ 0

def PagedPage.slot (p : PagedPage) (i : ℕ) : PagedSlot :=
  if h : i < 56 then p.slots ⟨i, h⟩ else PagedSlot.zero

def PagedPage.setSlot (p : PagedPage) (i : ℕ) (s : PagedSlot) : PagedPage :=
  { p with slots := fun j ↦ if j.val = i then s else p.slots j }

def PagedPage.inlineByte (p : PagedPage) (i : ℕ) : UInt8 := (arr p.inlineArea).2 i

/-- `struct xxfs_dir_child`, 272 bytes with its padding. -/
structure DirChild where
  dcHash : UInt64
  dcName : Fin 256 → UInt8
  dcType : UInt8

def dirChildSize : ℕ := 272

def DirChild.fields (c : DirChild) : List (ℕ × (ℕ → UInt8)) :=
  [u64 c.dcHash, arr c.dcName, u8 c.dcType]

def DirChild.encode (c : DirChild) : ℕ → UInt8 := layout c.fields

def DirChild.decode (f : ℕ → UInt8) : DirChild where
  dcHash := getU64 f 0
  dcName i := f (8 + i)
  dcType := f 264

def encodeChildren (cs : List DirChild) (i : ℕ) : UInt8 :=
  match cs[i / dirChildSize]? with
  | some c => c.encode (i % dirChildSize)
  | none => 0

def decodeChildren (f : ℕ → UInt8) (n : ℕ) : List DirChild :=
  (List.range n).map fun k ↦ DirChild.decode fun j ↦ f (k * dirChildSize + j)

end Xxfs.DiskFormat

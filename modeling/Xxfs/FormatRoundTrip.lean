import Xxfs.PagedIndex

namespace Xxfs.DiskFormat

open Xxfs.Lib.LittleEndian

@[simp] theorem u64_width (v : UInt64) : (u64 v).1 = 8 := rfl
@[simp] theorem u32_width (v : UInt32) : (u32 v).1 = 4 := rfl
@[simp] theorem u16_width (v : UInt16) : (u16 v).1 = 2 := rfl
@[simp] theorem u8_width (v : UInt8) : (u8 v).1 = 1 := rfl
@[simp] theorem arr_width {n : ℕ} (a : Fin n → UInt8) : (arr a).1 = n := rfl

section fields

variable (segs : List (ℕ × (ℕ → UInt8))) (k o : ℕ)

theorem getU64_layout (v : UInt64) (hk : segs[k]? = some (u64 v)) (ho : fieldOff segs k = o) :
    getU64 (layout segs) o = v := by
  simp [getU64, getLE_layout hk ho]

theorem getU32_layout (v : UInt32) (hk : segs[k]? = some (u32 v)) (ho : fieldOff segs k = o) :
    getU32 (layout segs) o = v := by
  simp [getU32, getLE_layout hk ho]

theorem getU16_layout (v : UInt16) (hk : segs[k]? = some (u16 v)) (ho : fieldOff segs k = o) :
    getU16 (layout segs) o = v := by
  simp [getU16, getLE_layout hk ho]

theorem u8_layout (v : UInt8) (hk : segs[k]? = some (u8 v)) (ho : fieldOff segs k = o) :
    layout segs o = v := by
  have h := layout_field hk Nat.zero_lt_one
  rwa [ho] at h

theorem arr_layout {n : ℕ} (a : Fin n → UInt8) (hk : segs[k]? = some (arr a))
    (ho : fieldOff segs k = o) : (fun i : Fin n ↦ layout segs (o + i)) = a := by
  funext i
  rw [← ho, layout_field hk i.isLt]
  exact dif_pos i.isLt

end fields

theorem Super.decode_encode (s : Super) : Super.decode s.encode = s := by
  have h0 := getU32_layout s.fields 0 0 s.sMagic rfl (by simp [Super.fields, fieldOff])
  have h1 := getU32_layout s.fields 1 4 s.sVersion rfl (by simp [Super.fields, fieldOff])
  have h2 := getU32_layout s.fields 2 8 s.sBlockSize rfl (by simp [Super.fields, fieldOff])
  have h3 := getU32_layout s.fields 3 12 s.sBlockSizeBits rfl (by simp [Super.fields, fieldOff])
  have h4 := getU64_layout s.fields 4 16 s.sBlockCount rfl (by simp [Super.fields, fieldOff])
  have h5 := getU64_layout s.fields 5 24 s.sFreeBlocks rfl (by simp [Super.fields, fieldOff])
  have h6 := getU64_layout s.fields 6 32 s.sInodesCount rfl (by simp [Super.fields, fieldOff])
  have h7 := getU64_layout s.fields 7 40 s.sFreeInodes rfl (by simp [Super.fields, fieldOff])
  have h8 := getU64_layout s.fields 8 48 s.sRootIno rfl (by simp [Super.fields, fieldOff])
  have h9 := getU64_layout s.fields 9 56 s.sCowGeneration rfl (by simp [Super.fields, fieldOff])
  have h10 := getU64_layout s.fields 10 64 s.sMainIdxRoot rfl (by simp [Super.fields, fieldOff])
  have h11 := getU64_layout s.fields 11 72 s.sWalOff rfl (by simp [Super.fields, fieldOff])
  have h12 := getU32_layout s.fields 12 80 s.sWalBlocks rfl (by simp [Super.fields, fieldOff])
  have h13 := getU64_layout s.fields 13 84 s.sWalSeq rfl (by simp [Super.fields, fieldOff])
  have h14 := getU64_layout s.fields 14 92 s.sWalCommitSeq rfl (by simp [Super.fields, fieldOff])
  have h15 := getU64_layout s.fields 15 100 s.sPpPingOff rfl (by simp [Super.fields, fieldOff])
  have h16 := getU64_layout s.fields 16 108 s.sPpPongOff rfl (by simp [Super.fields, fieldOff])
  have h17 := getU32_layout s.fields 17 116 s.sPpBlocks rfl (by simp [Super.fields, fieldOff])
  have h18 := getU32_layout s.fields 18 120 s.sPpActive rfl (by simp [Super.fields, fieldOff])
  have h19 := getU64_layout s.fields 19 124 s.sPpPingSeq rfl (by simp [Super.fields, fieldOff])
  have h20 := getU64_layout s.fields 20 132 s.sPpPongSeq rfl (by simp [Super.fields, fieldOff])
  have h21 := getU64_layout s.fields 21 140 s.sLrcTableOff rfl (by simp [Super.fields, fieldOff])
  have h22 := getU32_layout s.fields 22 148 s.sLrcGroups rfl (by simp [Super.fields, fieldOff])
  have h23 := getU32_layout s.fields 23 152 s.sBgCount rfl (by simp [Super.fields, fieldOff])
  have h24 := getU32_layout s.fields 24 156 s.sBgBlocks rfl (by simp [Super.fields, fieldOff])
  have h25 := getU64_layout s.fields 25 160 s.sBgDescOff rfl (by simp [Super.fields, fieldOff])
  have h26 := getU64_layout s.fields 26 168 s.sDataOff rfl (by simp [Super.fields, fieldOff])
  have h27 := getU64_layout s.fields 27 176 s.sMtime rfl (by simp [Super.fields, fieldOff])
  have h28 := getU64_layout s.fields 28 184 s.sWtime rfl (by simp [Super.fields, fieldOff])
  have h29 := getU32_layout s.fields 29 192 s.sState rfl (by simp [Super.fields, fieldOff])
  have h30 := getU32_layout s.fields 30 196 s.sFeatureCompat rfl (by simp [Super.fields, fieldOff])
  have h31 := getU32_layout s.fields 31 200 s.sFeatureRoCompat rfl (by simp [Super.fields, fieldOff])
  have h32 := getU32_layout s.fields 32 204 s.sFeatureIncompat rfl (by simp [Super.fields, fieldOff])
  have h33 := getU32_layout s.fields 33 208 s.sChecksum rfl (by simp [Super.fields, fieldOff])
  have h34 := getU64_layout s.fields 34 212 s.sPdirOff rfl (by simp [Super.fields, fieldOff])
  have h35 := getU32_layout s.fields 35 220 s.sPdirSize rfl (by simp [Super.fields, fieldOff])
  have h36 := u8_layout s.fields 36 224 s.sPdirDepth rfl (by simp [Super.fields, fieldOff])
  have h37 := arr_layout s.fields 37 225 s.sPad rfl (by simp [Super.fields, fieldOff])
  have h38 := arr_layout s.fields 38 228 s.sEcc rfl (by simp [Super.fields, fieldOff])
  have h39 := arr_layout s.fields 39 292 s.sReserved rfl (by simp [Super.fields, fieldOff])
  rw [Super.decode, Super.encode, h0, h1, h2, h3, h4, h5, h6, h7, h8, h9, h10, h11, h12, h13, h14,
    h15, h16, h17, h18, h19, h20, h21, h22, h23, h24, h25, h26, h27, h28, h29, h30, h31, h32,
    h33, h34, h35, h36, h37, h38, h39]

theorem Super.width (s : Super) : (s.fields.map Prod.fst).sum = blockSize := by
  simp [Super.fields, blockSize]

theorem Super.encode_beyond (s : Super) {i : ℕ} (hi : blockSize ≤ i) : s.encode i = 0 :=
  layout_beyond (by rw [s.width]; exact hi)

section reads

variable (f : ℕ → UInt8) {rest : List (ℕ × (ℕ → UInt8))}

theorem reads_u64 {o : ℕ} (h : Reads f (o + 8) rest) : Reads f o (u64 (getU64 f o) :: rest) :=
  ⟨fun _ hj ↦ leByte_getU64 f o hj, h⟩

theorem reads_u32 {o : ℕ} (h : Reads f (o + 4) rest) : Reads f o (u32 (getU32 f o) :: rest) :=
  ⟨fun _ hj ↦ leByte_getU32 f o hj, h⟩

theorem reads_u16 {o : ℕ} (h : Reads f (o + 2) rest) : Reads f o (u16 (getU16 f o) :: rest) :=
  ⟨fun _ hj ↦ leByte_getU16 f o hj, h⟩

theorem reads_u8 {o : ℕ} (h : Reads f (o + 1) rest) : Reads f o (u8 (f o) :: rest) := by
  refine ⟨fun j hj ↦ ?_, h⟩
  obtain rfl : j = 0 := Nat.lt_one_iff.mp hj
  rfl

theorem reads_arr (n : ℕ) {o : ℕ} (h : Reads f (o + n) rest) :
    Reads f o (arr (fun i : Fin n ↦ f (o + i)) :: rest) :=
  ⟨fun _ hj ↦ dif_pos hj, h⟩

end reads

theorem Super.reads_decode (f : ℕ → UInt8) : Reads f 0 (Super.decode f).fields := by
  have h37 : Reads f 225 [arr (Super.decode f).sPad, arr (Super.decode f).sEcc,
      arr (Super.decode f).sReserved] :=
    reads_arr f 3 (reads_arr f 64 (reads_arr f 3804 trivial))
  have h33 : Reads f 208 [u32 (getU32 f 208), u64 (getU64 f 212), u32 (getU32 f 220),
      u8 (Super.decode f).sPdirDepth, arr (Super.decode f).sPad, arr (Super.decode f).sEcc,
      arr (Super.decode f).sReserved] :=
    reads_u32 f (reads_u64 f (reads_u32 f (reads_u8 f h37)))
  have h22 : Reads f 148 (u32 (getU32 f 148) :: u32 (getU32 f 152) :: u32 (getU32 f 156) ::
      u64 (getU64 f 160) :: u64 (getU64 f 168) :: u64 (getU64 f 176) :: u64 (getU64 f 184) ::
      u32 (getU32 f 192) :: u32 (getU32 f 196) :: u32 (getU32 f 200) :: u32 (getU32 f 204) ::
      (Super.decode f).fields.drop 33) :=
    reads_u32 f (reads_u32 f (reads_u32 f (reads_u64 f (reads_u64 f (reads_u64 f (reads_u64 f
      (reads_u32 f (reads_u32 f (reads_u32 f (reads_u32 f h33))))))))))
  have h12 : Reads f 80 (u32 (getU32 f 80) :: u64 (getU64 f 84) :: u64 (getU64 f 92) ::
      u64 (getU64 f 100) :: u64 (getU64 f 108) :: u32 (getU32 f 116) :: u32 (getU32 f 120) ::
      u64 (getU64 f 124) :: u64 (getU64 f 132) :: u64 (getU64 f 140) ::
      (Super.decode f).fields.drop 22) :=
    reads_u32 f (reads_u64 f (reads_u64 f (reads_u64 f (reads_u64 f (reads_u32 f (reads_u32 f
      (reads_u64 f (reads_u64 f (reads_u64 f h22)))))))))
  exact reads_u32 f (reads_u32 f (reads_u32 f (reads_u32 f (reads_u64 f (reads_u64 f (reads_u64 f
    (reads_u64 f (reads_u64 f (reads_u64 f (reads_u64 f (reads_u64 f h12)))))))))))

theorem Super.encode_decode {f : ℕ → UInt8} (h : ∀ i, blockSize ≤ i → f i = 0) :
    (Super.decode f).encode = f := by
  funext i
  rcases Nat.lt_or_ge i blockSize with hi | hi
  · have hlayout := layout_of_reads (Super.reads_decode f) (by rw [Super.width]; exact hi)
    rwa [Nat.zero_add] at hlayout
  · rw [Super.encode_beyond _ hi, h i hi]

theorem Inode.reads_decode (f : ℕ → UInt8) : Reads f 0 (Inode.decode f).fields := by
  have h18 : Reads f 96 [u64 (getU64 f 96), arr (Inode.decode f).iName, arr (Inode.decode f).iUnion,
      u32 (getU32 f 488), arr (Inode.decode f).iEcc, arr (Inode.decode f).iTail] :=
    reads_u64 f (reads_arr f 256 (reads_arr f 128 (reads_u32 f (reads_arr f 62
      (reads_arr f 6 trivial)))))
  have h8 : Reads f 32 (u64 (getU64 f 32) :: u64 (getU64 f 40) :: u64 (getU64 f 48) ::
      u64 (getU64 f 56) :: u64 (getU64 f 64) :: u64 (getU64 f 72) :: u32 (getU32 f 80) ::
      u32 (getU32 f 84) :: u32 (getU32 f 88) :: u32 (getU32 f 92) ::
      (Inode.decode f).fields.drop 18) :=
    reads_u64 f (reads_u64 f (reads_u64 f (reads_u64 f (reads_u64 f (reads_u64 f (reads_u32 f
      (reads_u32 f (reads_u32 f (reads_u32 f h18)))))))))
  exact reads_u16 f (reads_u16 f (reads_u16 f (reads_u16 f (reads_u32 f (reads_u32 f
    (reads_u64 f (reads_u64 f h8)))))))

theorem Inode.encode_decode (f : ℕ → UInt8) {i : ℕ} (hi : i < inodeSize) :
    (Inode.decode f).encode i = f i := by
  have hwidth : ((Inode.decode f).fields.map Prod.fst).sum = inodeSize := by
    simp [Inode.fields, inodeSize]
  have hlayout := layout_of_reads (Inode.reads_decode f) (by rw [hwidth]; exact hi)
  rwa [Nat.zero_add] at hlayout

theorem Inode.decode_encode (n : Inode) : Inode.decode n.encode = n := by
  have h0 := getU16_layout n.fields 0 0 n.iMode rfl (by simp [Inode.fields, fieldOff])
  have h1 := getU16_layout n.fields 1 2 n.iUid rfl (by simp [Inode.fields, fieldOff])
  have h2 := getU16_layout n.fields 2 4 n.iGid rfl (by simp [Inode.fields, fieldOff])
  have h3 := getU16_layout n.fields 3 6 n.iFileType rfl (by simp [Inode.fields, fieldOff])
  have h4 := getU32_layout n.fields 4 8 n.iNlinks rfl (by simp [Inode.fields, fieldOff])
  have h5 := getU32_layout n.fields 5 12 n.iPad rfl (by simp [Inode.fields, fieldOff])
  have h6 := getU64_layout n.fields 6 16 n.iSize rfl (by simp [Inode.fields, fieldOff])
  have h7 := getU64_layout n.fields 7 24 n.iBlocks rfl (by simp [Inode.fields, fieldOff])
  have h8 := getU64_layout n.fields 8 32 n.iAtime rfl (by simp [Inode.fields, fieldOff])
  have h9 := getU64_layout n.fields 9 40 n.iMtime rfl (by simp [Inode.fields, fieldOff])
  have h10 := getU64_layout n.fields 10 48 n.iCtime rfl (by simp [Inode.fields, fieldOff])
  have h11 := getU64_layout n.fields 11 56 n.iBtime rfl (by simp [Inode.fields, fieldOff])
  have h12 := getU64_layout n.fields 12 64 n.iFlags rfl (by simp [Inode.fields, fieldOff])
  have h13 := getU64_layout n.fields 13 72 n.iGeneration rfl (by simp [Inode.fields, fieldOff])
  have h14 := getU32_layout n.fields 14 80 n.iWinAttrs rfl (by simp [Inode.fields, fieldOff])
  have h15 := getU32_layout n.fields 15 84 n.iUidHigh rfl (by simp [Inode.fields, fieldOff])
  have h16 := getU32_layout n.fields 16 88 n.iGidHigh rfl (by simp [Inode.fields, fieldOff])
  have h17 := getU32_layout n.fields 17 92 n.iReserved1 rfl (by simp [Inode.fields, fieldOff])
  have h18 := getU64_layout n.fields 18 96 n.iParentIno rfl (by simp [Inode.fields, fieldOff])
  have h19 := arr_layout n.fields 19 104 n.iName rfl (by simp [Inode.fields, fieldOff])
  have h20 := arr_layout n.fields 20 360 n.iUnion rfl (by simp [Inode.fields, fieldOff])
  have h21 := getU32_layout n.fields 21 488 n.iChecksum rfl (by simp [Inode.fields, fieldOff])
  have h22 := arr_layout n.fields 22 492 n.iEcc rfl (by simp [Inode.fields, fieldOff])
  have h23 := arr_layout n.fields 23 554 n.iTail rfl (by simp [Inode.fields, fieldOff])
  rw [Inode.decode, Inode.encode, h0, h1, h2, h3, h4, h5, h6, h7, h8, h9, h10, h11, h12, h13, h14,
    h15, h16, h17, h18, h19, h20, h21, h22, h23]

theorem PagedSlot.decode_encode (s : PagedSlot) : PagedSlot.decode s.encode = s := by
  have h0 := getU64_layout s.fields 0 0 s.hash rfl (by simp [PagedSlot.fields, fieldOff])
  have h1 := getU64_layout s.fields 1 8 s.fileOff rfl (by simp [PagedSlot.fields, fieldOff])
  have h2 := getU32_layout s.fields 2 16 s.klen rfl (by simp [PagedSlot.fields, fieldOff])
  have h3 := getU32_layout s.fields 3 20 s.vlen rfl (by simp [PagedSlot.fields, fieldOff])
  have h4 := arr_layout s.fields 4 24 s.keyPrefix rfl (by simp [PagedSlot.fields, fieldOff])
  have h5 := u8_layout s.fields 5 40 s.flags rfl (by simp [PagedSlot.fields, fieldOff])
  have h6 := arr_layout s.fields 6 41 s.pad rfl (by simp [PagedSlot.fields, fieldOff])
  rw [PagedSlot.decode, PagedSlot.encode, h0, h1, h2, h3, h4, h5, h6]

theorem DirChild.decode_encode (c : DirChild) : DirChild.decode c.encode = c := by
  have h0 := getU64_layout c.fields 0 0 c.dcHash rfl (by simp [DirChild.fields, fieldOff])
  have h1 := arr_layout c.fields 1 8 c.dcName rfl (by simp [DirChild.fields, fieldOff])
  have h2 := u8_layout c.fields 2 264 c.dcType rfl (by simp [DirChild.fields, fieldOff])
  rw [DirChild.decode, DirChild.encode, h0, h1, h2]

theorem PagedPage.encode_head (p : PagedPage) {w o : ℕ} (h : o + w ≤ 16) :
    getLE p.encode w o = getLE
      (layout [u16 p.count, u16 p.localDepth, u32 p.inlineUsed, u64 p.overflowNext]) w o :=
  getLE_congr fun j hj ↦ if_pos (by omega)

theorem PagedPage.encode_slot (p : PagedPage) (i : Fin 56) {j : ℕ} (hj : j < 48) :
    p.encode (16 + 48 * i + j) = (p.slots i).encode j := by
  have hi := i.isLt
  have hdiv : (16 + 48 * i.val + j - 16) / 48 = i := by omega
  have hmod : (16 + 48 * i.val + j - 16) % 48 = j := by omega
  rw [PagedPage.encode, if_neg (by omega), dif_pos (by omega)]
  simp only [hdiv, hmod]

theorem PagedSlot.decode_congr {f g : ℕ → UInt8} (h : ∀ j < 48, f j = g j) :
    PagedSlot.decode f = PagedSlot.decode g := by
  have hLE {w o : ℕ} (hw : o + w ≤ 48) : getLE f w o = getLE g w o :=
    getLE_congr fun j hj ↦ h (o + j) (by omega)
  simp only [PagedSlot.decode, getU64, getU32, hLE (w := 8) (o := 0) (by omega),
    hLE (w := 8) (o := 8) (by omega), hLE (w := 4) (o := 16) (by omega),
    hLE (w := 4) (o := 20) (by omega), h 40 (by omega), PagedSlot.mk.injEq, true_and]
  exact ⟨funext fun i ↦ h _ (by omega), funext fun i ↦ h _ (by omega)⟩

theorem PagedPage.decode_encode (p : PagedPage) : PagedPage.decode p.encode = p := by
  have h0 := getU16_layout _ 0 0 p.count (rfl : [u16 p.count, u16 p.localDepth,
    u32 p.inlineUsed, u64 p.overflowNext][0]? = _) rfl
  have h1 := getU16_layout _ 1 2 p.localDepth (rfl : [u16 p.count, u16 p.localDepth,
    u32 p.inlineUsed, u64 p.overflowNext][1]? = _) rfl
  have h2 := getU32_layout _ 2 4 p.inlineUsed (rfl : [u16 p.count, u16 p.localDepth,
    u32 p.inlineUsed, u64 p.overflowNext][2]? = _) rfl
  have h3 := getU64_layout _ 3 8 p.overflowNext (rfl : [u16 p.count, u16 p.localDepth,
    u32 p.inlineUsed, u64 p.overflowNext][3]? = _) rfl
  have hslots : (fun i : Fin 56 ↦ PagedSlot.decode fun j ↦ p.encode (16 + 48 * i + j)) =
      p.slots := by
    funext i
    rw [PagedSlot.decode_congr (g := (p.slots i).encode) fun j hj ↦ p.encode_slot i hj,
      PagedSlot.decode_encode]
  have harea : (fun i : Fin 1392 ↦ p.encode (2704 + i)) = p.inlineArea := by
    funext i
    rw [PagedPage.encode, if_neg (by omega), dif_neg (by omega), dif_pos (by omega)]
    simp
  simp only [getU16, getU32, getU64] at h0 h1 h2 h3
  rw [PagedPage.decode, hslots, harea]
  simp only [getU16, getU32, getU64]
  rw [p.encode_head (by omega), p.encode_head (by omega), p.encode_head (by omega),
    p.encode_head (by omega), h0, h1, h2, h3]

theorem PagedSlot.encode_decode (f : ℕ → UInt8) {j : ℕ} (hj : j < 48) :
    (PagedSlot.decode f).encode j = f j := by
  have hreads : Reads f 0 (PagedSlot.decode f).fields :=
    reads_u64 f (reads_u64 f (reads_u32 f (reads_u32 f (reads_arr f 16 (reads_u8 f
      (reads_arr f 7 trivial))))))
  have h := layout_of_reads hreads (show j < _ by simpa [PagedSlot.fields] using hj)
  rwa [Nat.zero_add] at h

theorem PagedPage.encode_decode (f : ℕ → UInt8) {i : ℕ} (hi : i < blockSize) :
    (PagedPage.decode f).encode i = f i := by
  have hsize : blockSize = 4096 := rfl
  have hreads : Reads f 0 [u16 (PagedPage.decode f).count, u16 (PagedPage.decode f).localDepth,
      u32 (PagedPage.decode f).inlineUsed, u64 (PagedPage.decode f).overflowNext] :=
    reads_u16 f (reads_u16 f (reads_u32 f (reads_u64 f trivial)))
  rw [PagedPage.encode]
  split
  · rename_i h16
    have h := layout_of_reads hreads (show i < _ by simpa using h16)
    rwa [Nat.zero_add] at h
  · split
    · have hslot (k : Fin 56) : (PagedPage.decode f).slots k =
          PagedSlot.decode fun j ↦ f (16 + 48 * k + j) := rfl
      have hlt : (i - 16) % 48 < 48 := Nat.mod_lt _ (by omega)
      have hat : 16 + 48 * ((i - 16) / 48) + (i - 16) % 48 = i := by omega
      rw [hslot, PagedSlot.encode_decode _ hlt]
      exact congrArg f hat
    · have harea (k : Fin 1392) : (PagedPage.decode f).inlineArea k = f (2704 + k) := rfl
      have hat : 2704 + (i - 2704) = i := by omega
      rw [dif_pos (by omega), harea]
      exact congrArg f hat

theorem PagedPage.decode_congr {f g : ℕ → UInt8} (h : ∀ j < blockSize, f j = g j) :
    PagedPage.decode f = PagedPage.decode g := by
  have hbs : blockSize = 4096 := rfl
  have hLE {w o : ℕ} (hw : o + w ≤ 4096) : getLE f w o = getLE g w o :=
    getLE_congr fun j hj ↦ h (o + j) (by omega)
  have hslots : (fun i : Fin 56 ↦ PagedSlot.decode fun j ↦ f (16 + 48 * i + j)) =
      fun i : Fin 56 ↦ PagedSlot.decode fun j ↦ g (16 + 48 * i + j) :=
    funext fun i ↦ PagedSlot.decode_congr fun j hj ↦ h _ (by omega)
  have harea : (fun i : Fin 1392 ↦ f (2704 + i)) = fun i : Fin 1392 ↦ g (2704 + i) :=
    funext fun i ↦ h _ (by omega)
  simp only [PagedPage.decode, getU16, getU32, getU64, hslots, harea,
    hLE (w := 2) (o := 0) (by omega), hLE (w := 2) (o := 2) (by omega),
    hLE (w := 4) (o := 4) (by omega), hLE (w := 8) (o := 8) (by omega)]

theorem DirChild.decode_congr {f g : ℕ → UInt8} (h : ∀ j < dirChildSize, f j = g j) :
    DirChild.decode f = DirChild.decode g := by
  have h0 : getLE f 8 0 = getLE g 8 0 :=
    getLE_congr fun j hj ↦ h (0 + j) (by simp only [dirChildSize]; omega)
  simp only [DirChild.decode, getU64, h0, h 264 (by decide), DirChild.mk.injEq, true_and, and_true]
  exact funext fun i ↦ h _ (by simp only [dirChildSize]; omega)

theorem decodeChildren_encode {f : ℕ → UInt8} {cs : List DirChild}
    (h : ∀ i < cs.length * dirChildSize, f i = encodeChildren cs i) :
    decodeChildren f cs.length = cs := by
  apply List.ext_getElem
  · simp [decodeChildren]
  · intro k hk hk'
    simp only [decodeChildren, List.getElem_map, List.getElem_range]
    rw [DirChild.decode_congr (g := (cs[k]).encode), DirChild.decode_encode]
    intro j hj
    have hdiv : (k * dirChildSize + j) / dirChildSize = k := by
      simp only [dirChildSize] at hj ⊢; omega
    have hmod : (k * dirChildSize + j) % dirChildSize = j := by
      simp only [dirChildSize] at hj ⊢; omega
    rw [h _ (by simp only [dirChildSize] at hj ⊢; omega), encodeChildren, hdiv, hmod,
      List.getElem?_eq_getElem hk']

theorem bytesAt_toList (f : ℕ → UInt8) {n i : ℕ} (h : i < n) : bytesAt (toList f n) i = f i := by
  simp [bytesAt, toList, h]

@[simp] theorem toList_length (f : ℕ → UInt8) (n : ℕ) : (toList f n).length = n := by
  simp [toList]

theorem Inode.decode_congr {f g : ℕ → UInt8} (h : ∀ j < inodeSize, f j = g j) :
    Inode.decode f = Inode.decode g := by
  have hLE {w o : ℕ} (hw : o + w ≤ inodeSize) : getLE f w o = getLE g w o :=
    getLE_congr fun j hj ↦ h (o + j) (by omega)
  have hb (o n : ℕ) (ho : o + n ≤ inodeSize) :
      (fun i : Fin n ↦ f (o + i)) = fun i : Fin n ↦ g (o + i) :=
    funext fun i ↦ h _ (by omega)
  have h16 (o : ℕ) (ho : o + 2 ≤ inodeSize) : getU16 f o = getU16 g o := by
    rw [getU16, hLE ho, getU16]
  have h32 (o : ℕ) (ho : o + 4 ≤ inodeSize) : getU32 f o = getU32 g o := by
    rw [getU32, hLE ho, getU32]
  have h64 (o : ℕ) (ho : o + 8 ≤ inodeSize) : getU64 f o = getU64 g o := by
    rw [getU64, hLE ho, getU64]
  rw [Inode.decode, Inode.decode, h16 0 (by decide), h16 2 (by decide), h16 4 (by decide),
    h16 6 (by decide), h32 8 (by decide), h32 12 (by decide), h64 16 (by decide),
    h64 24 (by decide), h64 32 (by decide), h64 40 (by decide), h64 48 (by decide),
    h64 56 (by decide), h64 64 (by decide), h64 72 (by decide), h32 80 (by decide),
    h32 84 (by decide), h32 88 (by decide), h32 92 (by decide), h64 96 (by decide),
    hb 104 256 (by decide), hb 360 128 (by decide), h32 488 (by decide), hb 492 62 (by decide),
    hb 554 6 (by decide)]

theorem Super.decode_congr {f g : ℕ → UInt8} (h : ∀ j < blockSize, f j = g j) :
    Super.decode f = Super.decode g := by
  have hLE {w o : ℕ} (hw : o + w ≤ blockSize) : getLE f w o = getLE g w o :=
    getLE_congr fun j hj ↦ h (o + j) (by omega)
  have hb (o n : ℕ) (ho : o + n ≤ blockSize) :
      (fun i : Fin n ↦ f (o + i)) = fun i : Fin n ↦ g (o + i) :=
    funext fun i ↦ h _ (by omega)
  have h32 (o : ℕ) (ho : o + 4 ≤ blockSize) : getU32 f o = getU32 g o := by
    rw [getU32, hLE ho, getU32]
  have h64 (o : ℕ) (ho : o + 8 ≤ blockSize) : getU64 f o = getU64 g o := by
    rw [getU64, hLE ho, getU64]
  rw [Super.decode, Super.decode, h32 0 (by decide), h32 4 (by decide), h32 8 (by decide),
    h32 12 (by decide), h64 16 (by decide), h64 24 (by decide), h64 32 (by decide),
    h64 40 (by decide), h64 48 (by decide), h64 56 (by decide), h64 64 (by decide),
    h64 72 (by decide), h32 80 (by decide), h64 84 (by decide), h64 92 (by decide),
    h64 100 (by decide), h64 108 (by decide), h32 116 (by decide), h32 120 (by decide),
    h64 124 (by decide), h64 132 (by decide), h64 140 (by decide), h32 148 (by decide),
    h32 152 (by decide), h32 156 (by decide), h64 160 (by decide), h64 168 (by decide),
    h64 176 (by decide), h64 184 (by decide), h32 192 (by decide), h32 196 (by decide),
    h32 200 (by decide), h32 204 (by decide), h32 208 (by decide), h64 212 (by decide),
    h32 220 (by decide), h 224 (by decide), hb 225 3 (by decide), hb 228 64 (by decide),
    hb 292 3804 (by decide)]

theorem valToInode_inodeToVal (n : Inode) : valToInode (inodeToVal n) = n := by
  rw [valToInode, inodeToVal, Inode.decode_congr (g := n.encode), Inode.decode_encode]
  intro j hj
  exact bytesAt_toList _ hj

end Xxfs.DiskFormat

namespace Xxfs.PagedIndex

open Xxfs.DiskFormat Xxfs.Lib.LittleEndian

theorem recordBytes_key (key : Path) (val : List UInt8) {i : ℕ} (h : i < key.length) :
    recordBytes key val (8 + i) = bytesAt key i := by
  rw [recordBytes]
  exact layout_field (k := 2) rfl h

theorem recordBytes_val (key : Path) (val : List UInt8) {i : ℕ} (h : i < val.length) :
    recordBytes key val (8 + key.length + i) = bytesAt val i := by
  have ho : fieldOff [u32 (UInt32.ofNat key.length), u32 (UInt32.ofNat val.length),
      (key.length, bytesAt key), (val.length, bytesAt val)] 3 = 8 + key.length := by
    simp only [fieldOff, u32_width]
    omega
  rw [recordBytes, ← ho]
  exact layout_field (k := 3) rfl h

end Xxfs.PagedIndex

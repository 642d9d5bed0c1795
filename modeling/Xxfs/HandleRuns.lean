import Xxfs.BodySteps
import Xxfs.Reach
import Xxfs.ReadAfterWrite

namespace Xxfs.Soundness

open Function
open Xxfs.DiskFormat Xxfs.Machine Xxfs.InodeCache Xxfs.DirCache Xxfs.Volume Xxfs.Operations Xxfs.Hash
open Xxfs.PathName Xxfs.IndexRep Xxfs.CacheMap Xxfs.IndexState Xxfs.FreshVolume Xxfs.FreshIndex
open Xxfs.NamespaceRuns Xxfs.OperationFrames Xxfs.CacheKeys Xxfs.Runs Xxfs.Reach Xxfs.Lib Xxfs.Lib.Computation Xxfs.Lib.Computation.Comp

/-- The writes to a file up to now, the latest first: those from before it was opened, and those
through the handle that stay within its blocks. In between there are operations that do not alter
the file. -/
inductive Handled (K : Path → Prop) (env : Env) (fp₀ : File) (ws₀ : List (WriteLog.Write UInt8))
    (fs₀ : Fs) : File → List (WriteLog.Write UInt8) → Fs → Prop
  | opened : Handled K env fp₀ ws₀ fs₀ fp₀ ws₀ fs₀
  | wrote {fp fp' : File} {ws : List (WriteLog.Write UInt8)} {fs fs' : Fs} {buf : ℕ → UInt8}
    {count off : UInt64} : Handled K env fp₀ ws₀ fs₀ fp ws fs →
    off.toNat + count.toNat ≤ fp.blocks.toNat * 4096 →
    xxfsWriteFd env fp buf count off fs = some ((.ok count, fp'), fs') →
    Handled K env fp₀ ws₀ fs₀ fp' (⟨off.toNat, count.toNat, buf⟩ :: ws) fs'
  | other {fp : File} {ws : List (WriteLog.Write UInt8)} {fs fs' : Fs} {op : Op} :
    Handled K env fp₀ ws₀ fs₀ fp ws fs → Careful K fs op → ¬Alters fp.path op →
    exec env op fs = some ((), fs') → Live fs' → Handled K env fp₀ ws₀ fs₀ fp ws fs'

/-- The handle `fp` still points into the file `n`: the writes have made its bytes, but only the
handle knows the size. -/
structure Grips (f : ℕ → UInt8) (s : ℕ) (size₀ : UInt64) (ws : List (WriteLog.Write UInt8)) (img : Image)
    (n : Inode) (fp : File) : Prop where
  file : n.iFileType ≠ ftDir
  hash : fp.hash = xxh64 fp.path
  start : fp.extentOff = n.iExtentOff
  blocks : fp.blocks = n.iBlocks
  some : n.iBlocks ≠ 0
  stored : n.iSize = size₀
  size : fp.size.toNat = WriteLog.size s ws
  within : fp.size.toNat ≤ n.iBlocks.toNat * 4096
  full : n.iExtentOff.toNat + fp.size.toNat ≤ img.size
  bytes : WriteLog.Holds f s ws (content img n)
  behind : ∀ i, fp.size.toNat ≤ i → i < n.iBlocks.toNat * 4096 → content img n i = 0

def Gripped (K : Path → Prop) (f : ℕ → UInt8) (s : ℕ) (size₀ : UInt64) (ws : List (WriteLog.Write UInt8))
    (fp : File) (fs : Fs) : Prop :=
  ∃ m n, Sound K m ∅ fs ∧ seen m fs fp.path = some n ∧ Grips f s size₀ ws fs.img n fp

section grips

variable {f : ℕ → UInt8} {s : ℕ} {size₀ : UInt64} {ws : List (WriteLog.Write UInt8)} {img img' : Image}
  {n n' : Inode} {fp : File}

theorem content_extent (hb : n.iBlocks ≠ 0) (img : Image) (i : ℕ) :
    content img n i = img.data (n.iExtentOff.toNat + i) := if_neg hb

theorem Grips.body (h : Grips f s size₀ ws img n fp) (hb : SameBody n n') (hsize : img.size ≤ img'.size)
    (hdata : ∀ i ∈ extent n, img'.data i = img.data i) : Grips f s size₀ ws img' n' fp := by
  have hsame (i : ℕ) (hi : i < n.iBlocks.toNat * 4096) : content img' n' i = content img n i := by
    rw [hb.bytes, content_extent h.some, content_extent h.some]
    exact hdata _ ⟨by omega, by omega⟩
  have hw := h.within
  have hfull : n'.iExtentOff.toNat + fp.size.toNat ≤ img'.size := by
    rw [hb.extentOff]
    exact h.full.trans hsize
  refine ⟨hb.type ▸ h.file, h.hash, h.start.trans hb.extentOff.symm, h.blocks.trans hb.blocks.symm,
    hb.blocks ▸ h.some, hb.size.trans h.stored, h.size, hb.blocks ▸ h.within, hfull, fun i hi ↦ ?_,
    fun i hi hlt ↦ ?_⟩
  · rw [hsame i (by rw [← h.size] at hi; omega), h.bytes i hi]
  · rw [hb.blocks] at hlt
    rw [hsame i hlt, h.behind i hi hlt]

theorem Replays.grips (h : Replays f s ws img n) (ht : n.iFileType ≠ ftDir) (hb : n.iBlocks ≠ 0)
    (hshape : Shape img.size n) (p : Path) (flags : UInt32) :
    Grips f s n.iSize ws img n ⟨xxh64 p, n.iExtentOff, n.iSize, n.iBlocks, p, flags⟩ := by
  refine ⟨ht, rfl, rfl, rfl, hb, rfl, h.size, ?_, hshape.filled (pos_of_ne_zero hb), h.bytes,
    fun i hi hlt ↦ ?_⟩
  · rcases hshape.file ht with ⟨h0, -⟩ | ⟨-, hs⟩
    · exact (hb h0).elim
    · exact hs
  · refine h.padded i hi ?_
    rwa [room, if_neg hb]

theorem Grips.poured (h : Grips f s size₀ ws img n fp) (hf : ∀ i, s ≤ i → f i = 0) {buf : ℕ → UInt8}
    {count off : UInt64} (hpos : count.toNat ≠ 0) (hroom : off.toNat + count.toNat ≤ n.iBlocks.toNat * 4096)
    (hbound : off.toNat + count.toNat < 2 ^ 64) :
    Grips f s size₀ (⟨off.toNat, count.toNat, buf⟩ :: ws)
      (img.write buf count.toNat (n.iExtentOff.toNat + off.toNat)) n
      { fp with size := maxSize fp.size (off + count) } := by
  have hend : (off + count).toNat = off.toNat + count.toNat := by
    rw [UInt64.toNat_add]
    omega
  have hmax : (maxSize fp.size (off + count)).toNat = max fp.size.toNat (off.toNat + count.toNat) := by
    rw [maxSize]
    split
    · rename_i hgt
      rw [gt_iff_lt, UInt64.lt_iff_toNat_lt] at hgt
      omega
    · rename_i hgt
      rw [gt_iff_lt, UInt64.lt_iff_toNat_lt] at hgt
      omega
  have hout (i : ℕ) (hi : i < off.toNat ∨ off.toNat + count.toNat ≤ i) :
      content (img.write buf count.toNat (n.iExtentOff.toNat + off.toNat)) n i = content img n i := by
    rw [content_extent h.some, content_extent h.some]
    exact Image.write_out _ _ (by omega)
  have hw := h.within
  have hfull := h.full
  refine ⟨h.file, h.hash, h.start, h.blocks, h.some, h.stored, ?_, ?_, ?_, ?_, fun i hi hlt ↦ ?_⟩
  · dsimp only
    rw [hmax, h.size]
    rfl
  · dsimp only
    omega
  · have hgrown : (img.write buf count.toNat (n.iExtentOff.toNat + off.toNat)).size =
        max img.size (n.iExtentOff.toNat + off.toNat + count.toNat) := if_neg hpos
    dsimp only
    omega
  · refine h.bytes.write hf (fun i hi ↦ ?_) (fun i hi hc ↦ ?_) fun i hi hlt ↦ ?_
    · dsimp only at hi ⊢
      rw [content_extent h.some, Image.write_in _ _ (by omega) (by omega)]
      congr 1
      omega
    · rw [WriteLog.Covers] at hc
      dsimp only at hc
      exact hout i (by omega)
    · dsimp only at hlt
      rw [hout i (.inl hlt)]
      exact h.behind i (h.size ▸ hi) (by omega)
  · dsimp only at hi
    rw [hmax] at hi
    rw [hout i (.inr (by omega))]
    exact h.behind i (by omega) hlt

end grips

section handles

variable {env : Env} (he : Healthy env) {K : Path → Prop} (hK : Names K) {fs₀ fs fs' : Fs} {fp₀ fp : File}
  {ws₀ ws : List (WriteLog.Write UInt8)} {f : ℕ → UInt8} {s : ℕ} {size₀ : UInt64}

include he hK

theorem Replayed.opened {path : Path} {flags : UInt32} (hfree : LockFree fs) (hp : K (pathNormalize path))
    (h : Replayed K (pathNormalize path) f s ws fs) (hx : xxfsOpen env path flags fs = some (.ok fp, fs'))
    (hb : fp.blocks ≠ 0) : Gripped K f s fp.size ws fp fs' := by
  obtain ⟨m, n, hs, hn, ht, hr⟩ := h
  obtain ⟨fs₁, hopen, hL⟩ : ∃ fs₁, xxfsOpen env path flags fs = some (_, fs₁) ∧ _ := hs.open he hK hp
  rw [hx, hn, openOut, if_neg ht] at hopen
  obtain ⟨hfp, rfl⟩ := Prod.mk.inj (Option.some.inj hopen)
  obtain rfl := Except.ok.inj hfp
  have hg := hr.grips ht hb (hs.owned.shape _ n hn) (pathNormalize path) flags
  have hexec : exec env (.openFile path flags) fs = some ((), fs') := exec_discard hx
  have hdata : ∀ i ∈ extent n, fs'.img.data i = fs.img.data i :=
    hL.effect.data _ n (Set.notMem_empty _) hn fun hd ↦ (ht hd).elim
  refine ⟨m, n, hL.sound, ?_, hg.body (.refl n) (exec_size env hfree hexec) hdata⟩
  rw [hL.seen]
  exact hn

omit hK in
theorem Gripped.wrote {fp' : File} {buf : ℕ → UInt8} {count off : UInt64} (hf : ∀ i, s ≤ i → f i = 0)
    (h : Gripped K f s size₀ ws fp fs) (hroom : off.toNat + count.toNat ≤ fp.blocks.toNat * 4096)
    (hx : xxfsWriteFd env fp buf count off fs = some ((.ok count, fp'), fs')) :
    fp'.path = fp.path ∧ Gripped K f s size₀ (⟨off.toNat, count.toNat, buf⟩ :: ws) fp' fs' := by
  obtain ⟨m, n, hs, hn, hg⟩ := h
  rw [hg.blocks] at hroom
  have h0 : count ≠ 0 := by
    rintro rfl
    rw [xxfsWriteFd, if_pos rfl] at hx
    cases hx
  have hin : Lands fp n count off := ⟨hg.file, hg.start, hg.blocks, hg.some, hroom⟩
  have hbound := (hs.extent_off hn (pos_of_ne_zero hg.some)).2
  have hfront := hs.bound
  rw [hs.writeFd he hn hin h0] at hx
  obtain ⟨hr, rfl⟩ := Prod.mk.inj (Option.some.inj hx)
  obtain ⟨-, rfl⟩ := Prod.mk.inj hr
  have hpos : count.toNat ≠ 0 := fun hc ↦ h0 (UInt64.toNat_inj.mp hc)
  exact ⟨rfl, m, n, (hs.poured hn hin).1, hn, hg.poured hf hpos hroom (by omega)⟩

theorem Gripped.other {op : Op} (hfree : LockFree fs) (h : Gripped K f s size₀ ws fp fs) (hc : Careful K fs op)
    (hop : ¬Alters fp.path op) (hx : exec env op fs = some ((), fs')) (hl : Live fs') :
    Gripped K f s size₀ ws fp fs' := by
  obtain ⟨m, n, hs, hn, hg⟩ := h
  obtain ⟨m', hs', n', hn', hb, hdata⟩ := hs.keeps he hK hn hg.file ((careful_iff hK hs).mp hc) hop hx hl
  exact ⟨m', n', hs', hn', hg.body hb (exec_size env hfree hx) hdata⟩

omit he hK in
theorem Handled.reachable (h : Handled K env fp₀ ws₀ fs₀ fp ws fs) (hr : Reachable env fs₀) :
    Reachable env fs := by
  induction h with
  | opened => exact hr
  | @wrote fp _ _ fs fs' buf count off _ _ hx ih =>
    have hexec : exec env (.writeFd fp buf count off) fs = some ((), fs') := exec_discard hx
    exact ih.step hexec
  | other _ _ _ hx _ ih => exact ih.step hx

theorem Handled.gripped (hr : Reachable env fs₀) (hf : ∀ i, s ≤ i → f i = 0)
    (h₀ : Gripped K f s size₀ ws₀ fp₀ fs₀) (h : Handled K env fp₀ ws₀ fs₀ fp ws fs) :
    fp.path = fp₀.path ∧ Gripped K f s size₀ ws fp fs := by
  induction h with
  | opened => exact ⟨rfl, h₀⟩
  | wrote _ hroom hx ih =>
    obtain ⟨hpath, hg⟩ := ih
    obtain ⟨hpath', hg'⟩ := hg.wrote he hf hroom hx
    exact ⟨hpath'.trans hpath, hg'⟩
  | other hh hc hop hx hl ih =>
    obtain ⟨hpath, hg⟩ := ih
    exact ⟨hpath, hg.other he hK (reachable_orderly env (hh.reachable hr)).lock hc hop hx hl⟩

omit hK in
theorem Gripped.readFd (h : Gripped K f s size₀ ws fp fs) (hf : ∀ i, s ≤ i → f i = 0) {count : UInt64}
    (h0 : count ≠ 0) (off : UInt64) (buf : ℕ → UInt8) : ∃ k buf',
      result (xxfsReadFd env fp buf count off) fs = some (.ok k, buf') ∧
        k.toNat = min count.toNat (WriteLog.size s ws - off.toNat) ∧
        ∀ i, buf' i = if i < k.toNat ∨ k = 0 ∧ i < count.toNat
          then WriteLog.latest f ws (off.toNat + i) else buf i := by
  obtain ⟨m, n, hs, hn, hg⟩ := h
  have hpos := pos_of_ne_zero hg.some
  obtain ⟨-, hhigh⟩ := hs.extent_off hn hpos
  have hbound := hs.bound
  have hwithin := hg.within
  have hfull := hg.full
  have hcount : count.toNat ≠ 0 := fun hc ↦ h0 (UInt64.toNat_inj.mp hc)
  by_cases hoff : off < fp.size
  · have hlt := UInt64.lt_iff_toNat_lt.mp hoff
    have hsub : (fp.size - off).toNat = fp.size.toNat - off.toNat :=
      UInt64.toNat_sub_of_le _ _ (UInt64.le_iff_toNat_le.mpr hlt.le)
    have hat : (fp.extentOff + off).toNat = n.iExtentOff.toNat + off.toNat := by
      rw [UInt64.toNat_add, hg.start]
      omega
    have hmin : (if count > fp.size - off then fp.size - off else count).toNat =
        min count.toNat (fp.size.toNat - off.toNat) := by
      split
      · rename_i hgt
        rw [gt_iff_lt, UInt64.lt_iff_toNat_lt, hsub] at hgt
        omega
      · rename_i hgt
        rw [gt_iff_lt, UInt64.lt_iff_toNat_lt, hsub] at hgt
        omega
    obtain ⟨c, hc⟩ : ∃ c, c = if count > fp.size - off then fp.size - off else count := ⟨_, rfl⟩
    rw [← hc] at hmin
    have hall : min c.toNat (fs.img.size - (fp.extentOff + off).toNat) = c.toNat := by
      rw [hat, hmin]
      omega
    have hread : xxfsReadFd env fp buf count off fs = some ((.ok c, fun i ↦ if i < c.toNat then
        fs.img.data ((fp.extentOff + off).toNat + i) else buf i), { fs with clock := fs.clock + 1 }) := by
      rw [xxfsReadFd, if_neg h0, if_neg (UInt64.not_le.mpr hoff), ← hc, bind_apply,
        he.osPread_apply _ _ _ (by rw [hat]; omega), Option.bind_some, hall]
      rfl
    have hsome : c ≠ 0 := by
      rintro rfl
      rw [UInt64.toNat_zero] at hmin
      omega
    refine ⟨_, _, result_of hread, by rw [hmin, hg.size], fun i ↦ ?_⟩
    simp only [hsome, false_and, or_false]
    split
    · rename_i hi
      rw [← hg.bytes _ (by rw [← hg.size]; omega), content_extent hg.some, hat, Nat.add_assoc]
    · rfl
  · have hge : fp.size.toNat ≤ off.toNat := UInt64.le_iff_toNat_le.mp (UInt64.not_lt.mp hoff)
    have hread : xxfsReadFd env fp buf count off fs =
        some ((.ok 0, fun i ↦ if i < count.toNat then 0 else buf i), fs) := by
      rw [xxfsReadFd, if_neg h0, if_pos (UInt64.not_lt.mp hoff)]
      rfl
    have hnone : WriteLog.size s ws - off.toNat = 0 := by
      rw [← hg.size]
      exact Nat.sub_eq_zero_of_le hge
    refine ⟨_, _, result_of hread, by rw [hnone, Nat.min_zero]; rfl, fun i ↦ ?_⟩
    simp only [UInt64.toNat_zero, Nat.not_lt_zero, true_and, false_or]
    split
    · rw [WriteLog.latest_behind hf (by rw [← hg.size]; exact hge.trans (Nat.le_add_right _ _))]
    · rfl

/-- Closing the handle gives the file its size, if its inode is still cached. -/
theorem Gripped.closed {rc : Rc} (hfree : LockFree fs) (hp : K fp.path)
    (h : Gripped K f s size₀ ws fp fs) (hx : xxfsClose env fp fs = some (rc, fs')) (hl : Live fs') : rc = .ok ∧
      ((cell fs.icache fp.path).isSome → Replayed K fp.path f s ws fs') ∧
      (cell fs.icache fp.path = none → Gripped K f s size₀ ws fp fs') := by
  obtain ⟨m, n, hs, hn, hg⟩ := h
  have hwithin := hg.within
  have hcloses : Closes fs.img.size fp n :=
    ⟨hg.file, hg.blocks, fun hb ↦ (hg.some hb).elim, fun _ ↦ hwithin, fun _ ↦ hg.full⟩
  have hcell (x : Inode) (d : Bool) (hx : cell fs.icache fp.path = some (x, d)) : x = n := by
    rw [seen, cur, hx] at hn
    exact Option.some.inj hn
  obtain ⟨hrc, hC⟩ := hs.close he hK hp hg.hash (fun x d hx ↦ hcell x d hx ▸ hcloses) hx hl
  refine ⟨hrc, fun hsome ↦ ?_, fun hnone ↦ ?_⟩
  · obtain ⟨⟨x, d⟩, hxd⟩ := Option.isSome_iff_exists.mp hsome
    rw [hxd] at hC
    obtain ⟨now, m', hs', hR⟩ := hC
    obtain rfl := hcell x d hxd
    have hb := sameBody_closed fp x now
    have hext := hb.extentOff
    have hblocks := hb.blocks
    have hsize := hb.size
    have htype := hb.type
    generalize closedInode fp x now = n' at *
    dsimp only at hblocks hsize htype
    rw [hg.blocks] at hblocks
    have hsame (i : ℕ) (hi : i < x.iBlocks.toNat * 4096) : content fs'.img n' i = content fs.img x i := by
      rw [content_extent (hblocks ▸ hg.some), content_extent hg.some, hext]
      exact hR.bytes x hn _ ⟨Nat.le_add_right _ _, Nat.add_lt_add_left hi _⟩
    refine ⟨m', _, hs', hR.now, ?_, ⟨?_, fun i hi ↦ ?_, fun i hi hlt ↦ ?_⟩⟩
    · rw [htype]
      exact hg.file
    · rw [hsize, hg.size]
    · rw [hsame i (by rw [← hg.size] at hi; omega), hg.bytes i hi]
    · rw [room, hblocks, if_neg hg.some] at hlt
      rw [hsize] at hi
      rw [hsame i hlt, hg.behind i hi hlt]
  · rw [hnone] at hC
    have hL : Looked K m fs fs' := hC
    have hexec : exec env (.closeFile fp) fs = some ((), fs') := exec_discard hx
    refine ⟨m, n, hL.sound, ?_, hg.body (.refl n) (exec_size env hfree hexec)
      (hL.effect.data _ n (Set.notMem_empty _) hn fun hd ↦ (hg.file hd).elim)⟩
    rw [hL.seen]
    exact hn

end handles

section first

end first

end Xxfs.Soundness

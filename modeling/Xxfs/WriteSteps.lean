import Xxfs.FileSteps

namespace Xxfs.Soundness

open Function
open Xxfs.DiskFormat Xxfs.Machine Xxfs.Allocator Xxfs.PagedIndex Xxfs.PageStore Xxfs.InodeCache
open Xxfs.DirCache Xxfs.Volume Xxfs.Operations Xxfs.Hash Xxfs.PathName Xxfs.IndexRep Xxfs.CacheMap
open Xxfs.IndexState Xxfs.OperationFrames Xxfs.Checksum Xxfs.CacheKeys Xxfs.Frames
open Xxfs.Lib Xxfs.Lib.Computation Xxfs.Lib.Computation.Comp

section write

variable {env : Env} (he : Healthy env) {K : Path → Prop} (hK : Names K) {m : Inodes} {fs fs' : Fs}
  (h : Sound K m ∅ fs) {p : Path} {n : Inode} {off : UInt64} {len : UInt32} {buf : ℕ → UInt8}
  {rc : Rc}

/-- The end of `xxfs_write`, once the file has its blocks. -/
def writeTail (env : Env) (p : Path) (buf : ℕ → UInt8) (off : UInt64) (len : UInt32) (n : Inode) :
    FsM Rc := do
  if ← osPwrite env buf len.toNat (n.iExtentOff + off) then
    icachePut env (xxh64 p) p { n with iSize := maxSize n.iSize (off + len.toUInt64) }
    wreturn .ok
  else wreturn .eio

def growTail (env : Env) (p : Path) (buf : ℕ → UInt8) (off : UInt64) (len : UInt32) (n : Inode) :
    FsM Rc := do
  match ← growExtent env n (blocksFor (off + len.toUInt64)) with
  | .error rc => wreturn rc
  | .ok n => writeTail env p buf off len n

/-- The part of `xxfs_write` behind the inline case. -/
def writeBlocks (env : Env) (p : Path) (buf : ℕ → UInt8) (off : UInt64) (len : UInt32) (n : Inode) :
    FsM Rc := do
  match ← leaveInline env n with
  | .error rc => wreturn rc
  | .ok n => growTail env p buf off len n

section spends

variable (env : Env) (p : Path) (buf : ℕ → UInt8) (off : UInt64) (len : UInt32) (n : Inode)

theorem writeTail_spends : Within Spends (writeTail env p buf off len n) :=
  .bind (spends_of_index (osPwrite_indexOnly env _ _ _)) fun _ ↦ .ite
    (fun _ ↦ .bind (spends_of_inside (icachePut_inside env p _)) fun _ ↦ wreturn_spends _)
    fun _ ↦ wreturn_spends _

theorem growTail_spends : Within Spends (growTail env p buf off len n) := by
  refine .bind (spends_of_index (growExtent_indexOnly env _ _)) fun r ↦ ?_
  cases r with
  | error rc => exact wreturn_spends _
  | ok n => exact writeTail_spends env p buf off len n

theorem writeBlocks_spends : Within Spends (writeBlocks env p buf off len n) := by
  refine .bind (spends_of_index (leaveInline_indexOnly env _)) fun r ↦ ?_
  cases r with
  | error rc => exact wreturn_spends _
  | ok n => exact growTail_spends env p buf off len n

end spends

theorem growExtent_enough {k : UInt64} (hk : k.toNat ≤ n.iBlocks.toNat) (fs : Fs) :
    growExtent env n k fs = some (.ok n, fs) := by
  rw [growExtent, if_neg]
  · rfl
  · rw [gt_iff_lt, UInt64.lt_iff_toNat_lt]
    omega

include he hK h

theorem Sound.writesBlocks (hp : K p) (hn : seen m fs p = some n) (ht : n.iFileType ≠ ftDir)
    (hlen : len ≠ 0) (htakes : Takes n off len) (hend : inlineMax < off.toNat + len.toNat)
    (hx : writeBlocks env p buf off len n fs = some (rc, fs')) (hl : Live fs') :
    rc = .ok ∧ ∃ n', Sound K m ∅ fs' ∧ Wrote p n n' buf off len m fs fs' := by
  have hbound := htakes.bound
  have he' := end_toNat hbound
  have hneed := blocksFor_toNat (e := off + len.toUInt64) (by omega)
  have h128 : inlineMax = 128 := rfl
  have hl₀ : Live fs := live_before (writeBlocks_spends env p buf off len n) hx hl
  have hnoleave (hno : ¬(0 < n.iSize ∧ n.iBlocks = 0)) :
      leaveInline env n fs = some (.ok n, fs) := by
    rw [leaveInline, if_neg hno]
    rfl
  rw [writeBlocks, bind_apply] at hx
  rcases htakes.room with ⟨hin, -⟩ | ⟨-, hb, hroom⟩ | ⟨-, hb, hroom⟩
  · omega
  · by_cases hs : n.iSize = 0
    · -- the first blocks of an empty file
      rw [hnoleave (by simp [hs]), Option.bind_some] at hx
      obtain ⟨r, fs₁, hgrow, hx⟩ := of_bind hx
      have h0 : blocksFor (off + len.toUInt64) ≠ 0 := by
        intro h0
        rw [h0, he'] at hneed
        change 0 = _ at hneed
        omega
      have hl₁ : Live fs₁ := by
        cases r with
        | error rc => exact live_before (wreturn_spends _) hx hl
        | ok n₁ => exact live_before (writeTail_spends env p buf off len n₁) hx hl
      obtain ⟨n₁, rfl, hb₁, hr⟩ := h.grown he hb hs h0 hgrow hl₁
      refine h.writeEnd he hK hp hn ht hr hbound ?_ hlen hx
      rw [hb₁, hneed]
      omega
    · -- the inline bytes move to a block first
      have hsmall : n.iSize.toNat ≤ inlineMax := by
        rcases (h.owned.shape p n hn).file ht with ⟨-, hsm⟩ | ⟨hpos, -⟩
        · exact hsm
        · rw [hb] at hpos
          cases hpos
      obtain ⟨n₁, fs₁, hleave, hb₁, hr⟩ := h.inlineLeft he hb hs hsmall hl₀
      have hfit : off.toNat + len.toNat ≤ 4096 := hroom.resolve_left hs
      have hone : n₁.iBlocks.toNat = 1 := by rw [hb₁]; rfl
      rw [hleave, Option.bind_some] at hx
      change growTail env p buf off len n₁ fs₁ = _ at hx
      rw [growTail, bind_apply, growExtent_enough (by omega), Option.bind_some] at hx
      exact h.writeEnd he hK hp hn ht hr hbound (by omega) hlen hx
  · rw [hnoleave fun hc ↦ hb hc.2, Option.bind_some] at hx
    change growTail env p buf off len n fs = _ at hx
    rw [growTail, bind_apply, growExtent_enough (by omega), Option.bind_some] at hx
    exact h.writeEnd he hK hp hn ht (h.ready_self hn hb) hbound hroom hlen hx

theorem Sound.writes {path : Path} (hp : K (pathNormalize path)) (hlen : len ≠ 0)
    (htakes : ∀ n, seen m fs (pathNormalize path) = some n → n.iFileType ≠ ftDir → Takes n off len)
    (hx : xxfsWrite env path buf off len fs = some (rc, fs')) (hl : Live fs') :
    match seen m fs (pathNormalize path) with
    | none => rc = .enoent ∧ Looked K m fs fs'
    | some n =>
      if n.iFileType = ftDir then rc = .eisdir ∧ Looked K m fs fs'
      else rc = .ok ∧ ∃ n', Sound K m ∅ fs' ∧
        Wrote (pathNormalize path) n n' buf off len m fs fs' := by
  rw [xxfsWrite, if_neg hlen] at hx
  obtain ⟨l, hx⟩ := locked_cases hx
  generalize pathNormalize path = p at *
  have hL₀ := h.relock l
  obtain ⟨fs₁, hcur, hs₁, hk₁, hsb⟩ := hL₀.sound.current he hK hp
  have hL₁ := hL₀.trans (hL₀.sound.looked_kept hk₁ hs₁) h.coherent
  rw [bind_apply, hcur, Option.bind_some, hL₀.seen] at hx
  cases hn : seen m fs p with
  | none =>
    rw [hn] at hx
    obtain ⟨rfl, l', rfl⟩ := unlocked_cases hx
    exact ⟨rfl, hL₁.trans (hs₁.relock l') h.coherent⟩
  | some n =>
    rw [hn] at hx
    dsimp only [answered] at hx ⊢
    split
    · rename_i ht
      rw [if_pos ht] at hx
      obtain ⟨rfl, l', rfl⟩ := unlocked_cases hx
      exact ⟨rfl, hL₁.trans (hs₁.relock l') h.coherent⟩
    · rename_i ht
      have htake := htakes n hn ht
      have he' := end_toNat htake.bound
      have hn₁ : seen m fs₁ p = some n := by rw [hL₁.seen, hn]
      rw [if_neg ht, he'] at hx
      by_cases hend : off.toNat + len.toNat ≤ inlineMax
      · have hb : n.iBlocks = 0 := by
          rcases htake.room with ⟨-, hb⟩ | ⟨hgt, -⟩ | ⟨hgt, -⟩
          · exact hb
          · omega
          · omega
        obtain ⟨fs₂, hput, hs₂, (hW : Wrote p n _ buf off len m fs₁ fs₂)⟩ :=
          hs₁.writeInline he hK hp hn₁ ht hb hend
        rw [if_pos hend] at hx
        change (icachePut env (xxh64 p) p (inlined n buf off len) fs₁).bind _ = _ at hx
        rw [hput, Option.bind_some] at hx
        obtain ⟨rfl, l', rfl⟩ := unlocked_cases hx
        exact ⟨rfl, _, (hs₂.relock l').sound, (hW.after hL₁ hsb h hn).relock h l'⟩
      · rw [if_neg hend] at hx
        obtain ⟨hrc, n', hs', hW⟩ := hs₁.writesBlocks he hK hp hn₁ ht hlen htake (by omega) hx hl
        exact ⟨hrc, n', hs', hW.after hL₁ hsb h hn⟩

end write

end Xxfs.Soundness

import Xxfs.EntrySteps

namespace Xxfs.Soundness

open Function
open Xxfs.DiskFormat Xxfs.Machine Xxfs.Allocator Xxfs.PagedIndex Xxfs.PageStore Xxfs.InodeCache
open Xxfs.DirCache Xxfs.Volume Xxfs.Operations Xxfs.Hash Xxfs.PathName Xxfs.IndexRep Xxfs.CacheMap
open Xxfs.IndexState Xxfs.OperationFrames Xxfs.Checksum Xxfs.CacheKeys Xxfs.Frames
open Xxfs.Lib Xxfs.Lib.Computation Xxfs.Lib.Computation.Comp

section locks

variable {α : Type} {kind : Lock} {fs : Fs}

theorem lock_eq (kind : Lock) (fs : Fs) : ∃ l, fsLock kind fs = some ((), { fs with lock := l }) := by
  simp only [fsLock, modify_apply]
  split
  · exact ⟨fs.lock, rfl⟩
  · exact ⟨_, rfl⟩

theorem unlocked_eq (kind : Lock) (fs : Fs) (a : α) :
    ∃ l, (fsUnlock kind >>= fun _ ↦ (pure a : FsM α)) fs = some (a, { fs with lock := l }) := by
  simp only [fsUnlock, bind_apply, modify_apply, Option.bind_some, pure_apply]
  split
  · exact ⟨fs.lock, rfl⟩
  · exact ⟨_, rfl⟩

theorem Sound.unlocks {K : Path → Prop} {m : Inodes} {fs₁ : Fs} (hL : Looked K m fs fs₁)
    (hc : ∀ p, CoherentAt (cell fs.icache p) (m p)) (kind : Lock) (a : α) : ∃ fs',
    (fsUnlock kind >>= fun _ ↦ (pure a : FsM α)) fs₁ = some (a, fs') ∧ Looked K m fs fs' := by
  obtain ⟨l, hl⟩ := unlocked_eq kind fs₁ a
  exact ⟨_, hl, hL.trans (hL.sound.relock l) hc⟩

end locks

/-- The bytes of a file, in its inode or in its blocks. -/
def content (img : Image) (n : Inode) (i : ℕ) : UInt8 :=
  if n.iBlocks = 0 then (arr n.iUnion).2 i else img.data (n.iExtentOff.toNat + i)

def readOut (img : Image) (o : Option Inode) (buf : ℕ → UInt8) (off : UInt64) (len : UInt32) :
    ReadOut :=
  match o with
  | none => ⟨.enoent, 0, buf⟩
  | some n =>
    if off ≥ n.iSize then ⟨.ok, 0, buf⟩
    else ⟨.ok, min len.toNat (n.iSize - off).toNat, fun i ↦
      if i < min len.toNat (n.iSize - off).toNat then content img n (off.toNat + i) else buf i⟩

def dirOut (m : Inodes) (fs : Fs) (p : Path) : Except Rc (List DirChild) :=
  match dcacheFind fs p with
  | some e => .ok e.children
  | none =>
    match m p with
    | none => .error .enoent
    | some n => if n.iFileType ≠ ftDir then .error .enotdir else .ok (diskChildren fs.img n)

section content

variable {K : Path → Prop} {m : Inodes} {fs fs₁ : Fs} {p : Path} {n : Inode}

theorem Shape.size_le {size : ℕ} (h : Shape size n) (hb : n.iBlocks ≠ 0) :
    n.iSize.toNat ≤ n.iBlocks.toNat * 4096 := by
  by_cases ht : n.iFileType = ftDir
  · rcases h.dir ht with ⟨h0, -⟩ | ⟨hone, k, hk, hs⟩
    · exact (hb h0).elim
    · rw [hs, hone, show dirChildSize = 272 from rfl]
      change 272 * k ≤ 1 * 4096
      omega
  · rcases h.file ht with ⟨h0, -⟩ | ⟨-, hs⟩
    · exact (hb h0).elim
    · exact hs

theorem pos_of_ne_zero {b : UInt64} (hb : b ≠ 0) : 0 < b.toNat :=
  UInt64.lt_iff_toNat_lt.mp (UInt64.pos_iff_ne_zero.mpr hb)

theorem Sound.content_eq (h : Sound K m ∅ fs) (hn : seen m fs p = some n) {img : Image}
    (hdata : ∀ i ∈ extent n, img.data i = fs.img.data i) {i : ℕ} (hi : i < n.iSize.toNat) :
    content img n i = content fs.img n i := by
  rw [content, content]
  split
  · rfl
  · rename_i hb
    have := (h.owned.shape p n hn).size_le hb
    exact hdata _ ⟨by omega, by omega⟩

theorem readOut_congr {img img' : Image} {o : Option Inode} {off : UInt64}
    (h : ∀ n, o = some n → ∀ i < n.iSize.toNat, content img' n i = content img n i)
    (buf : ℕ → UInt8) (len : UInt32) : readOut img' o buf off len = readOut img o buf off len := by
  cases o with
  | none => rfl
  | some n =>
    rw [readOut, readOut]
    split
    · rfl
    · rename_i hoff
      have hlt : off.toNat < n.iSize.toNat := by
        rw [ge_iff_le, UInt64.le_iff_toNat_le] at hoff
        omega
      have hsub : (n.iSize - off).toNat = n.iSize.toNat - off.toNat :=
        UInt64.toNat_sub_of_le _ _ (UInt64.le_iff_toNat_le.mpr hlt.le)
      have hbuf : (fun i ↦ if i < min len.toNat (n.iSize - off).toNat then
          content img' n (off.toNat + i) else buf i) = fun i ↦
          if i < min len.toNat (n.iSize - off).toNat then content img n (off.toNat + i)
          else buf i := by
        funext i
        split
        · exact h n rfl _ (by omega)
        · rfl
      rw [hbuf]

theorem Sound.readOut_looked (h : Sound K m ∅ fs) (hL : Looked K m fs fs₁) (p : Path)
    (buf : ℕ → UInt8) (off : UInt64) (len : UInt32) :
    readOut fs₁.img (seen m fs p) buf off len = readOut fs.img (seen m fs p) buf off len :=
  readOut_congr (fun n hn _ hi ↦ h.content_eq hn
    (hL.effect.data p n (Set.notMem_empty _) hn fun _ ↦ Set.notMem_empty _) hi) buf len

end content

section looks

variable {env : Env} (he : Healthy env) {K : Path → Prop} (hK : Names K) {m : Inodes} {fs : Fs}
  (h : Sound K m ∅ fs) {path : Path}
include h

theorem Sound.single_relock {p : Path} (hs : Single fs p) (l : Lock) : Single { fs with lock := l } p := by
  obtain ⟨L, hb⟩ := h.backed
  exact hs.of_represents hb.rep (hb.rep.same rfl rfl rfl rfl)

include he hK

theorem Sound.fetchLocked {p : Path} (hp : Untwinned K p) (hlen : p.length < 2 ^ 32) (l : Lock) : ∃ fs₁,
    fetchInode env p { fs with lock := l } = some (seen m fs p, fs₁) ∧ Looked K m fs fs₁ ∧
      (Loose K fs p → Loose K fs₁ p) := by
  have hL₀ := h.relock l
  obtain ⟨fs₁, hfetch, hs₁, hF⟩ := hL₀.sound.fetch he hK hp hlen
  rw [hL₀.seen] at hfetch
  exact ⟨fs₁, hfetch, hL₀.trans (hL₀.sound.looked_fetched hF hs₁) h.coherent,
    fun hp' ↦ ⟨hF.single p (h.single_relock hp'.single l), hp'.frees.filled hF.filled⟩⟩

variable (hp : Untwinned K (pathNormalize path))
include hp

theorem Sound.stat : ∃ fs', xxfsStat env path fs =
    some (answered (seen m fs (pathNormalize path)), fs') ∧ Looked K m fs fs' := by
  obtain ⟨l, hlock⟩ := lock_eq .read fs
  simp only [xxfsStat, fsRlock, bind_apply, hlock, Option.bind_some]
  have hlen : (pathNormalize path).length < 2 ^ 32 := (pathNormalize_length path).trans (by decide)
  generalize pathNormalize path = p at *
  have hL₀ := h.relock l
  have hcache := hL₀.sound.cacheGet hp
  simp only [get_apply, Option.bind_some, hcache]
  cases hc : cell fs.icache p with
  | some x =>
    have hseen : seen m fs p = some x.1 := by
      rw [seen, cur, hc]
      rfl
    rw [hseen, Option.map_some]
    exact Sound.unlocks hL₀ h.coherent .read _
  | none =>
    have hseen : seen m fs p = m p := by
      rw [seen, cur, hc]
      rfl
    obtain ⟨fs₁, hget, hs₁, hk₁, -, -⟩ := hL₀.sound.indexGet he hlen
    have hL₁ := hL₀.trans (hL₀.sound.looked_kept hk₁ hs₁) h.coherent
    rw [hseen, Option.map_none]
    simp only [bind_apply, hget, Option.bind_some]
    cases hn : m p with
    | none => exact Sound.unlocks hL₁ h.coherent .read _
    | some n =>
      have hcell : cell fs₁.icache p = none := by rw [hk₁.only.icache]; exact hc
      obtain ⟨c, t, hput, hcell', hs₂, -⟩ := hs₁.fill he hK (h.names (by rw [hn]; exact Option.some_ne_none n))
        hcell hn
      have hF : Looked K m fs₁ { fs₁ with icache := c, clock := t } := by
        refine ⟨hs₂, hs₁.effect_ground ∅ ∅ (fun _ _ ↦ rfl) (fun q _ ↦ ?_) rfl (.caches _ fs₁ c _ t),
          rfl, rfl⟩
        rw [seen, seen, cur, cur, hcell']
        by_cases hq : q = p
        · rw [hq, update_self, hcell, hn]
          rfl
        · rw [update_of_ne hq]
      simp only [answered, bind_apply, hput, Option.bind_some]
      exact Sound.unlocks (hL₁.trans hF h.coherent) h.coherent .read _

theorem Sound.read {buf : ℕ → UInt8} {off : UInt64} {len : UInt32} (hlen : len ≠ 0) : ∃ fs',
    xxfsRead env path buf off len fs =
      some (readOut fs.img (seen m fs (pathNormalize path)) buf off len, fs') ∧
      Looked K m fs fs' := by
  obtain ⟨l, hlock⟩ := lock_eq .read fs
  simp only [xxfsRead, hlen, ↓reduceIte, fsRlock, bind_apply, hlock, Option.bind_some]
  have hshort : (pathNormalize path).length < 2 ^ 32 := (pathNormalize_length path).trans (by decide)
  generalize pathNormalize path = p at *
  obtain ⟨fs₁, hfetch, hL, -⟩ := h.fetchLocked he hK hp hshort l
  rw [hfetch, Option.bind_some]
  cases hn : seen m fs p with
  | none => exact Sound.unlocks hL h.coherent .read _
  | some n =>
    have hout := h.readOut_looked hL p buf off len
    rw [hn] at hout
    rw [← hout, readOut]
    have hn₁ : seen m fs₁ p = some n := by rw [hL.seen, hn]
    have hshape := hL.sound.owned.shape p n hn₁
    dsimp only
    by_cases hoff : off ≥ n.iSize
    · rw [if_pos hoff, if_pos hoff]
      exact Sound.unlocks hL h.coherent .read _
    rw [if_neg hoff, if_neg hoff]
    have hlt : off.toNat < n.iSize.toNat := by
      rw [ge_iff_le, UInt64.le_iff_toNat_le] at hoff
      omega
    have hsub : (n.iSize - off).toNat = n.iSize.toNat - off.toNat :=
      UInt64.toNat_sub_of_le _ _ (UInt64.le_iff_toNat_le.mpr hlt.le)
    by_cases hb : n.iBlocks = 0
    · have hsmall : n.iSize.toNat ≤ inlineMax := by
        by_cases ht : n.iFileType = ftDir
        · rcases hshape.dir ht with ⟨-, -, h0⟩ | ⟨hone, -⟩
          · rw [h0]
            exact Nat.zero_le _
          · rw [hb] at hone
            cases hone
        · rcases hshape.file ht with ⟨-, hs⟩ | ⟨hpos, -⟩
          · exact hs
          · rw [hb] at hpos
            cases hpos
      rw [if_pos ⟨hsmall, hb⟩]
      simp only [content, hb, ↓reduceIte]
      exact Sound.unlocks hL h.coherent .read _
    · have hpos := pos_of_ne_zero hb
      obtain ⟨hlow, hhigh⟩ := hL.sound.extent_off hn₁ hpos
      have hfill := hshape.filled hpos
      have hle := hshape.size_le hb
      have hbound := hL.sound.bound
      have hadd : (n.iExtentOff + off).toNat = n.iExtentOff.toNat + off.toNat := by
        rw [UInt64.toNat_add]
        exact Nat.mod_eq_of_lt (by omega)
      have hne : n.iExtentOff ≠ 0 := fun h0 ↦ by
        rw [h0] at hlow
        exact absurd hlow (by decide)
      rw [if_neg fun hc ↦ hb hc.2, if_pos ⟨hne, UInt64.pos_iff_ne_zero.mpr hb⟩, bind_apply,
        he.osPread_apply _ _ _ (by omega), Option.bind_some]
      dsimp only
      have hmin : min (min len.toNat (n.iSize - off).toNat)
          (fs₁.img.size - (n.iExtentOff + off).toNat) = min len.toNat (n.iSize - off).toNat := by
        omega
      rw [hmin, hadd]
      simp only [content, hb, ↓reduceIte, Nat.add_assoc]
      exact Sound.unlocks (hL.trans (hL.sound.atClock _) h.coherent) h.coherent .read _

omit hK hp in
theorem Sound.readdir : ∃ fs', xxfsReaddir env path fs =
    some (dirOut m fs (pathNormalize path), fs') ∧ Looked K m fs fs' := by
  have hlen : (pathNormalize path).length < 2 ^ 32 := (pathNormalize_length path).trans (by decide)
  obtain ⟨l, hlock⟩ := lock_eq .read fs
  simp only [xxfsReaddir, fsRlock, bind_apply, hlock, Option.bind_some, get_apply]
  generalize pathNormalize path = p at *
  have hL₀ := h.relock l
  rw [dcacheFind_congr hL₀.dcache, dirOut]
  cases hfind : dcacheFind fs p with
  | some e =>
    dsimp only
    split
    · rename_i hnil
      rw [hnil]
      exact Sound.unlocks hL₀ h.coherent .read _
    · rw [bind_apply, he.osAlloc_apply, Option.bind_some, if_pos rfl]
      exact Sound.unlocks (hL₀.trans (hL₀.sound.atClock _) h.coherent) h.coherent .read _
  | none =>
    obtain ⟨fs₁, hget, hs₁, hk₁, -, -⟩ := hL₀.sound.indexGet he hlen
    have hL₁ := hL₀.trans (hL₀.sound.looked_kept hk₁ hs₁) h.coherent
    dsimp only
    rw [bind_apply, hget, Option.bind_some]
    cases hn : m p with
    | none => exact Sound.unlocks hL₁ h.coherent .read _
    | some n =>
      dsimp only [answered]
      by_cases ht : n.iFileType = ftDir
      · have hseen : seen m fs₁ p = some n := cur_dir (hs₁.coherent p) hn ht
        have hshape := hs₁.owned.shape p n hseen
        have hdisk : diskChildren fs₁.img n = diskChildren fs.img n :=
          h.diskChildren_eq hn ht (hL₁.effect.data p n (Set.notMem_empty _)
            (cur_dir (h.coherent p) hn ht) fun _ ↦ Set.notMem_empty _)
        rw [if_neg (not_not.mpr ht), if_neg (not_not.mpr ht), ← hdisk]
        by_cases h0 : n.iSize = 0 ∨ n.iExtentOff = 0
        · rw [if_pos h0, diskChildren, if_pos h0]
          exact Sound.unlocks hL₁ h.coherent .read _
        · rw [not_or] at h0
          have hoff : n.iExtentOff.toNat < 2 ^ 63 := by
            have hb := hs₁.bound
            rcases hshape.dir ht with ⟨-, ho, -⟩ | ⟨hone, -⟩
            · exact (h0.2 ho).elim
            · have := (hs₁.extent_off hseen (by rw [hone]; decide)).2
              omega
          rw [if_neg (not_or.mpr h0), ← decodeChildren_read hshape ht h0.1 h0.2 (env.junk fs₁.clock)]
          simp only [bind_apply, get_apply, Option.bind_some, he.osAlloc_apply, ↓reduceIte]
          rw [he.osPread_apply _ _ _ hoff, Option.bind_some]
          exact Sound.unlocks (hL₁.trans (hs₁.atClock _) h.coherent) h.coherent .read _
      · rw [if_pos ht, if_pos ht]
        exact Sound.unlocks hL₁ h.coherent .read _

def openOut (o : Option Inode) (p : Path) (flags : UInt32) : Except Rc File :=
  match o with
  | none => .error .enoent
  | some n =>
    if n.iFileType = ftDir then .error .eisdir
    else .ok ⟨xxh64 p, n.iExtentOff, n.iSize, n.iBlocks, p, flags⟩

theorem Sound.readlink {buf : ℕ → UInt8} {len : UInt32} : ∃ r fs',
    xxfsReadlink env path buf len fs = some (r, fs') ∧ Looked K m fs fs' := by
  obtain ⟨fs₁, hstat, hL⟩ := h.stat he hK hp
  rw [xxfsReadlink, bind_apply, hstat, Option.bind_some]
  cases seen m fs (pathNormalize path) with
  | none => exact ⟨_, fs₁, rfl, hL⟩
  | some n =>
    dsimp only [answered]
    split
    · exact ⟨_, fs₁, rfl, hL⟩
    · exact ⟨_, fs₁, rfl, hL⟩

omit hp in
theorem Sound.open {flags : UInt32} (hp : K (pathNormalize path)) : ∃ fs', xxfsOpen env path flags fs =
    some (openOut (seen m fs (pathNormalize path)) (pathNormalize path) flags, fs') ∧
      Looked K m fs fs' := by
  obtain ⟨l, hlock⟩ := lock_eq .read fs
  simp only [xxfsOpen, fsRlock, bind_apply, hlock, Option.bind_some]
  generalize pathNormalize path = p at *
  have hL₀ := h.relock l
  obtain ⟨fs₁, hcur, hs₁, hk₁, -⟩ := hL₀.sound.current he hK hp
  have hL₁ := hL₀.trans (hL₀.sound.looked_kept hk₁ hs₁) h.coherent
  rw [hcur, Option.bind_some, hL₀.seen]
  cases hn : seen m fs p with
  | none => exact Sound.unlocks hL₁ h.coherent .read _
  | some n =>
    dsimp only [answered, openOut]
    by_cases ht : n.iFileType = ftDir
    · rw [if_pos ht, if_pos ht]
      exact Sound.unlocks hL₁ h.coherent .read _
    · rw [if_neg ht, if_neg ht, bind_apply, he.osAlloc_apply, Option.bind_some, if_pos rfl]
      exact Sound.unlocks (hL₁.trans (hs₁.atClock _) h.coherent) h.coherent .read _

end looks

end Xxfs.Soundness

import Xxfs.BlockRuns
import Xxfs.Lib.WriteLog

namespace Xxfs.Soundness

open Function
open Xxfs.DiskFormat Xxfs.Machine Xxfs.PagedIndex Xxfs.PageStore Xxfs.InodeCache Xxfs.DirCache
open Xxfs.Volume Xxfs.Operations Xxfs.Hash Xxfs.PathName Xxfs.IndexRep Xxfs.CacheMap
open Xxfs.IndexState Xxfs.OperationFrames Xxfs.Checksum Xxfs.CacheKeys Xxfs.Frames
open Xxfs.FreshVolume Xxfs.FreshIndex Xxfs.NamespaceRuns Xxfs.Runs
open Xxfs.Lib Xxfs.Lib.Computation Xxfs.Lib.Computation.Comp

/-- Calls of `xxfs_write` on one path that all meet `C` and return OK, the latest first. -/
inductive Writes (C : Fs → Op → Prop) (env : Env) (path : Path) (fs₀ : Fs) :
    List (WriteLog.Write UInt8) → Fs → Prop
  | none : Writes C env path fs₀ [] fs₀
  | write {ws : List (WriteLog.Write UInt8)} {fs fs' : Fs} {buf : ℕ → UInt8} {off : UInt64}
    {len : UInt32} : Writes C env path fs₀ ws fs → C fs (.write path buf off len) →
    xxfsWrite env path buf off len fs = some (.ok, fs') → Live fs' →
    Writes C env path fs₀ (⟨off.toNat, len.toNat, buf⟩ :: ws) fs'

theorem Writes.reachable {C : Fs → Op → Prop} {env : Env} {path : Path} {fs₀ fs : Fs}
    {ws : List (WriteLog.Write UInt8)} (hw : Writes C env path fs₀ ws fs) (hr : Reachable env fs₀) :
    Reachable env fs := by
  induction hw with
  | none => exact hr
  | @write _ fs fs' buf off len _ _ hx _ ih =>
    have hexec : exec env (.write path buf off len) fs = some ((), fs') := exec_discard hx
    exact ih.step hexec

/-- The file `n` holds what the writes have made of the bytes `f`, and zeros behind its end. -/
structure Replays (f : ℕ → UInt8) (s : ℕ) (ws : List (WriteLog.Write UInt8)) (img : Image)
    (n : Inode) : Prop where
  size : n.iSize.toNat = WriteLog.size s ws
  bytes : WriteLog.Holds f s ws (content img n)
  padded : Padded img n

section writes

variable {env : Env} (he : Healthy env) {K : Path → Prop} (hK : Names K) {m : Inodes} {fs fs' : Fs}
  {f : ℕ → UInt8} {s : ℕ} {ws : List (WriteLog.Write UInt8)} {n n' : Inode} {p : Path}
  {buf : ℕ → UInt8} {off : UInt64} {len : UInt32}

theorem Wrote.replays (hW : Wrote p n n' buf off len m fs fs')
    (hbound : off.toNat + len.toNat < 2 ^ 63) (hf : ∀ i, s ≤ i → f i = 0)
    (h : Replays f s ws fs.img n) :
    Replays f s (⟨off.toNat, len.toNat, buf⟩ :: ws) fs'.img n' := by
  refine ⟨?_, h.bytes.write hf hW.bytes (fun i hi hc ↦ ?_) fun i hi hlt ↦ ?_, hW.padded h.padded⟩
  · rw [hW.body]
    dsimp only
    rw [maxSize_toNat hbound, h.size]
    rfl
  · refine hW.rest i (h.size ▸ hi) ?_
    rw [WriteLog.Covers] at hc
    dsimp only at hc
    omega
  · exact hW.gap h.padded i (h.size ▸ hi) hlt

def Replayed (K : Path → Prop) (p : Path) (f : ℕ → UInt8) (s : ℕ)
    (ws : List (WriteLog.Write UInt8)) (fs : Fs) : Prop :=
  ∃ m n, Sound K m ∅ fs ∧ seen m fs p = some n ∧ n.iFileType ≠ ftDir ∧ Replays f s ws fs.img n

include he hK

theorem Sound.write_replays {path : Path} (h : Sound K m ∅ fs)
    (hn : seen m fs (pathNormalize path) = some n) (ht : n.iFileType ≠ ftDir)
    (hf : ∀ i, s ≤ i → f i = 0) (hr : Replays f s ws fs.img n)
    (hc : CarefulAt K m fs (.write path buf off len))
    (hx : xxfsWrite env path buf off len fs = some (.ok, fs')) (hl : Live fs') :
    Replayed K (pathNormalize path) f s (⟨off.toNat, len.toNat, buf⟩ :: ws) fs' := by
  obtain ⟨hp, htakes⟩ := hc
  have hlen : len ≠ 0 := by
    rintro rfl
    rw [xxfsWrite, if_pos rfl] at hx
    cases hx
  have hW := h.writes he hK hp hlen (htakes hlen) hx hl
  rw [hn] at hW
  dsimp only at hW
  rw [if_neg ht] at hW
  obtain ⟨-, n', hs', hW⟩ := hW
  refine ⟨m, n', hs', hW.now, ?_, hW.replays (htakes hlen n hn ht).bound hf hr⟩
  rw [hW.body]
  exact ht

theorem Writes.replayed {fs₀ : Fs} {path : Path} (hw : Writes (Careful K) env path fs₀ ws fs)
    (hf : ∀ i, s ≤ i → f i = 0) (h₀ : Replayed K (pathNormalize path) f s [] fs₀) :
    Replayed K (pathNormalize path) f s ws fs := by
  induction hw with
  | none => exact h₀
  | write _ hc hx hl ih =>
    obtain ⟨m, n, hs, hn, ht, hr⟩ := ih
    exact hs.write_replays he hK hn ht hf hr ((careful_iff hK hs).mp hc) hx hl

/-- What `xxfs_stat` and `xxfs_read` answer for the file. -/
theorem Replayed.answers {path : Path} (hp : K (pathNormalize path))
    (h : Replayed K (pathNormalize path) f s ws fs) :
    (∃ n, result (xxfsStat env path) fs = some (.ok n) ∧ n.iSize.toNat = WriteLog.size s ws) ∧
    ∀ buf off (len : UInt32), len ≠ 0 → result (xxfsRead env path buf off len) fs =
      some ⟨.ok, min len.toNat (WriteLog.size s ws - off.toNat), fun i ↦
        if i < min len.toNat (WriteLog.size s ws - off.toNat) then WriteLog.latest f ws (off.toNat + i)
        else buf i⟩ := by
  obtain ⟨m, n, hs, hn, -, hr⟩ := h
  refine ⟨⟨n, (hs.stat_ok_iff he hK (hK.untwinned hp)).mpr hn, hr.size⟩, fun buf off len hlen ↦ ?_⟩
  rw [hs.result_read he hK (hK.untwinned hp) hlen, hn, readOut, ← hr.size]
  by_cases hge : off ≥ n.iSize
  · rw [if_pos hge, Nat.sub_eq_zero_of_le (UInt64.le_iff_toNat_le.mp hge), Nat.min_zero]
    rfl
  · rw [if_neg hge]
    have hlt : off.toNat < n.iSize.toNat := Nat.lt_of_not_le fun hle ↦ hge (UInt64.le_iff_toNat_le.mpr hle)
    have hsub : (n.iSize - off).toNat = n.iSize.toNat - off.toNat :=
      UInt64.toNat_sub_of_le _ _ (UInt64.le_iff_toNat_le.mpr hlt.le)
    rw [hsub]
    congr 2
    funext i
    split
    · rename_i hi
      exact hr.bytes _ (hr.size ▸ by omega)
    · rfl

end writes

section main

variable {env : Env} (he : Healthy env) {K : Path → Prop} (hK : Names K) {fs₀ fs₁ fs : Fs}

theorem content_zero {n : Inode} (hb : n.iBlocks = 0) (hu : n.iUnion = fun _ ↦ 0) (img : Image) (i : ℕ) :
    content img n i = 0 := by
  rw [content, if_pos hb, hu, arr]
  dsimp only
  split
  · rfl
  · rfl

include he hK

theorem CarefulRun.created (hr : CarefulRun K env fs₀) {path : Path} {mode uid gid : UInt16}
    (hc : Careful K fs₀ (.create path mode uid gid))
    (hx : xxfsCreate env path mode uid gid fs₀ = some (.ok, fs₁)) (hl : Live fs₁) :
    Replayed K (pathNormalize path) (fun _ ↦ 0) 0 [] fs₁ := by
  rcases (hr.sound he hK).create he hK hc.1 hc.2 hx hl with ⟨-, hrc, -⟩ | ⟨-, -, -, m', hs, hA⟩
  · cases hrc
  · have hzero := content_zero (n := createdInode (pathNormalize path) mode uid gid fs₀.cowGen)
      ((sameBody_sealed _).blocks.trans rfl) ((sameBody_sealed _).content.trans rfl) fs₁.img
    refine ⟨m', _, hs, hA.fresh, ?_, ⟨?_, fun i hi ↦ absurd hi (Nat.not_lt_zero i), fun i _ _ ↦ hzero i⟩⟩
    · rw [createdInode, (sameBody_sealed _).type]
      exact show ftReg ≠ ftDir by decide
    · rw [createdInode, (sameBody_sealed _).size]
      rfl

/-- What has been written to a new file is read from it. -/
theorem read_after_writes (hr : CarefulRun K env fs₀) {path : Path} {mode uid gid : UInt16}
    (hc : Careful K fs₀ (.create path mode uid gid))
    (hx : xxfsCreate env path mode uid gid fs₀ = some (.ok, fs₁)) (hl : Live fs₁)
    {ws : List (WriteLog.Write UInt8)} (hw : Writes (Careful K) env path fs₁ ws fs) :
    (∃ n, result (xxfsStat env path) fs = some (.ok n) ∧ n.iSize.toNat = WriteLog.size 0 ws) ∧
    ∀ buf off (len : UInt32), len ≠ 0 → result (xxfsRead env path buf off len) fs =
      some ⟨.ok, min len.toNat (WriteLog.size 0 ws - off.toNat), fun i ↦
        if i < min len.toNat (WriteLog.size 0 ws - off.toNat)
        then WriteLog.latest (fun _ ↦ 0) ws (off.toNat + i) else buf i⟩ :=
  (hw.replayed he hK (fun _ _ ↦ rfl) (hr.created he hK hc hx hl)).answers he hK hc.1

end main

theorem Basis.read_nowhere {env : Env} {K : Path → Prop} (hK : Names K) {m : Inodes} {fs : Fs}
    (h : Basis K m fs) {path : Path} (hp : K (pathNormalize path)) {n : Inode} {d : Bool}
    (hc : cell fs.icache (pathNormalize path) = some (n, d)) {len : UInt32} (hlen : len ≠ 0)
    (buf : ℕ → UInt8) {off : UInt64} (hoff : off < n.iSize) (hb : n.iBlocks ≠ 0)
    (h0 : n.iExtentOff = 0) : result (xxfsRead env path buf off len) fs = some ⟨.eio, 0, buf⟩ := by
  obtain ⟨l, hl⟩ := lock_eq .read fs
  have hcache : icacheInode fs.icache (xxh64 (pathNormalize path)) = some n := by
    rw [h.settled.icacheInode (hK.untwinned hp), cached, hc]
    rfl
  have hfetch : fetchInode env (pathNormalize path) { fs with lock := l } =
      some (some n, { fs with lock := l }) := by
    simp only [fetchInode, bind_apply, get_apply, Option.bind_some, hcache]
    rfl
  obtain ⟨l', hl'⟩ := unlocked_eq .read { fs with lock := l } (⟨.eio, 0, buf⟩ : ReadOut)
  have hread : xxfsRead env path buf off len fs =
      some (⟨.eio, 0, buf⟩, { { fs with lock := l } with lock := l' }) := by
    rw [xxfsRead, if_neg hlen, fsRlock, bind_apply, hl, Option.bind_some, bind_apply, hfetch,
      Option.bind_some]
    dsimp only
    rw [if_neg (UInt64.not_le.mpr hoff), if_neg fun hc ↦ hb hc.2, if_neg fun hc ↦ hc.1 h0]
    exact hl'
  exact result_of hread

section first

theorem read_after_writes_first : ∃ fs₁ fs,
    xxfsCreate steady [slash, 97] 0 0 0 (freshFs steady 1 0) = some (.ok, fs₁) ∧
      xxfsWrite steady [slash, 97] (fun _ ↦ 1) 0 200 fs₁ = some (.ok, fs) ∧
      ∃ buf, result (xxfsRead steady [slash, 97] (fun _ ↦ 0) 199 4) fs = some ⟨.ok, 1, buf⟩ ∧
        buf 0 = 1 ∧ buf 1 = 0 := by
  obtain ⟨m, n₁, n, fs₁, fs, hall⟩ := first_overwritten
  obtain ⟨fs', hO⟩ := hall fun _ ↦ 0
  have hmem : pathNormalize [slash, 97] ∈ fewPaths := by decide
  have hrun : CarefulRun (· ∈ fewPaths) steady (freshFs steady 1 0) :=
    .fresh (fresh_apply steady_healthy goodSize_one 0)
  have hread := (read_after_writes steady_healthy fewPaths_names hrun
    (careful_first fewPaths_names 0 0 0 hmem (by decide) (by decide)) hO.created hO.live₁
    (.write .none hO.careful hO.filled hO.live)).2 (fun _ ↦ 0) 199 4 (by decide)
  exact ⟨fs₁, fs, hO.created, hO.filled, _, hread, rfl, rfl⟩

/-- The bytes at the start of a file with a block are read from where they point to. -/
theorem read_after_writes_fails : ¬∀ (env : Env) (fs₀ fs₁ fs : Fs) (path : Path)
    (mode uid gid : UInt16) (ws : List (WriteLog.Write UInt8)) (buf : ℕ → UInt8) (off : UInt64)
    (len : UInt32), Healthy env → Reachable env fs₀ →
      xxfsCreate env path mode uid gid fs₀ = some (.ok, fs₁) → Live fs₁ →
      Writes (fun _ op ↦ ∃ buf off len, op = .write path buf off len ∧ off.toNat + len.toNat < 2 ^ 63)
        env path fs₁ ws fs → len ≠ 0 →
      ∃ n buf', result (xxfsRead env path buf off len) fs = some ⟨.ok, n, buf'⟩ := by
  intro hall
  obtain ⟨m, n₁, n, fs₁, fs, hbuf⟩ := first_overwritten
  obtain ⟨fs', hO⟩ := hbuf fun _ ↦ 0
  have hr₀ : Reachable steady (freshFs steady 1 0) :=
    .fresh (fresh_apply steady_healthy goodSize_one 0)
  obtain ⟨k, buf', hread⟩ := hall steady _ fs₁ fs' [slash, 97] 0 0 0 _ (fun _ ↦ 0) 0 1 steady_healthy
    hr₀ hO.created hO.live₁ (.write (.write .none ⟨fun _ ↦ 1, 0, 200, rfl, by decide⟩ hO.filled hO.live)
      ⟨fun _ ↦ 0, 0, 8, rfl, by decide⟩ hO.written hO.live') (by decide)
  have hcell : cell fs'.icache (pathNormalize [slash, 97]) = some (inlined n (fun _ ↦ 0) 0 8, true) := by
    rw [show pathNormalize [slash, 97] = [slash, 97] by decide, hO.cells, update_self]
  have hsize : 0 < (inlined n (fun _ ↦ 0) 0 8).iSize := by
    have hmax : (maxSize n.iSize (0 + (8 : UInt32).toUInt64)).toNat = max n.iSize.toNat _ :=
      maxSize_toNat (by decide) n.iSize
    rw [UInt64.lt_iff_toNat_lt]
    change 0 < (maxSize n.iSize (0 + (8 : UInt32).toUInt64)).toNat
    rw [hmax, hO.size]
    decide
  have hblocks : (inlined n (fun _ ↦ 0) 0 8).iBlocks ≠ 0 := fun h0 ↦ by
    have hpos : 0 < n.iBlocks.toNat := hO.blocks
    rw [show n.iBlocks = 0 from h0] at hpos
    exact absurd hpos (by decide)
  have hlost : result (xxfsRead steady [slash, 97] (fun _ ↦ 0) 0 1) fs' = some ⟨.eio, 0, fun _ ↦ 0⟩ :=
    hO.basis.read_nowhere fewPaths_names (by decide) hcell (by decide) _ hsize hblocks (inlined_off n _)
  rw [hlost] at hread
  cases hread

end first

end Xxfs.Soundness

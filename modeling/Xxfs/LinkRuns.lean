import Xxfs.BodySteps
import Xxfs.NamespaceRuns

namespace Xxfs.Soundness

open Function
open Xxfs.DiskFormat Xxfs.Machine Xxfs.PageStore Xxfs.InodeCache Xxfs.DirCache Xxfs.Volume
open Xxfs.Operations Xxfs.Hash Xxfs.PathName Xxfs.IndexRep Xxfs.CacheMap Xxfs.IndexState Xxfs.Runs
open Xxfs.Frames Xxfs.OperationFrames Xxfs.FreshVolume Xxfs.FreshIndex Xxfs.NamespaceRuns
open Xxfs.Lib Xxfs.Lib.Computation Xxfs.Lib.Computation.Comp

section copy

variable {env : Env} {path : Path} {fs fs' : Fs} {n : Inode} {len : UInt32}

def copyLen (n : Inode) (len : UInt32) : UInt32 :=
  if n.iSize.toUInt32 > len - 1 then len - 1 else n.iSize.toUInt32

def linkOut (n : Inode) (len : UInt32) (buf : ℕ → UInt8) (i : ℕ) : UInt8 :=
  if i < (copyLen n len).toNat then (arr n.iUnion).2 i
  else if i = (copyLen n len).toNat then 0 else buf i

theorem xxfsReadlink_of_stat (hs : xxfsStat env path fs = some (.ok n, fs'))
    (ht : n.iFileType = ftLnk) (buf : ℕ → UInt8) (len : UInt32) :
    xxfsReadlink env path buf len fs = some (.ok (linkOut n len buf, copyLen n len), fs') := by
  rw [xxfsReadlink, bind_apply, hs, Option.bind_some]
  dsimp only
  rw [if_neg (not_not.mpr ht)]
  rfl

/-- A call of `xxfs_readlink` that writes no byte of the buffer from `*len` on and reads no byte
behind `i_inline`. -/
structure InBounds (n : Inode) (len : UInt32) : Prop where
  writes : ∀ buf i, len.toNat ≤ i → linkOut n len buf i = buf i
  reads : ∀ i < (copyLen n len).toNat, i < inlineMax

theorem pred_toNat (h : len ≠ 0) : (len - 1).toNat + 1 = len.toNat := by
  have hpos : 0 < len.toNat := Nat.pos_of_ne_zero fun h0 ↦ h (UInt32.toNat_inj.mp h0)
  have hle : 1 ≤ len := UInt32.le_iff_toNat_le.mpr hpos
  rw [UInt32.toNat_sub_of_le _ _ hle]
  change len.toNat - 1 + 1 = len.toNat
  omega

theorem copyLen_toNat (h : len ≠ 0) :
    (copyLen n len).toNat = min (n.iSize.toNat % 2 ^ 32) (len.toNat - 1) := by
  have hpred := pred_toNat h
  rw [copyLen]
  split
  · rename_i hgt
    have := UInt32.lt_iff_toNat_lt.mp hgt
    rw [UInt64.toNat_toUInt32] at this
    omega
  · rename_i hle
    have := UInt32.le_iff_toNat_le.mp (UInt32.not_lt.mp hle)
    rw [UInt64.toNat_toUInt32] at this ⊢
    omega

theorem inBounds_iff : InBounds n len ↔
    len ≠ 0 ∧ (n.iSize.toNat % 2 ^ 32 ≤ inlineMax ∨ len.toNat ≤ inlineMax + 1) := by
  constructor
  · intro h
    have hlen : len ≠ 0 := by
      rintro rfl
      have hout := h.writes (fun _ ↦ 1) (copyLen n 0).toNat (Nat.zero_le _)
      rw [linkOut, if_neg (lt_irrefl _), if_pos rfl] at hout
      exact absurd hout (by decide)
    refine ⟨hlen, ?_⟩
    have hcopy := copyLen_toNat (n := n) hlen
    have hle : (copyLen n len).toNat ≤ inlineMax := by
      by_contra hgt
      exact lt_irrefl _ (h.reads inlineMax (not_le.mp hgt))
    omega
  · rintro ⟨hlen, hsize⟩
    have hcopy := copyLen_toNat (n := n) hlen
    have hpred := pred_toNat hlen
    refine ⟨fun buf i hi ↦ ?_, fun i hi ↦ ?_⟩
    · rw [linkOut, if_neg (by omega), if_neg (by omega)]
    · omega

end copy

section points

variable {target : Path} {n n' : Inode}

/-- The inode of a link with this target. -/
structure Points (target : Path) (n : Inode) : Prop where
  type : n.iFileType = ftLnk
  blocks : n.iBlocks = 0
  short : target.length ≤ inlineMax
  size : n.iSize.toNat = target.length
  bytes : ∀ i < target.length, (arr n.iUnion).2 i = bytesAt target i

theorem Points.file (h : Points target n) : n.iFileType ≠ ftDir := by
  rw [h.type]
  decide

theorem Points.sameBody (h : Points target n) (hb : SameBody n n') : Points target n' :=
  ⟨hb.type.trans h.type, hb.blocks.trans h.blocks, h.short, by rw [hb.size, h.size],
    by rw [hb.content]; exact h.bytes⟩

theorem linkInode_points (ht : target.length ≤ inlineMax) (now : UInt64) :
    Points target (linkInode target now) := by
  refine Points.sameBody ⟨rfl, rfl, ht, ?_, fun i hi ↦ ?_⟩ (sameBody_sealed _)
  · have h128 : inlineMax = 128 := rfl
    exact UInt64.toNat_ofNat_of_lt' (lt_of_le_of_lt ht (by decide))
  · have h128 : inlineMax = 128 := rfl
    rw [arr_arrCopy, if_pos (by omega), Nat.sub_zero]

/-- A write that puts in the link what is there. -/
structure Echoes (target : Path) (buf : ℕ → UInt8) (off : UInt64) (len : UInt32) : Prop where
  within : off.toNat + len.toNat ≤ target.length
  same : ∀ i < len.toNat, buf i = bytesAt target (off.toNat + i)

theorem Points.inlined (h : Points target n) {buf : ℕ → UInt8} {off : UInt64} {len : UInt32}
    (hw : Echoes target buf off len) : Points target (inlined n buf off len) := by
  have h128 : inlineMax = 128 := rfl
  have hend := hw.within
  have hshort := h.short
  refine ⟨h.type, h.blocks, h.short, ?_, fun i hi ↦ ?_⟩
  · change (maxSize n.iSize (off + len.toUInt64)).toNat = _
    rw [maxSize_toNat (by omega), h.size]
    omega
  · change (arr (arrCopy n.iUnion off.toNat len.toNat buf)).2 i = _
    rw [arr_arrCopy]
    split
    · have := hw.same (i - off.toNat) (by omega)
      rw [this]
      congr 1
      omega
    · exact h.bytes i hi

theorem Points.closed (h : Points target n) {fp : File} (hb : fp.blocks = n.iBlocks)
    (hs : fp.size.toNat = target.length) (now : UInt64) : Points target (closedInode fp n now) :=
  Points.sameBody (n := { n with iSize := fp.size, iBlocks := fp.blocks })
    ⟨h.type, hb.trans h.blocks, h.short, hs, h.bytes⟩ (sameBody_closed fp n now)

theorem Points.linkOut (h : Points target n) {len : UInt32} (hlen : target.length < len.toNat)
    (buf : ℕ → UInt8) : (copyLen n len).toNat = target.length ∧
      (∀ i < target.length, Soundness.linkOut n len buf i = bytesAt target i) ∧
      Soundness.linkOut n len buf target.length = 0 := by
  have h0 : len ≠ 0 := by
    rintro rfl
    exact Nat.not_lt_zero _ hlen
  have hmax := len.toNat_lt
  have hcopy := copyLen_toNat (n := n) h0
  rw [h.size, Nat.mod_eq_of_lt (by omega), min_eq_left (by omega)] at hcopy
  refine ⟨hcopy, fun i hi ↦ ?_, ?_⟩
  · rw [Soundness.linkOut, hcopy, if_pos hi, h.bytes i hi]
  · rw [Soundness.linkOut, hcopy, if_neg (lt_irrefl _), if_pos rfl]

theorem Points.inBounds (h : Points target n) {len : UInt32} (hlen : len ≠ 0) : InBounds n len := by
  refine inBounds_iff.mpr ⟨hlen, .inl ?_⟩
  rw [h.size]
  exact (Nat.mod_le _ _).trans h.short

end points

section run

/-- The operations that leave a link at `p` as it is. -/
def Leaves (target p : Path) : Op → Prop
  | .unlink path | .rename path _ => pathNormalize path ≠ p
  | .write path buf off len => pathNormalize path = p → len ≠ 0 → Echoes target buf off len
  | .closeFile fp => fp.path = p → fp.size.toNat = target.length
  | _ => True

/-- What operations that meet a condition, and leave free blocks, make of a state. -/
inductive Since (C : Fs → Op → Prop) (env : Env) (fs₀ : Fs) : Fs → Prop
  | refl : Since C env fs₀ fs₀
  | step {op : Op} {fs fs' : Fs} : Since C env fs₀ fs → C fs op →
    exec env op fs = some ((), fs') → Live fs' → Since C env fs₀ fs'

def LinkAt (K : Path → Prop) (target p : Path) (fs : Fs) : Prop :=
  ∃ m n, Sound K m ∅ fs ∧ seen m fs p = some n ∧ Points target n

variable {env : Env} (he : Healthy env) {K : Path → Prop} (hK : Names K) {m : Inodes} {fs fs' : Fs}
  {target p : Path} {n : Inode}
include he hK

theorem Sound.echo_link (h : Sound K m ∅ fs) {path : Path} {buf : ℕ → UInt8} {off : UInt64}
    {len : UInt32} (hc : CarefulAt K m fs (.write path buf off len))
    (hw : Echoes target buf off len) (hlen : len ≠ 0)
    (hn : seen m fs (pathNormalize path) = some n) (hP : Points target n)
    (hx : exec env (.write path buf off len) fs = some ((), fs')) (hl : Live fs') :
    LinkAt K target (pathNormalize path) fs' := by
  obtain ⟨m', hs, -⟩ := h.step he hK hc hx hl
  have hend := hw.within.trans hP.short
  obtain ⟨fs₁, hx₁, -, hcell, -, -⟩ : ∃ fs₁, xxfsWrite env path buf off len fs = some (.ok, fs₁) ∧ _ :=
    h.basis.writeInline he hK hc.1 hn hP.file hlen hend
  obtain ⟨-, rfl⟩ := Prod.mk.inj (Option.some.inj (hx.symm.trans (exec_discard hx₁)))
  refine ⟨m', _, hs, ?_, hP.inlined hw⟩
  rw [seen, cur, hcell, update_self]
  rfl

theorem Sound.close_link (h : Sound K m ∅ fs) {fp : File} (hc : CarefulAt K m fs (.closeFile fp))
    (hsize : fp.size.toNat = target.length) (hn : seen m fs fp.path = some n)
    (hP : Points target n) (hx : exec env (.closeFile fp) fs = some ((), fs')) (hl : Live fs') :
    LinkAt K target fp.path fs' := by
  obtain ⟨⟨rc, fs₁⟩, ha, hfs⟩ := Option.bind_eq_some_iff.mp hx
  obtain ⟨-, rfl⟩ := Prod.mk.inj (Option.some.inj hfs)
  have hC := (h.close he hK hc.1 hc.2.1 hc.2.2 ha hl).2
  cases hcell : cell fs.icache fp.path with
  | none =>
    rw [hcell] at hC
    obtain ⟨m', hs, n', hn', hb, -⟩ := h.keeps_looked hn hP.file hC
    exact ⟨m', n', hs, hn', hP.sameBody hb⟩
  | some x =>
    rw [hcell] at hC
    obtain ⟨now, m', hs, hR⟩ := hC
    have hseen : seen m fs fp.path = some x.1 := by
      rw [seen, cur, hcell]
      rfl
    obtain rfl : x.1 = n := Option.some.inj (hseen.symm.trans hn)
    exact ⟨m', _, hs, hR.now, hP.closed (hc.2.2 x.1 x.2 hcell).blocks hsize now⟩

theorem Sound.link_step (h : Sound K m ∅ fs) {op : Op} (hc : CarefulAt K m fs op)
    (hop : Leaves target p op) (hn : seen m fs p = some n) (hP : Points target n)
    (hx : exec env op fs = some ((), fs')) (hl : Live fs') : LinkAt K target p fs' := by
  by_cases halt : Alters p op
  swap
  · obtain ⟨m', hs, n', hn', hb, -⟩ := h.keeps he hK hn hP.file hc halt hx hl
    exact ⟨m', n', hs, hn', hP.sameBody hb⟩
  cases op with
  | unlink path => exact (hop halt).elim
  | rename old new => exact (hop halt).elim
  | write path buf off len =>
    obtain ⟨rfl, hlen⟩ := halt
    exact h.echo_link he hK hc (hop rfl hlen) hlen hn hP hx hl
  | closeFile fp =>
    obtain rfl : fp.path = p := halt
    exact h.close_link he hK hc (hop rfl) hn hP hx hl
  | writeFd fp buf count off =>
    obtain ⟨rfl, hcount⟩ := halt
    -- such a write needs blocks, and a link has none
    obtain ⟨x, hx', hin⟩ := hc hcount
    obtain rfl : x = n := Option.some.inj (hx'.symm.trans hn)
    exact (hin.some hP.blocks).elim
  | _ => exact halt.elim

theorem Since.link {fs₀ : Fs}
    (hr : Since (fun fs op ↦ Careful K fs op ∧ Leaves target p op) env fs₀ fs)
    (h₀ : LinkAt K target p fs₀) : LinkAt K target p fs := by
  induction hr with
  | refl => exact h₀
  | step _ hC hx hl ih =>
    obtain ⟨m, n, hs, hn, hP⟩ := ih
    exact hs.link_step he hK ((careful_iff hK hs).mp hC.1) hC.2 hn hP hx hl

theorem Sound.linkAt_symlink (h : Sound K m ∅ fs) {linkpath : Path}
    (hc : CarefulAt K m fs (.symlink target linkpath))
    (hx : xxfsSymlink env target linkpath fs = some (.ok, fs')) (hl : Live fs') :
    LinkAt K target (pathNormalize linkpath) fs' := by
  have hS := h.symlink he hK hc.1 hc.2 hx hl
  split at hS
  · obtain ⟨hrc, -⟩ := hS
    cases hrc
  rename_i hshort
  cases hn : seen m fs (pathNormalize linkpath) with
  | some n =>
    rw [hn] at hS
    cases hS.1
  | none =>
    rw [hn] at hS
    obtain ⟨-, now, m', hs, hR⟩ := hS
    exact ⟨m', _, hs, hR.now, linkInode_points (Nat.le_of_not_lt hshort) now⟩

theorem LinkAt.stat {path : Path} (hpath : pathNormalize path = p) (h : LinkAt K target p fs) :
    ∃ n fs', xxfsStat env path fs = some (.ok n, fs') ∧ Points target n := by
  obtain ⟨m, n, hs, hn, hP⟩ := h
  have hp : K (pathNormalize path) := by
    rw [hpath]
    obtain ⟨x, hx, -⟩ := hs.stored_some hn
    exact hs.names (by rw [hx]; exact Option.some_ne_none x)
  obtain ⟨fs', hstat, -⟩ := hs.stat he hK (hK.untwinned hp)
  rw [hpath, hn] at hstat
  exact ⟨n, fs', hstat, hP⟩

end run

/-- `xxfs_readlink` stays within the buffer and the inode exactly when the buffer is not empty and
one of the buffer and the target is short. It answers with the target for as long as the link is
left as it was made. -/
theorem readlink_in_bounds_iff (env : Env) (path : Path) (len : UInt32) :
    (∀ (fs fs' : Fs) (n : Inode), xxfsStat env path fs = some (.ok n, fs') → n.iFileType = ftLnk →
        (∀ buf, xxfsReadlink env path buf len fs =
          some (.ok (linkOut n len buf, copyLen n len), fs')) ∧
        (InBounds n len ↔
          len ≠ 0 ∧ (n.iSize.toNat % 2 ^ 32 ≤ inlineMax ∨ len.toNat ≤ inlineMax + 1))) ∧
    ∀ (K : Path → Prop) (target linkpath : Path) (fs₀ fs₁ fs : Fs), Healthy env →
      Names K → CarefulRun K env fs₀ → Careful K fs₀ (.symlink target linkpath) →
      xxfsSymlink env target linkpath fs₀ = some (.ok, fs₁) → Live fs₁ →
      Since (fun fs op ↦ Careful K fs op ∧ Leaves target (pathNormalize linkpath) op) env fs₁ fs →
      pathNormalize path = pathNormalize linkpath → len ≠ 0 →
        ∃ n fs', xxfsStat env path fs = some (.ok n, fs') ∧ n.iFileType = ftLnk ∧ InBounds n len ∧
          ∀ buf, xxfsReadlink env path buf len fs =
              some (.ok (linkOut n len buf, copyLen n len), fs') ∧
            (target.length < len.toNat → (copyLen n len).toNat = target.length ∧
              (∀ i < target.length, linkOut n len buf i = bytesAt target i) ∧
              linkOut n len buf target.length = 0) := by
  constructor
  · intro fs fs' n hstat ht
    exact ⟨fun buf ↦ xxfsReadlink_of_stat hstat ht buf len, inBounds_iff⟩
  · intro K target linkpath fs₀ fs₁ fs he hK hr hc hx hl hsince hpath hlen
    have hs := hr.sound he hK
    have h₁ := hs.linkAt_symlink he hK hc hx hl
    obtain ⟨n, fs', hstat, hP⟩ := (hsince.link he hK h₁).stat he hK hpath
    exact ⟨n, fs', hstat, hP.type, hP.inBounds hlen, fun buf ↦
      ⟨xxfsReadlink_of_stat hstat hP.type buf len, fun hlt ↦ hP.linkOut hlt buf⟩⟩

section first

theorem careful_first_link (target : Path) :
    CarefulAt (· ∈ fewPaths) (freshInodes (steady.time 1)) (freshFs steady 1 0)
      (.symlink target [slash, 97]) := by
  refine ⟨by decide, fun _ ↦ ⟨if_neg (by decide), fresh_dcacheFind _ _ _ _, ?_⟩⟩
  have hpar : getParentPath (pathNormalize [slash, 97]) = rootPath := by decide
  rw [hpar]
  exact (tree_fresh _).root

/-- A link on a fresh image of one megabyte, and a write of one byte over its target. -/
structure LinkWritten (b : UInt8) (m : Inodes) (n : Inode) (fs₁ fs : Fs) : Prop where
  points : Points [116] n
  linked : xxfsSymlink steady [116] [slash, 97] (freshFs steady 1 0) = some (.ok, fs₁)
  live₁ : Live fs₁
  run : CarefulRun (· ∈ fewPaths) steady fs₁
  sound : Sound (· ∈ fewPaths) m ∅ fs₁
  stored : m [slash, 97] = some n
  seen₁ : seen m fs₁ [slash, 97] = some n
  written : exec steady (.write [slash, 97] (fun _ ↦ b) 0 1) fs₁ = some ((), fs)
  careful : Careful (· ∈ fewPaths) fs₁ (.write [slash, 97] (fun _ ↦ b) 0 1)
  live : Live fs
  basis : Basis (· ∈ fewPaths) m fs
  seen : Soundness.seen m fs [slash, 97] = some (inlined n (fun _ ↦ b) 0 1)
  dcache : fs.dcache = (freshFs steady 1 0).dcache

theorem first_link_written (b : UInt8) : ∃ m n fs₁ fs, LinkWritten b m n fs₁ fs := by
  have hmem : pathNormalize [slash, 97] ∈ fewPaths := by decide
  have hnorm : pathNormalize [slash, 97] = [slash, 97] := by decide
  have hs : Sound (· ∈ fewPaths) _ ∅ (freshFs steady 1 0) := sound_fresh fewPaths_names goodSize_one 0
  obtain ⟨now, fs₁, hx, -, hF⟩ := first_link fewPaths_names [116] hmem (by decide) (by decide)
  have hP : Points [116] (linkInode [116] now) := linkInode_points (by decide) now
  generalize linkInode [116] now = n at *
  have hl : Live fs₁ := hF.spares.live (freshOne_ample.mono (by decide))
  have hcell : cell fs₁.icache [slash, 97] = some (n, true) := by
    rw [hF.cells, hnorm, update_self]
  have hseen (m : Inodes) : seen m fs₁ [slash, 97] = some n := by
    rw [seen, cur, hcell]
    rfl
  obtain ⟨m, -, hs₁, -, -⟩ := hs.linkAt_symlink steady_healthy fewPaths_names
    (careful_first_link [116]) hx hl
  have hstored : m [slash, 97] = some n := by
    obtain ⟨F, L, hb⟩ := hF.basis.backed
    rw [← hs₁.indexed_eq fewPaths_names, indexed_of_backed fewPaths_names hb, hnorm, update_self]
  obtain ⟨fs, hw, hb, hcell', hdc, hsb⟩ : ∃ fs,
      xxfsWrite steady [slash, 97] (fun _ ↦ b) 0 1 fs₁ = some (.ok, fs) ∧ _ :=
    hs₁.basis.writeInline steady_healthy fewPaths_names hmem (by rw [hnorm]; exact hseen m) hP.file
      (by decide) (by decide)
  have hexec : exec steady (.symlink [116] [slash, 97]) (freshFs steady 1 0) = some ((), fs₁) :=
    exec_discard hx
  have hrun : CarefulRun (· ∈ fewPaths) steady (freshFs steady 1 0) :=
    .fresh (fresh_apply steady_healthy goodSize_one 0)
  have hlink : Careful (· ∈ fewPaths) (freshFs steady 1 0) (.symlink [116] [slash, 97]) :=
    (careful_iff fewPaths_names hs).mpr (careful_first_link [116])
  refine ⟨m, n, fs₁, fs, hP, hx, hl, hrun.step hlink hexec hl, hs₁, hstored, hseen m,
    exec_discard hw, (careful_iff fewPaths_names hs₁).mpr ⟨hmem, fun _ x hx _ ↦ ?_⟩, hl.of_sb hsb, hb,
    ?_, hdc.trans hF.dcache⟩
  · rw [hnorm, hseen] at hx
    obtain rfl := Option.some.inj hx
    exact ⟨by decide, .inl ⟨by decide, hP.blocks⟩⟩
  · rw [seen, cur, hcell', hnorm, update_self]
    rfl

theorem readlink_in_bounds_iff_short : ∃ fs₁ fs n fs',
    xxfsSymlink steady [116] [slash, 97] (freshFs steady 1 0) = some (.ok, fs₁) ∧
      exec steady (.write [slash, 97] (fun _ ↦ 116) 0 1) fs₁ = some ((), fs) ∧
      xxfsStat steady [slash, 97] fs = some (.ok n, fs') ∧ InBounds n 2 ∧ ¬InBounds n 0 ∧
      ∀ buf, xxfsReadlink steady [slash, 97] buf 2 fs =
          some (.ok (linkOut n 2 buf, copyLen n 2), fs') ∧
        (copyLen n 2).toNat = 1 ∧ linkOut n 2 buf 0 = 116 ∧ linkOut n 2 buf 1 = 0 := by
  obtain ⟨m, l, fs₁, fs, hW⟩ := first_link_written 116
  have hs : Sound (· ∈ fewPaths) _ ∅ (freshFs steady 1 0) := sound_fresh fewPaths_names goodSize_one 0
  have hecho : Echoes [116] (fun _ ↦ 116) 0 1 := by
    refine ⟨by decide, fun i hi ↦ ?_⟩
    obtain rfl : i = 0 := Nat.lt_one_iff.mp hi
    rfl
  obtain ⟨n, fs', hstat, ht, hin, hread⟩ := (readlink_in_bounds_iff steady [slash, 97] 2).2
    (· ∈ fewPaths) [116] [slash, 97] (freshFs steady 1 0) fs₁ fs steady_healthy fewPaths_names
    (.fresh (fresh_apply steady_healthy goodSize_one 0))
    ((careful_iff fewPaths_names hs).mpr (careful_first_link [116])) hW.linked hW.live₁
    (.step .refl ⟨hW.careful, fun _ _ ↦ hecho⟩ hW.written hW.live) rfl (by decide)
  have hzero := ((readlink_in_bounds_iff steady [slash, 97] 0).1 fs fs' n hstat ht).2
  refine ⟨fs₁, fs, n, fs', hW.linked, hW.written, hstat, hin, fun h ↦ (hzero.mp h).1 rfl, fun buf ↦ ?_⟩
  obtain ⟨hr, hout⟩ := hread buf
  obtain ⟨hcopy, hbytes, hend⟩ := hout (by decide)
  exact ⟨hr, hcopy, hbytes 0 (by decide), hend⟩

/-- With `*len` zero the terminator is written behind the buffer, and a write to a link changes
its target. -/
theorem readlink_strays :
    (¬∀ (env : Env) (fs fs' : Fs) (path : Path) (n : Inode) (len : UInt32), Healthy env →
      Reachable env fs → xxfsStat env path fs = some (.ok n, fs') → n.iFileType = ftLnk →
        InBounds n len) ∧
    ¬∀ (env : Env) (fs₀ fs₁ fs fs' : Fs) (target path : Path) (n : Inode) (len : UInt32)
      (buf : ℕ → UInt8), Healthy env → Reachable env fs₀ →
      xxfsSymlink env target path fs₀ = some (.ok, fs₁) →
      Since (fun _ op ↦ ∃ buf off len, op = .write path buf off len) env fs₁ fs →
      xxfsStat env path fs = some (.ok n, fs') → n.iFileType = ftLnk → target.length < len.toNat →
        ∀ i < target.length, linkOut n len buf i = bytesAt target i := by
  obtain ⟨m, l, fs₁, fs, hW⟩ := first_link_written 117
  have hP := hW.points
  have hmem : pathNormalize [slash, 97] ∈ fewPaths := by decide
  have hnorm : pathNormalize [slash, 97] = [slash, 97] := by decide
  have hr₀ : Reachable steady (freshFs steady 1 0) :=
    .fresh (fresh_apply steady_healthy goodSize_one 0)
  have hlone := fewPaths_names.untwinned hmem
  obtain ⟨fs', hstat, -⟩ := hW.sound.stat steady_healthy fewPaths_names hlone
  obtain ⟨fs'', hstat'⟩ := hW.basis.stat steady_healthy fewPaths_names hlone
  rw [hnorm, hW.seen₁] at hstat
  rw [hnorm, hW.seen] at hstat'
  constructor
  · intro hall
    have hexec : exec steady (.symlink [116] [slash, 97]) (freshFs steady 1 0) = some ((), fs₁) :=
      exec_discard hW.linked
    have hin := hall steady fs₁ fs' [slash, 97] l 0 steady_healthy (.step hr₀ hexec) hstat hP.type
    exact (inBounds_iff.mp hin).1 rfl
  · intro hall
    have hsince : Since (fun _ op ↦ ∃ buf off len, op = .write [slash, 97] buf off len) steady fs₁ fs :=
      .step .refl ⟨fun _ ↦ 117, 0, 1, rfl⟩ hW.written hW.live
    have ht : (inlined l (fun _ ↦ 117) 0 1).iFileType = ftLnk := hP.type
    have hout := hall steady (freshFs steady 1 0) fs₁ fs fs'' [116] [slash, 97] _ 2 (fun _ ↦ 0)
      steady_healthy hr₀ hW.linked hsince hstat' ht (by decide) 0 (by decide)
    have hsize : (inlined l (fun _ ↦ 117) 0 1).iSize.toNat = 1 := by
      have hmax : (maxSize l.iSize (0 + (1 : UInt32).toUInt64)).toNat = max l.iSize.toNat _ :=
        maxSize_toNat (by decide) l.iSize
      change (maxSize l.iSize (0 + (1 : UInt32).toUInt64)).toNat = 1
      rw [hmax, hP.size]
      rfl
    have hcopy : (copyLen (inlined l (fun _ ↦ 117) 0 1) 2).toNat = min _ _ :=
      copyLen_toNat (by decide)
    rw [hsize] at hcopy
    rw [linkOut, if_pos (by rw [hcopy]; decide)] at hout
    change (arr (arrCopy l.iUnion 0 1 (fun _ ↦ 117))).2 0 = _ at hout
    rw [arr_arrCopy, if_pos (by decide)] at hout
    exact absurd hout (by decide)

end first

end Xxfs.Soundness

import Xxfs.BlockRuns

namespace Xxfs.Soundness

open Function
open Xxfs.DiskFormat Xxfs.Machine Xxfs.Allocator Xxfs.PagedIndex Xxfs.PageStore Xxfs.InodeCache
open Xxfs.DirCache Xxfs.Volume Xxfs.Operations Xxfs.Hash Xxfs.PathName Xxfs.IndexRep Xxfs.CacheMap
open Xxfs.IndexState Xxfs.OperationFrames Xxfs.Checksum Xxfs.CacheKeys Xxfs.Frames
open Xxfs.FreshVolume Xxfs.FreshIndex Xxfs.NamespaceRuns Xxfs.Runs
open Xxfs.Lib Xxfs.Lib.Computation Xxfs.Lib.Computation.Comp

/-- The requests of `xxfs_write` for blocks, once it has the inode `n`: one for the inline bytes,
and one for what is missing. -/
def Requests (env : Env) (n : Inode) (off : UInt64) (len : UInt32) (fs : Fs) (o : UInt64) : Prop :=
  (0 < n.iSize ∧ n.iBlocks = 0 ∧ ∃ fs₁, pageAlloc env fs = some (o, fs₁)) ∨
  ∃ n₁ fs₁ fs₂, leaveInline env n fs = some (.ok n₁, fs₁) ∧
    blocksFor (off + len.toUInt64) > n₁.iBlocks ∧
      pageAllocN env (blocksFor (off + len.toUInt64) - n₁.iBlocks) fs₁ = some (o, fs₂)

/-- What the allocator returns to `xxfs_write`. -/
def Asked (env : Env) (path : Path) (off : UInt64) (len : UInt32) (fs : Fs) (o : UInt64) : Prop :=
  len ≠ 0 ∧ ∃ fs₀ n fs₁, fsLock .write fs = some ((), fs₀) ∧
    currentInode env (pathNormalize path) fs₀ = some (.ok n, fs₁) ∧ n.iFileType ≠ ftDir ∧
      inlineMax < (off + len.toUInt64).toNat ∧ Requests env n off len fs₁ o

/-- The offsets that have been returned for the file at each path. A new file starts with none,
and a renamed one takes its own along. -/
def tally (env : Env) (op : Op) (fs : Fs) (G : Path → Set UInt64) (p : Path) : Set UInt64 :=
  match op with
  | .write path _ off len => { o | o ∈ G p ∨ pathNormalize path = p ∧ Asked env path off len fs o }
  | .rename old new => { o | seen (indexed fs) fs p ≠ none ∧ o ∈ G p ∨
      seen (indexed fs) fs p = none ∧ pathNormalize new = p ∧ o ∈ G (pathNormalize old) }
  | _ => { o | seen (indexed fs) fs p ≠ none ∧ o ∈ G p }

/-- Careful runs with the offsets that they have got from the allocator. -/
inductive Tallied (C : Fs → Op → Prop) (env : Env) : (Path → Set UInt64) → Fs → Prop
  | fresh {sizeMb flags : UInt64} {fs : Fs} : Volume.fresh env sizeMb flags = some fs →
    Tallied C env (fun _ ↦ ∅) fs
  | step {G : Path → Set UInt64} {fs fs' : Fs} {op : Op} : Tallied C env G fs → C fs op →
    exec env op fs = some ((), fs') → Live fs' → Tallied C env (tally env op fs G) fs'

/-- The blocks of every file are among those it has got. -/
def Sited (m : Inodes) (G : Path → Set UInt64) (fs : Fs) : Prop := ∀ p n, seen m fs p = some n →
  n.iFileType ≠ ftDir → n.iBlocks ≠ 0 → n.iExtentOff ∈ G p

section tally

variable {env : Env} {C : Fs → Op → Prop} {G : Path → Set UInt64} {fs : Fs} {op : Op} {p : Path}
  {off : UInt64}

theorem Tallied.run (h : Tallied C env G fs) : RunBy C env fs := by
  induction h with
  | fresh hx => exact .fresh hx
  | step _ hc hx hl ih => exact .step ih hc hx hl

theorem RunBy.tallied (h : RunBy C env fs) : ∃ G, Tallied C env G fs := by
  induction h with
  | fresh hx => exact ⟨_, .fresh hx⟩
  | step _ hc hx hl ih =>
    obtain ⟨G, hG⟩ := ih
    exact ⟨_, .step hG hc hx hl⟩

theorem mem_tally (hp : seen (indexed fs) fs p ≠ none) (h : off ∈ G p) : off ∈ tally env op fs G p := by
  cases op with
  | write path buf off' len => exact .inl h
  | rename old new => exact .inl ⟨hp, h⟩
  | _ => exact ⟨hp, h⟩

end tally

section steps

variable {env : Env} (he : Healthy env) {K : Path → Prop} (hK : Names K) {m m' : Inodes} {fs fs' : Fs}
  (h : Sound K m ∅ fs) {G : Path → Set UInt64} {op : Op} {p : Path} {n n' : Inode}

theorem Sound.seen_before (h' : Sound K m' ∅ fs') {P D W : Set Path} (hE : Effect P D W m m' fs fs')
    (hp : p ∉ P) (hn : seen m' fs' p = some n) (ht : n.iFileType ≠ ftDir) : seen m fs p = some n := by
  rcases hE.inodes p hp with ⟨-, hs⟩ | ⟨-, -, x, -, -, htx, hx⟩
  · exact hs.symm.trans hn
  · rw [seen, cur_dir (h'.coherent p) hx htx] at hn
    exact (ht (Option.some.inj hn ▸ htx)).elim

include he h

theorem Sound.requests (hb : n.iBlocks = 0) {off : UInt64} {len : UInt32}
    (htakes : Takes n off len) (hend : inlineMax < off.toNat + len.toNat) {q : Path} {buf : ℕ → UInt8} {rc : Rc}
    (hx : writeBlocks env q buf off len n fs = some (rc, fs')) (hl : Live fs') :
    Requests env n off len fs (nextOff fs.sb) := by
  have hbound := htakes.bound
  have he' := end_toNat hbound
  have hneed := blocksFor_toNat (e := off + len.toUInt64) (by omega)
  have h0 : blocksFor (off + len.toUInt64) ≠ 0 := by
    intro h0
    rw [h0, he'] at hneed
    change 0 = _ at hneed
    omega
  have hl₀ : Live fs := live_before (writeBlocks_spends env q buf off len n) hx hl
  by_cases hs : n.iSize = 0
  · have hstay : leaveInline env n fs = some (.ok n, fs) := by
      rw [leaveInline, if_neg (by simp [hs])]
      rfl
    rw [writeBlocks, bind_apply, hstay, Option.bind_some] at hx
    obtain ⟨r, fs₁, hgrow, hx⟩ := of_bind hx
    have hl₁ : Live fs₁ := by
      cases r with
      | error rc => exact live_before (wreturn_spends _) hx hl
      | ok n₁ => exact live_before (writeTail_spends env q buf off len n₁) hx hl
    obtain ⟨n₁, -, hb₁, hr⟩ := h.grown he hb hs h0 hgrow hl₁
    obtain ⟨-, hle, -⟩ := hr.blocks.resolve_left fun hc ↦ hr.pos (hc.1.trans hb)
    rw [hb₁] at hle
    have hgt : blocksFor (off + len.toUInt64) > n.iBlocks := by
      rw [hb]
      exact UInt64.pos_iff_ne_zero.mpr h0
    have hask := pageAllocN_free env h0 hle
    rw [← UInt64.sub_zero (blocksFor _), ← hb] at hask
    exact .inr ⟨n, fs, _, hstay, hgt, hask⟩
  · exact .inl ⟨UInt64.pos_iff_ne_zero.mpr hs, hb, _, pageAlloc_free env hl₀.ne_zero⟩

include hK

theorem Sound.asked {path : Path} {off : UInt64} {len : UInt32} {buf : ℕ → UInt8} {rc : Rc}
    (hp : K (pathNormalize path)) (hn : seen m fs (pathNormalize path) = some n)
    (ht : n.iFileType ≠ ftDir) (hb : n.iBlocks = 0) (htakes : len ≠ 0 → Takes n off len)
    (hx : xxfsWrite env path buf off len fs = some (rc, fs')) (hl : Live fs')
    (hn' : seen m fs' (pathNormalize path) = some n') (hb' : n'.iBlocks ≠ 0) :
    Asked env path off len fs (nextOff fs.sb) := by
  have hlen : len ≠ 0 := by
    rintro rfl
    rw [xxfsWrite, if_pos rfl] at hx
    obtain ⟨-, rfl⟩ := Prod.mk.inj (Option.some.inj hx)
    obtain rfl := Option.some.inj (hn'.symm.trans hn)
    exact hb' hb
  have htakes := htakes hlen
  have he' := end_toNat htakes.bound
  by_cases hend : off.toNat + len.toNat ≤ inlineMax
  · obtain ⟨fs₁, hw, -, hcell, -⟩ := h.basis.writeInline he hK hp hn ht hlen hend
    obtain ⟨-, rfl⟩ := Prod.mk.inj (Option.some.inj (hx.symm.trans hw))
    rw [seen, cur, hcell, update_self] at hn'
    obtain rfl := Option.some.inj hn'
    exact (hb' hb).elim
  · obtain ⟨l, hlock⟩ := lock_eq .write fs
    obtain ⟨fs₁, hcur, hs₁, hk₁, hsb⟩ := (h.relock l).sound.current he hK hp
    have hL₁ := (h.relock l).trans ((h.relock l).sound.looked_kept hk₁ hs₁) h.coherent
    rw [(h.relock l).seen, hn] at hcur
    have hblocks : writeBlocks env (pathNormalize path) buf off len n fs₁ = some (rc, fs') := by
      rw [xxfsWrite, if_neg hlen, fsWlock, bind_apply, hlock, Option.bind_some, bind_apply, hcur,
        Option.bind_some] at hx
      dsimp only [answered] at hx
      rw [if_neg ht, he', if_neg hend] at hx
      exact hx
    have hreq := hs₁.requests he hb htakes (by omega) hblocks hl
    have hsb : fs₁.sb = fs.sb := hsb
    rw [hsb] at hreq
    exact ⟨hlen, _, n, fs₁, hlock, hcur, ht, by omega, hreq⟩

theorem Sound.sited_step (hG : Sited m G fs) (hc : CarefulAt K m fs op)
    (hexec : exec env op fs = some ((), fs')) (hl : Live fs') (h' : Sound K m' ∅ fs')
    (ho : Outcome K m m' fs fs' op) : Sited m' (tally env op fs G) fs' := by
  intro p n hn ht hb
  have hkeep {x : Inode} (hx : seen m fs p = some x) (hr : Refiled x n) :
      n.iExtentOff ∈ tally env op fs G p := by
    refine mem_tally (by rw [h.indexed_eq hK, hx]; exact Option.some_ne_none x) ?_
    rw [hr.off]
    exact hG p x hx (hr.type ▸ ht) (hr.blocks ▸ hb)
  have hsame {P D W : Set Path} (hE : Effect P D W m m' fs fs') (hp : p ∉ P) :
      n.iExtentOff ∈ tally env op fs G p :=
    hkeep (h'.seen_before hE hp hn ht) ⟨rfl, rfl, rfl⟩
  cases ho with
  | looked hm hL =>
    subst hm
    exact hsame hL.effect (Set.notMem_empty p)
  | @added _ q x _ _ _ hx hA _ =>
    by_cases hpq : p = q
    · subst hpq
      obtain rfl := Option.some.inj (hn.symm.trans hA.fresh)
      exact (hb hx.blocks).elim
    · exact hsame hA.toEffect hpq
  | @removed _ q x _ _ _ _ hR _ =>
    by_cases hpq : p = q
    · subst hpq
      rw [seen, (cur_none (h'.coherent p)).mpr hR.gone] at hn
      cases hn
    · exact hsame hR.toEffect hpq
  | @wrote path x x' buf off len hm hx hxt hW =>
    subst hm
    by_cases hpq : p = pathNormalize path
    · subst hpq
      obtain rfl := Option.some.inj (hn.symm.trans hW.now)
      by_cases hb₀ : x.iBlocks = 0
      · obtain ⟨⟨rc, fs₁⟩, hwrite, hfs⟩ := Option.bind_eq_some_iff.mp hexec
        obtain ⟨-, rfl⟩ := Prod.mk.inj (Option.some.inj hfs)
        have hasked := h.asked he hK hc.1 hx hxt hb₀ (fun hlen ↦ hc.2 hlen x hx hxt) hwrite hl hn hb
        obtain ⟨-, -, hoff⟩ := hW.blocks.resolve_left fun hcase ↦ hb (hcase.1.trans hb₀)
        rw [hoff]
        exact .inr ⟨rfl, hasked⟩
      · rcases hW.blocks with ⟨hbl, hoff⟩ | ⟨hbl, -⟩
        · exact hkeep hx ⟨by rw [hW.body], hbl, hoff hb₀⟩
        · exact (hb₀ hbl).elim
    · exact hsame hW.toEffect hpq
  | @poured _ q x hm hx _ hP hx' _ _ =>
    subst hm
    by_cases hpq : p = q
    · subst hpq
      obtain rfl := Option.some.inj (hn.symm.trans hx')
      exact hkeep hx ⟨rfl, rfl, rfl⟩
    · exact hsame hP hpq
  | @restored _ q x x' hx hr _ hR =>
    by_cases hpq : p = q
    · subst hpq
      obtain rfl := Option.some.inj (hn.symm.trans hR.now)
      exact hkeep hx hr
    · exact hsame hR.toEffect hpq
  | @linked target linkpath x _ hx0 _ hR =>
    by_cases hpq : p = pathNormalize linkpath
    · subst hpq
      obtain rfl := Option.some.inj (hn.symm.trans hR.now)
      exact (hb hx0).elim
    · exact hsame hR.toEffect hpq
  | @renamed old new x x' hx hbody hleaf hspot hR =>
    by_cases hpo : p = pathNormalize old
    · subst hpo
      rw [hR.unseen] at hn
      cases hn
    by_cases hpn : p = pathNormalize new
    · subst hpn
      obtain rfl := Option.some.inj (hn.symm.trans hR.now)
      have hold : seen m fs (pathNormalize old) = some x := hc.2.2.1.trans hx
      have hnone : seen m fs (pathNormalize new) = none :=
        (cur_none (h.coherent _)).mpr hspot.absent
      refine .inr ⟨by rw [h.indexed_eq hK, hnone], rfl, ?_⟩
      rw [hbody.extentOff]
      exact hG _ x hold (hbody.type ▸ ht) (hbody.blocks ▸ hb)
    · exact hsame hR.toEffect fun hmem ↦ hmem.elim hpo hpn
  | synced hS =>
    have hk : (seen m' fs' p).map Inode.iFileType = (seen m fs p).map Inode.iFileType :=
      (cur_kind (h'.coherent p)).trans ((hS.kinds p).trans (cur_kind (h.coherent p)).symm)
    rw [hn] at hk
    obtain ⟨x, hx, hxt⟩ := Option.map_eq_some_iff.mp hk.symm
    obtain ⟨⟨x', hx', hbody⟩, -⟩ := hS.files p x hx fun hd ↦ (ht (hxt ▸ hd)).elim
    obtain rfl := Option.some.inj (hn.symm.trans hx')
    exact hkeep hx ⟨hbody.type, hbody.blocks, hbody.extentOff⟩
  | remounted hR => exact hsame hR.toEffect (Set.notMem_empty p)

end steps

section main

variable {env : Env} (he : Healthy env) {K : Path → Prop} (hK : Names K) {G : Path → Set UInt64} {fs : Fs}
include he hK

theorem Tallied.sited (hr : Tallied (Careful K) env G fs) : Sited (indexed fs) G fs := by
  induction hr with
  | @fresh sizeMb flags fs hx =>
    obtain rfl := eq_freshFs he hx
    have hroot : Sound K _ ∅ (freshFs env sizeMb flags) := sound_fresh hK (goodSize_of_fresh hx) flags
    rw [hroot.indexed_eq hK]
    intro p n hn ht
    rw [seen_fresh] at hn
    obtain ⟨-, rfl⟩ := freshInodes_cases hn
    exact (ht (rootInode_type _)).elim
  | step hr hc hx hl ih =>
    have hs := CarefulRun.sound he hK hr.run
    obtain ⟨m', hs', ho⟩ := hs.step he hK hc hx hl
    rw [hs'.indexed_eq hK]
    exact hs.sited_step he hK ih hc hx hl hs' ho

/-- What is known of the inode of a file: a size within the inode, or within blocks that the
allocator has returned for this file. -/
structure Anchored (G : Set UInt64) (n : Inode) : Prop where
  inside : n.iBlocks = 0 → n.iSize.toNat ≤ inlineMax
  room : 0 < n.iBlocks → n.iSize.toNat ≤ n.iBlocks.toNat * 4096
  aligned : 0 < n.iBlocks → n.iExtentOff.toNat % 4096 = 0
  returned : 0 < n.iBlocks → n.iExtentOff ∈ G

/-- Every file is where the allocator has put it. -/
theorem inode_anchored (hr : Tallied (Careful K) env G fs) {path : Path}
    (hp : Untwinned K (pathNormalize path)) {n : Inode} (hn : result (xxfsStat env path) fs = some (.ok n)) (ht : n.iFileType ≠ ftDir) :
    Anchored (G (pathNormalize path)) n := by
  have h := CarefulRun.sound he hK hr.run
  have hseen := (h.stat_ok_iff he hK hp).mp hn
  have hshape := h.owned.shape _ n hseen
  have hpos (hb : 0 < n.iBlocks) : 0 < n.iBlocks.toNat := UInt64.lt_iff_toNat_lt.mp hb
  refine ⟨fun hb ↦ ?_, fun hb ↦ hshape.size_le (UInt64.pos_iff_ne_zero.mp hb),
    fun hb ↦ hshape.aligned (hpos hb), fun hb ↦ ?_⟩
  · rcases hshape.file ht with ⟨-, hs⟩ | ⟨hne, -⟩
    · exact hs
    · rw [hb] at hne
      cases hne
  · exact hr.sited he hK _ n hseen ht (UInt64.pos_iff_ne_zero.mp hb)

end main

section first

theorem inode_anchored_first : ∃ G fs n, Tallied (Careful (· ∈ fewPaths)) steady G fs ∧
    result (xxfsStat steady [slash, 97]) fs = some (.ok n) ∧ 0 < n.iBlocks ∧
      n.iExtentOff ∈ G (pathNormalize [slash, 97]) := by
  obtain ⟨m, n₁, n, fs₁, fs, hall⟩ := first_overwritten
  obtain ⟨fs', hO⟩ := hall fun _ ↦ 0
  obtain ⟨G, hG⟩ := hO.run.tallied
  have hmem : pathNormalize [slash, 97] ∈ fewPaths := by decide
  have hnorm : pathNormalize [slash, 97] = [slash, 97] := by decide
  have hstat := (hO.sound.stat_ok_iff steady_healthy fewPaths_names (fewPaths_names.untwinned hmem)).mpr (hnorm ▸ hO.seen)
  have hb : 0 < n.iBlocks := UInt64.lt_iff_toNat_lt.mpr hO.blocks
  have hfile : n.iFileType ≠ ftDir := by
    rw [hO.type]
    decide
  exact ⟨G, fs, n, hG, hstat, hb,
    (inode_anchored steady_healthy fewPaths_names hG (fewPaths_names.untwinned hmem) hstat hfile).returned hb⟩

/-- The bytes of a small write to a file with a block become its offset. -/
theorem user_bytes_anchored : ¬∀ (env : Env) (G : Path → Set UInt64) (fs : Fs) (path : Path) (n : Inode),
    Healthy env →
    Tallied (fun _ op ↦ ∀ path buf off len, op = .write path buf off len → off.toNat + len.toNat < 2 ^ 63)
      env G fs → result (xxfsStat env path) fs = some (.ok n) → n.iFileType = ftReg →
      Anchored (G (pathNormalize path)) n := by
  intro hall
  obtain ⟨m, n₁, n, fs₁, fs, hbuf⟩ := first_overwritten
  obtain ⟨fs', hO⟩ := hbuf fun _ ↦ 1
  have hmem : pathNormalize [slash, 97] ∈ fewPaths := by decide
  have hrun : RunBy (fun _ op ↦ ∀ path buf off len, op = .write path buf off len →
      off.toNat + len.toNat < 2 ^ 63) steady fs' := by
    refine hO.run' (fun _ _ _ _ hop ↦ by cases hop) (fun _ _ _ _ hop ↦ ?_) fun _ _ _ _ hop ↦ ?_
    · cases hop
      decide
    · cases hop
      decide
  obtain ⟨G, hG⟩ := hrun.tallied
  have hstat : result (xxfsStat steady [slash, 97]) fs' = some (.ok (inlined n (fun _ ↦ 1) 0 8)) := by
    rw [hO.basis.result_stat steady_healthy fewPaths_names (fewPaths_names.untwinned hmem),
      show pathNormalize [slash, 97] = [slash, 97] by decide, hO.seen']
    rfl
  have hanchored := hall steady G fs' [slash, 97] _ steady_healthy hG hstat hO.type
  have haligned := hanchored.aligned (UInt64.lt_iff_toNat_lt.mpr hO.blocks)
  rw [inlined_off] at haligned
  exact absurd haligned (by decide)

end first

end Xxfs.Soundness

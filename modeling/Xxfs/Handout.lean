import Xxfs.FreshVolume

namespace Xxfs.Handout

open Xxfs.DiskFormat Xxfs.Machine Xxfs.Allocator Xxfs.Volume Xxfs.FreshVolume
open Xxfs.Lib.Computation Xxfs.Lib.Computation.Comp

/-- A call of one of the three allocators. -/
inductive Call
  | alloc
  | allocN (n : UInt64)
  | raw

def Call.run (env : Env) : Call → FsM UInt64
  | .alloc => pageAlloc env
  | .allocN n => pageAllocN env n
  | .raw => pageAllocRaw env

def Call.blocks : Call → ℕ
  | .alloc => 1
  | .allocN n => n.toNat
  | .raw => 1

/-- Consecutive blocks of the image. -/
structure Extent where
  off : ℕ
  blocks : ℕ

def Extent.stop (e : Extent) : ℕ := e.off + e.blocks * 4096

def Extent.Apart (a b : Extent) : Prop := a.stop ≤ b.off ∨ b.stop ≤ a.off

/-- The extents a sequence of successful calls returns. -/
def handed (env : Env) : List Call → Fs → Option (List Extent × Fs)
  | [], fs => some ([], fs)
  | c :: cs, fs =>
    (c.run env fs).bind fun p ↦
      if p.1 = 0 then none
      else (handed env cs p.2).map fun q ↦ (⟨p.1.toNat, c.blocks⟩ :: q.1, q.2)

/-- The root record, the root page and the directory block. -/
def mkfsExtents (fs : Fs) : List Extent :=
  [⟨fs.sb.sDataOff.toNat, 1⟩, ⟨fs.sb.sDataOff.toNat + 4096, 1⟩, ⟨fs.sb.sDataOff.toNat + 8192, 1⟩]

/-- The end of the image, where `page_alloc_raw` puts its block. -/
def imageEnd (fs : Fs) : ℕ := (fs.img.size + 4095) / 4096 * 4096

/-- A call that finds its allocator in order: the pool calls find a block free, and if they
have to extend the pool, no raw block lies behind it; a raw block comes to lie behind the pool
or in the four blocks that `xxfs_mkfs` left between its own and the pool. -/
def Safe (fs : Fs) : Call → Prop
  | .alloc => 0 < fs.sb.sFreeBlocks.toNat
  | .allocN n => n.toNat ≤ fs.sb.sFreeBlocks.toNat ∨
      0 < fs.sb.sFreeBlocks.toNat ∧ fs.img.size ≤ poolEnd fs.sb ∧
        poolEnd fs.sb + (n.toNat - fs.sb.sFreeBlocks.toNat) * 4096 < 2 ^ 64
  | .raw => imageEnd fs + 4096 < 2 ^ 63 ∧
      (poolEnd fs.sb ≤ imageEnd fs ∨ fs.sb.sDataOff.toNat + 3 * 4096 ≤ imageEnd fs ∧
        imageEnd fs + 4096 ≤ fs.sb.sDataOff.toNat + 7 * 4096)

/-- Every call of the sequence is safe in the state it is made in. -/
def SafeRun (env : Env) : List Call → Fs → Prop
  | [], _ => True
  | c :: cs, fs => Safe fs c ∧ ∀ off fs', c.run env fs = some (off, fs') → SafeRun env cs fs'

/-- Where an extent handed out so far can lie. -/
inductive Placed (fs : Fs) (e : Extent) : Prop
  | mkfs (h : e.stop ≤ fs.sb.sDataOff.toNat + 3 * 4096)
  | pool (h : fs.sb.sDataOff.toNat + 7 * 4096 ≤ e.off) (h' : e.stop ≤ front fs.sb)
  | gap (h : fs.sb.sDataOff.toNat + 3 * 4096 ≤ e.off)
    (h' : e.stop ≤ fs.sb.sDataOff.toNat + 7 * 4096) (h'' : e.stop ≤ imageEnd fs)
  | behind (h : poolEnd fs.sb ≤ e.off) (h' : e.stop ≤ imageEnd fs)

structure Inv (fs : Fs) (es : List Extent) : Prop where
  pool : PoolOk fs.sb
  used : fs.sb.sFreeBlocks.toNat + 7 ≤ fs.sb.sBlockCount.toNat
  pos : ∀ e ∈ es, 0 < e.blocks
  placed : ∀ e ∈ es, Placed fs e
  apart : es.Pairwise Extent.Apart

theorem Inv.append {fs fs' : Fs} {es : List Extent} {e : Extent} (hi : Inv fs es)
    (hp : PoolOk fs'.sb) (hu : fs'.sb.sFreeBlocks.toNat + 7 ≤ fs'.sb.sBlockCount.toNat)
    (he : 0 < e.blocks) (hold : ∀ x ∈ es, Placed fs' x) (hnew : Placed fs' e)
    (ha : ∀ x ∈ es, x.Apart e) : Inv fs' (es ++ [e]) := by
  refine ⟨hp, hu, ?_, ?_, ?_⟩
  · intro x hx
    rcases List.mem_append.mp hx with h | h
    · exact hi.pos x h
    · rw [List.mem_singleton.mp h]
      exact he
  · intro x hx
    rcases List.mem_append.mp hx with h | h
    · exact hold x h
    · rw [List.mem_singleton.mp h]
      exact hnew
  · refine List.pairwise_append.mpr ⟨hi.apart, List.pairwise_singleton _ _, fun x hx y hy ↦ ?_⟩
    rw [List.mem_singleton.mp hy]
    exact ha x hx

theorem Inv.take {fs : Fs} {es : List Extent} (hi : Inv fs es) {n : UInt64} (h0 : n ≠ 0)
    (hn : n ≤ fs.sb.sFreeBlocks) :
    Inv { fs with sb := taken fs.sb n } (es ++ [⟨(nextOff fs.sb).toNat, n.toNat⟩]) := by
  have hpos : 0 < n.toNat := by
    rcases Nat.eq_zero_or_pos n.toNat with h | h
    · exact absurd (UInt64.toNat_inj.mp h) h0
    · exact h
  have hn' := UInt64.le_iff_toNat_le.mp hn
  have hnext := nextOff_toNat hi.pool (by omega)
  have hfront : front (taken fs.sb n) = front fs.sb + n.toNat * 4096 := taken_front hn hi.pool
  have hfree : (taken fs.sb n).sFreeBlocks.toNat = fs.sb.sFreeBlocks.toNat - n.toNat :=
    taken_free hn
  have hused := hi.used
  have hlow : fs.sb.sDataOff.toNat + 7 * 4096 ≤ front fs.sb := by
    simp only [front]
    omega
  have hend : front (taken fs.sb n) ≤ poolEnd fs.sb := front_le_poolEnd (taken fs.sb n)
  refine hi.append (taken_ok hn hi.pool) ?_ hpos (fun x hx ↦ ?_) ?_ fun x hx ↦ ?_
  · change (taken fs.sb n).sFreeBlocks.toNat + 7 ≤ fs.sb.sBlockCount.toNat
    omega
  · cases hi.placed x hx with
    | mkfs h => exact .mkfs h
    | pool h h' => exact .pool h (by change x.stop ≤ front (taken fs.sb n); omega)
    | gap h h' h'' => exact .gap h h' h''
    | behind h h' => exact .behind h h'
  · refine .pool ?_ ?_
    · change fs.sb.sDataOff.toNat + 7 * 4096 ≤ (nextOff fs.sb).toNat
      omega
    · change (nextOff fs.sb).toNat + n.toNat * 4096 ≤ front (taken fs.sb n)
      omega
  · simp only [Extent.Apart, Extent.stop, hnext]
    have hx := hi.placed x hx
    cases hx with
    | mkfs h => simp only [Extent.stop] at h; omega
    | pool h h' => simp only [Extent.stop] at h'; omega
    | gap h h' h'' => simp only [Extent.stop] at h'; omega
    | behind h h' => omega

variable {env : Env} (he : Healthy env)
include he

theorem osFileExtend_apply (fs : Fs) (size : UInt64) : ∃ img c,
    osFileExtend env size fs = some (true, { fs with img := img, clock := c }) ∧
      fs.img.size ≤ img.size ∧ (size.toNat < 2 ^ 63 → size.toNat ≤ img.size) := by
  have hs (h : size.toNat < 2 ^ 63) : toS64 size = size.toNat := if_pos h
  rw [osFileExtend, bind_apply, he.osFileSize_apply, Option.bind_some]
  dsimp only
  by_cases hle : toS64 size ≤ fs.img.size
  · refine ⟨fs.img, fs.clock + 1, by rw [if_pos hle]; rfl, le_rfl, fun h ↦ ?_⟩
    rw [hs h] at hle
    omega
  · refine ⟨fs.img.grow size.toNat, fs.clock + 1 + 1, ?_, le_max_left _ _, fun _ ↦ le_max_right _ _⟩
    rw [if_neg hle, bind_apply, tick_apply, Option.bind_some, if_pos (he.io _)]
    rfl

/-- The last call on the pool, which extends it by the blocks that are missing. -/
theorem Inv.extend {fs fs' : Fs} {es : List Extent} {off n : UInt64} (hi : Inv fs es)
    (hn : ¬n.toNat ≤ fs.sb.sFreeBlocks.toNat) (hpos : 0 < fs.sb.sFreeBlocks.toNat)
    (hsize : fs.img.size ≤ poolEnd fs.sb)
    (hb : poolEnd fs.sb + (n.toNat - fs.sb.sFreeBlocks.toNat) * 4096 < 2 ^ 64)
    (h : pageAllocN env n fs = some (off, fs')) : Inv fs' (es ++ [⟨off.toNat, n.toNat⟩]) := by
  have h0 : n ≠ 0 := by rintro rfl; exact hn (Nat.zero_le _)
  have h1 : n ≠ 1 := by rintro rfl; exact hn hpos
  have hlt : fs.sb.sFreeBlocks ≤ n := UInt64.le_iff_toNat_le.mpr (by omega)
  have hneed : (n - fs.sb.sFreeBlocks).toNat = n.toNat - fs.sb.sFreeBlocks.toNat :=
    UInt64.toNat_sub_of_le _ _ hlt
  have hge : ¬fs.sb.sFreeBlocks ≥ n := fun hge ↦ hn (UInt64.le_iff_toNat_le.mp hge)
  obtain ⟨img, c, hext, hgrow, -⟩ :=
    osFileExtend_apply he fs (nextOff fs.sb + (n - fs.sb.sFreeBlocks) * 4096)
  have hnext := nextOff_toNat hi.pool hpos
  rw [pageAllocN, if_neg h0, if_neg h1] at h
  simp only [bind_apply, get_apply, Option.bind_some, if_apply, hge, ↓reduceIte, hext,
    modify_apply, pure_apply, Option.some.injEq, Prod.mk.injEq] at h
  obtain ⟨rfl, rfl⟩ := h
  have hcount : (fs.sb.sBlockCount + (n - fs.sb.sFreeBlocks)).toNat =
      fs.sb.sBlockCount.toNat + (n.toNat - fs.sb.sFreeBlocks.toNat) := by
    rw [UInt64.toNat_add, hneed]
    refine Nat.mod_eq_of_lt (lt_of_le_of_lt ?_ hb)
    simp only [poolEnd]
    omega
  have hused := hi.used
  have hend : imageEnd fs ≤ poolEnd fs.sb := by
    have := hi.pool.aligned
    simp only [imageEnd, poolEnd] at hsize ⊢
    omega
  have hend' : imageEnd fs ≤ (img.size + 4095) / 4096 * 4096 := by
    simp only [imageEnd]
    omega
  have hlow : fs.sb.sDataOff.toNat + 7 * 4096 ≤ front fs.sb := by
    simp only [front]
    omega
  have hfront : front fs.sb + n.toNat * 4096 =
      poolEnd fs.sb + (n.toNat - fs.sb.sFreeBlocks.toNat) * 4096 := by
    simp only [front, poolEnd]
    omega
  have hnot (x : Extent) (hx : x ∈ es) (h : poolEnd fs.sb ≤ x.off) (h' : x.stop ≤ imageEnd fs) :
      False := by
    have := hi.pos x hx
    simp only [Extent.stop] at h'
    omega
  refine hi.append ⟨hi.pool.pos, hi.pool.aligned, Nat.zero_le _, ?_⟩ ?_ (by change 0 < n.toNat; omega)
    (fun x hx ↦ ?_) ?_ fun x hx ↦ ?_
  · simp only [poolEnd, hcount] at hb ⊢
    refine lt_of_le_of_lt (Nat.le_of_eq ?_) hb
    rw [Nat.add_mul, Nat.add_assoc]
  · change 0 + 7 ≤ (fs.sb.sBlockCount + (n - fs.sb.sFreeBlocks)).toNat
    omega
  · cases hi.placed x hx with
    | mkfs h => exact .mkfs h
    | pool h h' =>
      refine .pool h (h'.trans ?_)
      simp only [front, hcount]
      refine Nat.add_le_add_left (Nat.mul_le_mul_right _ ?_) _
      change _ ≤ _ - 0
      omega
    | gap h h' h'' => exact .gap h h' (h''.trans hend')
    | behind h h' => exact (hnot x hx h h').elim
  · refine .pool ?_ ?_
    · change fs.sb.sDataOff.toNat + 7 * 4096 ≤ (nextOff fs.sb).toNat
      omega
    · change (nextOff fs.sb).toNat + n.toNat * 4096 ≤ _
      simp only [front, hcount]
      change _ ≤ _ + (_ - 0) * 4096
      rw [hnext, hfront, poolEnd]
      omega
  · simp only [Extent.Apart, Extent.stop, hnext]
    cases hi.placed x hx with
    | mkfs h => simp only [Extent.stop] at h; omega
    | pool h h' => simp only [Extent.stop] at h'; omega
    | gap h h' h'' => simp only [Extent.stop] at h'; omega
    | behind h h' => exact (hnot x hx h h').elim

theorem Inv.raw {fs fs' : Fs} {es : List Extent} {off : UInt64} (hi : Inv fs es)
    (hb : imageEnd fs + 4096 < 2 ^ 63)
    (hr : poolEnd fs.sb ≤ imageEnd fs ∨ fs.sb.sDataOff.toNat + 3 * 4096 ≤ imageEnd fs ∧
        imageEnd fs + 4096 ≤ fs.sb.sDataOff.toNat + 7 * 4096)
    (h : pageAllocRaw env fs = some (off, fs')) : Inv fs' (es ++ [⟨off.toNat, 1⟩]) := by
  have hsize : fs.img.size ≤ imageEnd fs := by
    simp only [imageEnd]
    omega
  have hof : (UInt64.ofNat fs.img.size).toNat = fs.img.size :=
    UInt64.toNat_ofNat_of_lt'
      (hsize.trans_lt (lt_trans (by omega : imageEnd fs < 2 ^ 63) (by decide)))
  have hoff : (roundUp (UInt64.ofNat fs.img.size)).toNat = imageEnd fs := by
    rw [roundUp_toNat (by rw [hof]; omega), hof]
    rfl
  have hadd : (roundUp (UInt64.ofNat fs.img.size) + 4096).toNat = imageEnd fs + 4096 := by
    rw [UInt64.toNat_add, hoff]
    refine Nat.mod_eq_of_lt ?_
    change imageEnd fs + 4096 < 2 ^ 64
    omega
  obtain ⟨img, c, hext, hgrow, hreach⟩ := osFileExtend_apply he { fs with clock := fs.clock + 1 }
    (roundUp (UInt64.ofNat fs.img.size) + 4096)
  rw [hadd] at hreach
  have hreach := hreach hb
  simp only [pageAllocRaw, bind_apply, he.osFileSize_apply, Option.bind_some, hext, ↓reduceIte,
    pure_apply, Option.some.injEq, Prod.mk.injEq] at h
  obtain ⟨rfl, rfl⟩ := h
  have hfront := front_le_poolEnd fs.sb
  have hlow : fs.sb.sDataOff.toNat + 7 * 4096 ≤ poolEnd fs.sb := by
    have := hi.used
    simp only [poolEnd]
    omega
  have hend' : imageEnd fs + 4096 ≤ (img.size + 4095) / 4096 * 4096 := by
    have : imageEnd fs % 4096 = 0 := by simp [imageEnd]
    omega
  refine hi.append hi.pool hi.used Nat.one_pos (fun x hx ↦ ?_) ?_ fun x hx ↦ ?_
  · cases hi.placed x hx with
    | mkfs h => exact .mkfs h
    | pool h h' => exact .pool h h'
    | gap h h' h'' => exact .gap h h' (h''.trans (by change _ ≤ (img.size + 4095) / 4096 * 4096; omega))
    | behind h h' => exact .behind h (h'.trans (by change _ ≤ (img.size + 4095) / 4096 * 4096; omega))
  · have hstop : (⟨(roundUp (UInt64.ofNat fs.img.size)).toNat, 1⟩ : Extent).stop =
        imageEnd fs + 4096 := by simp only [Extent.stop, hoff, Nat.one_mul]
    rcases hr with h | ⟨h, h'⟩
    · exact .behind (by rw [hoff]; exact h) (by rw [hstop]; exact hend')
    · exact .gap (by rw [hoff]; exact h) (by rw [hstop]; exact h') (by rw [hstop]; exact hend')
  · simp only [Extent.Apart, hoff]
    cases hi.placed x hx with
    | mkfs h => left; omega
    | pool h h' =>
      simp only [Extent.stop]
      rcases hr with hr | ⟨hr, hr'⟩
      · left; simp only [Extent.stop] at h'; omega
      · right; omega
    | gap h h' h'' => left; exact h''
    | behind h h' => left; exact h'

theorem Inv.step {fs fs' : Fs} {es : List Extent} {c : Call} {off : UInt64} (hi : Inv fs es)
    (hs : Safe fs c) (h : c.run env fs = some (off, fs')) (h0 : off ≠ 0) :
    Inv fs' (es ++ [⟨off.toNat, c.blocks⟩]) := by
  cases c with
  | alloc =>
    have hs : 0 < fs.sb.sFreeBlocks.toNat := hs
    have hf : fs.sb.sFreeBlocks ≠ 0 := fun hz ↦ by rw [hz] at hs; exact absurd hs (by decide)
    rw [Call.run, pageAlloc_free env hf] at h
    obtain ⟨rfl, rfl⟩ := Prod.mk.inj (Option.some.inj h)
    exact hi.take (by decide) (UInt64.le_iff_toNat_le.mpr hs)
  | allocN n =>
    have hn : n ≠ 0 := by
      rintro rfl
      rw [Call.run, pageAllocN, if_pos rfl] at h
      exact h0 (Prod.mk.inj (Option.some.inj h)).1.symm
    by_cases hle : n.toNat ≤ fs.sb.sFreeBlocks.toNat
    · have hle' := UInt64.le_iff_toNat_le.mpr hle
      rw [Call.run, pageAllocN_free env hn hle'] at h
      obtain ⟨rfl, rfl⟩ := Prod.mk.inj (Option.some.inj h)
      exact hi.take hn hle'
    · obtain ⟨hpos, hsize, hb⟩ := hs.resolve_left hle
      exact hi.extend he hle hpos hsize hb h
  | raw => exact hi.raw he hs.1 hs.2 h

theorem Inv.run {calls : List Call} {fs fs' : Fs} {es new : List Extent} (hi : Inv fs es)
    (hs : SafeRun env calls fs) (h : handed env calls fs = some (new, fs')) :
    Inv fs' (es ++ new) := by
  induction calls generalizing fs es new with
  | nil =>
    obtain ⟨rfl, rfl⟩ := Prod.mk.inj (Option.some.inj h)
    rwa [List.append_nil]
  | cons c cs ih =>
    obtain ⟨⟨off, fs₁⟩, h₁, h⟩ := Option.bind_eq_some_iff.mp h
    dsimp only at h
    split at h
    · cases h
    · rename_i h0
      obtain ⟨⟨rest, fs₂⟩, h₂, h⟩ := Option.map_eq_some_iff.mp h
      obtain ⟨rfl, rfl⟩ := Prod.mk.inj h
      have := ih (hi.step he hs.1 h₁ h0) (hs.2 off fs₁ h₁) h₂
      rwa [List.append_assoc, List.singleton_append] at this

omit he in
theorem fresh_inv {sizeMb : UInt64} (hg : GoodSize sizeMb) (flags : UInt64) :
    Inv (freshFs env sizeMb flags) (mkfsExtents (freshFs env sizeMb flags)) := by
  obtain ⟨hp, hu⟩ : PoolOk (freshFs env sizeMb flags).sb ∧ _ := fresh_poolOk env hg flags
  refine ⟨hp, hu.le, ?_, ?_, ?_⟩
  · intro e h
    simp only [mkfsExtents, List.mem_cons, List.not_mem_nil, or_false] at h
    rcases h with rfl | rfl | rfl <;> exact Nat.one_pos
  · intro e h
    simp only [mkfsExtents, List.mem_cons, List.not_mem_nil, or_false] at h
    rcases h with rfl | rfl | rfl <;>
      exact .mkfs (by simp only [Extent.stop]; omega)
  · simp only [mkfsExtents, List.pairwise_cons, List.mem_cons, List.not_mem_nil, or_false,
      forall_eq_or_imp, forall_eq, Extent.Apart, Extent.stop]
    refine ⟨⟨.inl (by omega), .inl (by omega)⟩, .inl (by omega), fun _ h ↦ h.elim, List.Pairwise.nil⟩

theorem pageAlloc_exhausted (fs : Fs) (hf : fs.sb.sFreeBlocks = 0) :
    ∃ fs', pageAlloc env fs = some (fs.sb.sDataOff, fs') := by
  obtain ⟨img, c, hext, -, -⟩ := osFileExtend_apply he fs (fs.sb.sDataOff + 4096)
  simp only [pageAlloc, bind_apply, get_apply, Option.bind_some, hf, ↓reduceIte,
    nextOff_exhausted hf, hext, modify_apply, pure_apply]
  exact ⟨_, rfl⟩

omit he in
theorem handed_cons {c : Call} {cs : List Call} {fs fs₁ fs' : Fs} {off : UInt64}
    {es : List Extent} (h : c.run env fs = some (off, fs₁)) (h0 : off ≠ 0)
    (hrest : handed env cs fs₁ = some (es, fs')) :
    handed env (c :: cs) fs = some (⟨off.toNat, c.blocks⟩ :: es, fs') := by
  rw [handed, h, Option.bind_some, if_neg h0, hrest]
  rfl

omit he in
theorem handed_nil (env : Env) (fs : Fs) : handed env [] fs = some ([], fs) := rfl

omit he in
theorem nextOff_ne_zero {sb : Super} (hp : PoolOk sb) (hf : 0 < sb.sFreeBlocks.toNat) :
    nextOff sb ≠ 0 := by
  intro h
  have hn := nextOff_toNat hp hf
  have := hp.pos
  rw [h, front] at hn
  change 0 = _ at hn
  omega

/-- No block is handed out twice in a run of calls that are all safe when they are made. -/
theorem handed_pairwise_apart {sizeMb flags : UInt64} {fs fs' : Fs} {calls : List Call}
    {es : List Extent} (hf : fresh env sizeMb flags = some fs) (hs : SafeRun env calls fs)
    (h : handed env calls fs = some (es, fs')) :
    (mkfsExtents fs ++ es).Pairwise Extent.Apart := by
  have hg := goodSize_of_fresh hf
  obtain rfl := eq_freshFs he hf
  exact ((fresh_inv hg flags).run he hs h).apart

omit he in
theorem handed_pairwise_apart_pool : SafeRun steady [.alloc, .allocN 2] (freshFs steady 1 0) ∧
    ∃ es fs', handed steady [.alloc, .allocN 2] (freshFs steady 1 0) = some (es, fs') ∧
      es.length = 2 ∧ (mkfsExtents (freshFs steady 1 0) ++ es).Pairwise Extent.Apart := by
  have hfree := freshOne_free
  have hfresh := fresh_apply steady_healthy goodSize_one 0
  have hne : (freshFs steady 1 0).sb.sFreeBlocks ≠ 0 := by rw [hfree]; decide
  have hsafe : SafeRun steady [.alloc, .allocN 2] (freshFs steady 1 0) := by
    refine ⟨?_, fun off fs' h ↦ ?_⟩
    · change 0 < (freshFs steady 1 0).sb.sFreeBlocks.toNat
      rw [hfree]
      decide
    · rw [Call.run, pageAlloc_free steady hne] at h
      obtain ⟨-, rfl⟩ := Prod.mk.inj (Option.some.inj h)
      refine ⟨.inl ?_, fun _ _ _ ↦ trivial⟩
      change (2 : UInt64).toNat ≤ ((freshFs steady 1 0).sb.sFreeBlocks - 1).toNat
      rw [hfree]
      decide
  have hp := (fresh_poolOk steady goodSize_one 0 : PoolOk (freshFs steady 1 0).sb ∧ _).1
  have hfree' : 0 < (taken (freshFs steady 1 0).sb 1).sFreeBlocks.toNat := by
    change 0 < ((freshFs steady 1 0).sb.sFreeBlocks - 1).toNat
    rw [hfree]
    decide
  have hp' : PoolOk (taken (freshFs steady 1 0).sb 1) := taken_ok (by rw [hfree]; decide) hp
  have h₁ : Call.run steady .alloc (freshFs steady 1 0) = _ := pageAlloc_free steady hne
  have h₂ : Call.run steady (.allocN 2)
      { freshFs steady 1 0 with sb := taken (freshFs steady 1 0).sb 1 } = _ :=
    pageAllocN_free steady (by decide) (by
      change (2 : UInt64) ≤ (freshFs steady 1 0).sb.sFreeBlocks - 1
      rw [hfree]
      decide)
  have hrun := handed_cons h₁ (nextOff_ne_zero hp (by rw [hfree]; decide))
    (handed_cons h₂ (nextOff_ne_zero hp' hfree') (handed_nil _ _))
  exact ⟨hsafe, _, _, hrun, rfl, handed_pairwise_apart steady_healthy hfresh hsafe hrun⟩

omit he in
/-- Taking all 249 free blocks and one more gives the block of the root record away. -/
theorem handed_root_record : ¬∀ (calls : List Call) (es : List Extent) (fs fs' : Fs),
    fresh steady 1 0 = some fs → handed steady calls fs = some (es, fs') →
      (mkfsExtents fs ++ es).Pairwise Extent.Apart := by
  intro hall
  have hfree := freshOne_free
  have hp := (fresh_poolOk steady goodSize_one 0 : PoolOk (freshFs steady 1 0).sb ∧ _).1
  obtain ⟨fs', hlast⟩ := pageAlloc_exhausted steady_healthy
    { freshFs steady 1 0 with sb := taken (freshFs steady 1 0).sb 249 }
    (by change (freshFs steady 1 0).sb.sFreeBlocks - 249 = 0; rw [hfree]; decide)
  have hD : (freshFs steady 1 0).sb.sDataOff ≠ 0 := fun h ↦ by
    have := hp.pos
    rw [h] at this
    exact absurd this (by decide)
  have h₁ : Call.run steady (.allocN 249) (freshFs steady 1 0) = _ :=
    pageAllocN_free steady (by decide) (by rw [hfree]; decide)
  have h₂ : Call.run steady .alloc
      { freshFs steady 1 0 with sb := taken (freshFs steady 1 0).sb 249 } = _ := hlast
  have hrun := handed_cons h₁ (nextOff_ne_zero hp (by rw [hfree]; decide))
    (handed_cons h₂ hD (handed_nil _ _))
  have h := hall _ _ _ _ (fresh_apply steady_healthy goodSize_one 0) hrun
  have hroot := (List.pairwise_append.mp h).2.2
    ⟨(freshFs steady 1 0).sb.sDataOff.toNat, 1⟩ (by simp [mkfsExtents])
    ⟨(freshFs steady 1 0).sb.sDataOff.toNat, 1⟩ (by simp [Call.blocks, taken])
  simp only [Extent.Apart, Extent.stop] at hroot
  omega

end Xxfs.Handout

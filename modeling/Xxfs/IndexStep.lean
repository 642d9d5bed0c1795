import Xxfs.PageUpdate

namespace Xxfs.IndexRep

open Xxfs.DiskFormat Xxfs.Machine Xxfs.Allocator Xxfs.PageCache Xxfs.PagedIndex Xxfs.PageStore
open Xxfs.Hash Xxfs.Frames Xxfs.Lib.Computation Xxfs.Lib.Computation.Comp

/-- The free pool is not exhausted, and a file offset can address its next block. -/
structure Live (fs : Fs) : Prop where
  pool : 0 < fs.sb.sFreeBlocks.toNat
  addr : front fs.sb + 4096 < 2 ^ 63

theorem Live.of_spent {fs fs' : Fs} (h : Live fs') (hs : Spent fs.sb fs'.sb) : Live fs := by
  have hle := hs.free
  refine ⟨h.pool.trans_le hle, lt_of_le_of_lt ?_ h.addr⟩
  rw [front, front, hs.dataOff, hs.count h.pool]
  omega

section live

variable {fs : Fs} (hl : Live fs)
include hl

theorem Live.ne_zero : fs.sb.sFreeBlocks ≠ 0 := by
  intro h0
  have := hl.pool
  rw [h0] at this
  exact absurd this (by decide)

theorem Live.one_le : (1 : UInt64) ≤ fs.sb.sFreeBlocks := UInt64.le_iff_toNat_le.mpr hl.pool

variable (hp : PoolOk fs.sb)
include hp

theorem Live.nextOff_toNat : (nextOff fs.sb).toNat = front fs.sb :=
  Allocator.nextOff_toNat hp hl.pool

theorem Live.usable : Usable (nextOff fs.sb) :=
  ⟨by rw [hl.nextOff_toNat hp]; exact front_aligned hp, by rw [hl.nextOff_toNat hp]; exact hl.addr.le⟩

theorem Live.front_taken : front (taken fs.sb 1) = front fs.sb + 4096 := by
  rw [taken_front hl.one_le hp]
  rfl

theorem Live.nextOff_ne_zero : nextOff fs.sb ≠ 0 := by
  intro h0
  have hpos := hp.pos
  have hoff := hl.nextOff_toNat hp
  rw [h0, front] at hoff
  change 0 = _ at hoff
  omega

end live

/-- What an index operation that turns the chain `L` into `L'` does to the image: it writes to
blocks of the index and to blocks it takes from the pool. -/
structure Moved (L L' : Chain) (fs fs' : Fs) : Prop where
  sb : ∃ n, n ≤ fs.sb.sFreeBlocks ∧ fs'.sb = taken fs.sb n
  grow : ∀ b ∈ blocks L', b ∈ blocks L ∨ front fs.sb ≤ b.toNat ∧ b.toNat + 4096 ≤ front fs'.sb
  data : ∀ i, (∀ b ∈ blocks L, ¬InBlock b i) → ¬(front fs.sb ≤ i ∧ i < front fs'.sb) →
    fs'.img.data i = fs.img.data i
  size : fs.img.size ≤ fs'.img.size

theorem taken_zero (sb : Super) : taken sb 0 = sb := by
  simp [taken]

theorem Moved.ofQuiet {L : Chain} {fs fs' : Fs} (h : Quiet (offs L) fs fs') : Moved L L fs fs' :=
  ⟨⟨0, UInt64.le_iff_toNat_le.mpr (Nat.zero_le _), by rw [taken_zero, h.sb]⟩,
    fun _ hb ↦ .inl hb, fun i hi _ ↦ h.data i fun o ho ↦ hi o (offs_subset_blocks ho), h.size⟩

theorem Moved.front_le {L L' : Chain} {fs fs' : Fs} (h : Moved L L' fs fs') (hp : PoolOk fs.sb) :
    front fs.sb ≤ front fs'.sb := by
  obtain ⟨n, hn, hsb⟩ := h.sb
  rw [hsb, taken_front hn hp]
  omega

theorem taken_taken {sb : Super} {n m : UInt64} (hn : n ≤ sb.sFreeBlocks)
    (hm : m ≤ (taken sb n).sFreeBlocks) : n + m ≤ sb.sFreeBlocks ∧
      taken (taken sb n) m = taken sb (n + m) := by
  have h₁ := UInt64.le_iff_toNat_le.mp hn
  have h₂ := UInt64.le_iff_toNat_le.mp hm
  have h₃ : (taken sb n).sFreeBlocks.toNat = sb.sFreeBlocks.toNat - n.toNat := taken_free hn
  have hlt := sb.sFreeBlocks.toNat_lt
  have hsum : (n + m).toNat = n.toNat + m.toNat := by
    rw [UInt64.toNat_add]
    exact Nat.mod_eq_of_lt (by omega)
  refine ⟨UInt64.le_iff_toNat_le.mpr (by omega), ?_⟩
  have hsub : sb.sFreeBlocks - n - m = sb.sFreeBlocks - (n + m) := by grind
  simp only [taken, hsub]

theorem Moved.trans {L L₁ L₂ : Chain} {fs fs₁ fs₂ : Fs} (h : Moved L L₁ fs fs₁)
    (h' : Moved L₁ L₂ fs₁ fs₂) (hp : PoolOk fs.sb) : Moved L L₂ fs fs₂ := by
  obtain ⟨n, hn, hsb⟩ := h.sb
  obtain ⟨m, hm, hsb'⟩ := h'.sb
  have hp₁ : PoolOk fs₁.sb := by rw [hsb]; exact taken_ok hn hp
  have hle := h.front_le hp
  have hle' := h'.front_le hp₁
  refine ⟨⟨n + m, ?_, ?_⟩, fun b hb ↦ ?_, fun i hi hf ↦ ?_, h.size.trans h'.size⟩
  · rw [hsb] at hm
    exact (taken_taken hn hm).1
  · rw [hsb] at hm
    rw [hsb', hsb, (taken_taken hn hm).2]
  · rcases h'.grow b hb with hb | ⟨hb, hb'⟩
    · rcases h.grow b hb with hb | ⟨hb, hb'⟩
      · exact .inl hb
      · exact .inr ⟨hb, hb'.trans hle'⟩
    · exact .inr ⟨hle.trans hb, hb'⟩
  · rw [h'.data i (fun b hb hib ↦ ?_) (fun hf' ↦ hf ⟨by omega, by omega⟩),
      h.data i hi (fun hf' ↦ hf ⟨by omega, by omega⟩)]
    rcases h.grow b hb with hb | ⟨hb, hb'⟩
    · exact hi b hb hib
    · exact hf ⟨hb.trans hib.1, lt_of_lt_of_le hib.2 (hb'.trans hle')⟩

/-- At most `k` blocks have been taken from the pool. -/
def Cost (k : ℕ) (fs fs' : Fs) : Prop :=
  ∃ n : UInt64, n.toNat ≤ k ∧ n ≤ fs.sb.sFreeBlocks ∧ fs'.sb = taken fs.sb n

/-- The pool stays live while `k` blocks are taken from it. -/
structure Ample (k : ℕ) (fs : Fs) : Prop where
  pool : k < fs.sb.sFreeBlocks.toNat
  addr : front fs.sb + (k + 1) * 4096 < 2 ^ 63

theorem Ample.mono {j k : ℕ} {fs : Fs} (h : Ample k fs) (hjk : j ≤ k) : Ample j fs := by
  have hle : (j + 1) * 4096 ≤ (k + 1) * 4096 := Nat.mul_le_mul_right _ (by omega)
  exact ⟨by have := h.pool; omega, lt_of_le_of_lt (Nat.add_le_add_left hle _) h.addr⟩

theorem Ample.live {k : ℕ} {fs : Fs} (h : Ample k fs) : Live fs :=
  ⟨(h.mono (Nat.zero_le k)).pool, (h.mono (Nat.zero_le k)).addr⟩

theorem cost_of_sb {fs fs' : Fs} (h : fs'.sb = fs.sb) (k : ℕ) : Cost k fs fs' :=
  ⟨0, Nat.zero_le _, UInt64.zero_le, by rw [h, taken_zero]⟩

theorem Cost.mono {j k : ℕ} {fs fs' : Fs} (h : Cost j fs fs') (hjk : j ≤ k) : Cost k fs fs' := by
  obtain ⟨n, hn, hle, hsb⟩ := h
  exact ⟨n, hn.trans hjk, hle, hsb⟩

theorem Cost.trans {j k : ℕ} {fs fs₁ fs₂ : Fs} (h : Cost j fs fs₁) (h' : Cost k fs₁ fs₂) :
    Cost (j + k) fs fs₂ := by
  obtain ⟨n, hn, hle, hsb⟩ := h
  obtain ⟨m, hm, hle', hsb'⟩ := h'
  rw [hsb] at hle' hsb'
  obtain ⟨h₁, h₂⟩ := taken_taken hle hle'
  refine ⟨n + m, ?_, h₁, by rw [hsb', h₂]⟩
  rw [UInt64.toNat_add]
  exact (Nat.mod_le _ _).trans (Nat.add_le_add hn hm)

theorem Cost.ample {j k : ℕ} {fs fs₁ : Fs} (h : Cost j fs fs₁) (hp : PoolOk fs.sb)
    (ha : Ample (j + k) fs) : Ample k fs₁ := by
  obtain ⟨n, hn, hle, hsb⟩ := h
  have h₁ := ha.pool
  have h₂ := ha.addr
  refine ⟨by rw [hsb, taken_free hle]; omega, ?_⟩
  rw [hsb, taken_front hle hp]
  refine lt_of_le_of_lt ?_ h₂
  have hmul : n.toNat * 4096 + (k + 1) * 4096 ≤ (j + k + 1) * 4096 := by
    rw [← Nat.add_mul]
    exact Nat.mul_le_mul_right _ (by omega)
  omega

theorem Links.of_next {fs fs' : Fs} {L L' : Chain} (h : Links fs L) (ho : offs L' = offs L)
    (hn : ∀ o ∈ offs L, (pageAt fs' o).overflowNext = (pageAt fs o).overflowNext) :
    Links fs' L' := by
  induction L generalizing L' with
  | nil =>
    rw [List.map_eq_nil_iff.mp ho]
    trivial
  | cons p L ih =>
    cases L' with
    | nil => cases ho
    | cons p' L' =>
      obtain ⟨hp, hL⟩ := List.cons.inj ho
      have hhead : headOff L' = headOff L := by
        cases L' with
        | nil => rw [List.map_eq_nil_iff.mp hL.symm]
        | cons q' L' =>
          cases L with
          | nil => cases hL
          | cons q L => exact (List.cons.inj hL).1
      refine ⟨?_, ih h.2 hL fun o ho ↦ hn o (List.mem_cons_of_mem _ ho)⟩
      have hp' : p'.1 = p.1 := hp
      rw [hp', hn p.1 List.mem_cons_self, hhead]
      exact h.1

theorem nodup_replace {A B B' C : List UInt64} (h : (A ++ (B ++ C)).Nodup) (hB : B'.Nodup)
    (hnew : ∀ b ∈ B', b ∈ B ∨ b ∉ A ∧ b ∉ C) : (A ++ (B' ++ C)).Nodup := by
  obtain ⟨hA, hBC, hdis⟩ := List.nodup_append.mp h
  obtain ⟨-, hC, hdis'⟩ := List.nodup_append.mp hBC
  refine List.nodup_append.mpr ⟨hA, List.nodup_append.mpr ⟨hB, hC, ?_⟩, ?_⟩
  · rintro b hb c hc rfl
    rcases hnew b hb with hold | hold
    · exact hdis' b hold b hc rfl
    · exact hold.2 hc
  · rintro a ha b hb rfl
    rcases List.mem_append.mp hb with hb | hb
    · rcases hnew a hb with hold | hold
      · exact hdis a ha a (List.mem_append_left _ hold) rfl
      · exact hold.1 ha
    · exact hdis a ha a (List.mem_append_right _ hb) rfl

section modify

variable {fs fs' : Fs} {pre post : Chain} {o : UInt64} {es es' : List Ent}

theorem blocks_middle (pre post : Chain) (o : UInt64) (es : List Ent) :
    blocks (pre ++ (o, es) :: post) =
      (offs pre ++ o :: offs post) ++ recs pre ++ (locs es ++ recs post) := by
  simp [blocks]

/-- One page of the chain gets new entries; a new record lies in blocks from the pool. -/
theorem Represents.modify (h : Represents fs (pre ++ (o, es) :: post)) (hdir : fs'.pdir = fs.pdir)
    (hsb : ∃ n, n ≤ fs.sb.sFreeBlocks ∧ fs'.sb = taken fs.sb n) (hbound : front fs'.sb < 2 ^ 63)
    (hk : PagesOk fs' (offs (pre ++ (o, es) :: post)))
    (hpages : ∀ q ∈ offs (pre ++ (o, es) :: post), q ≠ o → pageAt fs' q = pageAt fs q)
    (hnext : (pageAt fs' o).overflowNext = (pageAt fs o).overflowNext)
    (hrep : PageRep fs'.img (pageAt fs' o) es')
    (hdata : ∀ b ∈ recs pre ++ recs post, ∀ i, InBlock b i → fs'.img.data i = fs.img.data i)
    (hsize : fs.img.size ≤ fs'.img.size) (hnd : (locs es').Nodup)
    (hlocs : ∀ b ∈ locs es', b ∈ locs es ∨ b.toNat % 4096 = 0 ∧ front fs.sb ≤ b.toNat ∧
      b.toNat + 4096 ≤ front fs'.sb) : Represents fs' (pre ++ (o, es') :: post) := by
  obtain ⟨n, hn, hsb⟩ := hsb
  have hfront : front fs.sb ≤ front fs'.sb := by rw [hsb, taken_front hn h.pool]; omega
  have hoffs : offs (pre ++ (o, es') :: post) = offs (pre ++ (o, es) :: post) := by simp
  have hhead : headOff (pre ++ (o, es') :: post) = headOff (pre ++ (o, es) :: post) := by
    cases pre <;> rfl
  have hblocks := h.nodup
  rw [blocks_middle] at hblocks
  have hoff : (offs (pre ++ (o, es) :: post)).Nodup := (List.nodup_append.mp h.nodup).1
  have hnot (p : UInt64 × List Ent) (hp : p ∈ pre ++ post) : p.1 ≠ o := by
    simp only [offs_append, offs_cons] at hoff
    have hmid := List.nodup_middle.mp hoff
    have hno := (List.nodup_cons.mp hmid).1
    intro heq
    refine hno ?_
    rw [← heq, ← offs_append]
    exact mem_offs hp
  refine ⟨by simp, by rw [hdir, h.dir, hhead], by rw [hsb]; exact taken_ok hn h.pool,
    hbound, by rw [hoffs]; exact hk, fun p hp ↦ ?_, ?_, ?_, fun b hb ↦ ?_⟩
  · have hother (hp : p ∈ pre ++ post) : PageRep fs'.img (pageAt fs' p.1) p.2 := by
      have hpL : p ∈ pre ++ (o, es) :: post := by
        rcases List.mem_append.mp hp with hp | hp
        · exact List.mem_append_left _ hp
        · exact List.mem_append_right _ (List.mem_cons_of_mem _ hp)
      rw [hpages p.1 (mem_offs hpL) (hnot p hp)]
      refine (h.reps p hpL).congr (fun off ho ↦ hdata off ?_) hsize
      rw [← recs_append]
      exact mem_recs hp ho
    rcases List.mem_append.mp hp with hp | hp
    · exact hother (List.mem_append_left _ hp)
    · rcases List.mem_cons.mp hp with rfl | hp
      · exact hrep
      · exact hother (List.mem_append_right _ hp)
  · refine h.links.of_next hoffs fun q hq ↦ ?_
    by_cases hqo : q = o
    · rw [hqo]
      exact hnext
    · rw [hpages q hq hqo]
  · rw [blocks_middle]
    refine nodup_replace hblocks hnd fun b hb ↦ ?_
    rcases hlocs b hb with hold | ⟨-, hge, -⟩
    · exact .inl hold
    · have hfar : b ∉ blocks (pre ++ (o, es) :: post) := fun hmem ↦ by
        have := (h.within b hmem).2.2
        omega
      rw [blocks_middle] at hfar
      exact .inr ⟨fun hA ↦ hfar (List.mem_append_left _ hA),
        fun hC ↦ hfar (List.mem_append_right _ (List.mem_append_right _ hC))⟩
  · have hD : fs'.sb.sDataOff = fs.sb.sDataOff := by rw [hsb]; rfl
    have hcase : b ∈ blocks (pre ++ (o, es) :: post) ∨ b ∈ locs es' := by
      rw [blocks_middle] at hb ⊢
      simp only [List.mem_append] at hb ⊢
      tauto
    have hin (hb : b ∈ blocks (pre ++ (o, es) :: post)) : b.toNat % 4096 = 0 ∧
        fs'.sb.sDataOff.toNat ≤ b.toNat ∧ b.toNat + 4096 ≤ front fs'.sb := by
      obtain ⟨h₁, h₂, h₃⟩ := h.within b hb
      exact ⟨h₁, by rw [hD]; exact h₂, h₃.trans hfront⟩
    rcases hcase with hb | hb
    · exact hin hb
    · rcases hlocs b hb with hold | ⟨h₁, h₂, h₃⟩
      · refine hin ?_
        rw [blocks_middle]
        exact List.mem_append_right _ (List.mem_append_left _ hold)
      · refine ⟨h₁, ?_, h₃⟩
        rw [hD]
        exact le_trans (by rw [front]; omega) h₂

theorem Moved.modify (hsb : ∃ n, n ≤ fs.sb.sFreeBlocks ∧ fs'.sb = taken fs.sb n)
    (hlocs : ∀ b ∈ locs es', b ∈ locs es ∨ b.toNat % 4096 = 0 ∧ front fs.sb ≤ b.toNat ∧
      b.toNat + 4096 ≤ front fs'.sb)
    (hdata : ∀ i, ¬InBlock o i → (∀ b ∈ locs es, ¬InBlock b i) →
      ¬(front fs.sb ≤ i ∧ i < front fs'.sb) → fs'.img.data i = fs.img.data i)
    (hsize : fs.img.size ≤ fs'.img.size) :
    Moved (pre ++ (o, es) :: post) (pre ++ (o, es') :: post) fs fs' := by
  refine ⟨hsb, fun b hb ↦ ?_, fun i hi hf ↦ hdata i (hi o ?_) (fun b hb ↦ hi b ?_) hf, hsize⟩
  · rw [blocks_middle] at hb ⊢
    simp only [List.mem_append] at hb ⊢
    rcases hb with hb | hb | hb
    · exact .inl (.inl hb)
    · rcases hlocs b hb with hb | ⟨-, hb⟩
      · exact .inl (.inr (.inl hb))
      · exact .inr hb
    · exact .inl (.inr (.inr hb))
  · rw [blocks_middle]
    simp
  · rw [blocks_middle]
    exact List.mem_append_right _ (List.mem_append_left _ hb)

end modify

end Xxfs.IndexRep

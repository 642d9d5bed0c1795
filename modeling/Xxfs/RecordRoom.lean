import Xxfs.PathNormal
import Xxfs.NamespaceRuns

namespace Xxfs.RecordRoom

open Xxfs.DiskFormat Xxfs.Machine Xxfs.Allocator Xxfs.PagedIndex Xxfs.PageStore Xxfs.Volume
open Xxfs.PathName Xxfs.IndexRep Xxfs.IndexState Xxfs.Soundness Xxfs.Frames Xxfs.FreshVolume
open Xxfs.StoredInode Xxfs.FreshIndex Xxfs.Checksum Xxfs.NamespaceRuns
open Xxfs.Lib Xxfs.Lib.Computation Xxfs.Lib.Computation.Comp

/-- The bytes of the image that a computation stores to: those it changes for some content. -/
def Stores {α : Type} (c : FsM α) (fs : Fs) (i : ℕ) : Prop :=
  ∃ img a fs', c { fs with img := img } = some (a, fs') ∧ fs'.img.data i ≠ img.data i

section record

variable {env : Env} {fs fs' : Fs} {key : Path} {val : List UInt8}

theorem osPwrite_data {src : ℕ → UInt8} {len : ℕ} {off : UInt64} {ok : Bool}
    (h : osPwrite env src len off fs = some (ok, fs')) {i : ℕ}
    (hi : i < off.toNat ∨ off.toNat + len ≤ i) : fs'.img.data i = fs.img.data i := by
  simp only [osPwrite, bind_apply, tick_apply, Option.bind_some, if_apply, modify_apply,
    pure_apply] at h
  split at h
  · obtain ⟨-, rfl⟩ := Prod.mk.inj (Option.some.inj h)
    exact Image.write_out _ _ hi
  · obtain ⟨-, rfl⟩ := Prod.mk.inj (Option.some.inj h)
    rfl

theorem recBuffer_img {len : ℕ} {b : Option (ℕ → UInt8)}
    (h : recBuffer env len fs = some (b, fs')) : fs'.img = fs.img := by
  simp only [recBuffer, osAlloc, bind_apply, get_apply, tick_apply, Option.bind_some, if_apply,
    pure_apply] at h
  split at h
  · obtain ⟨-, rfl⟩ := Prod.mk.inj (Option.some.inj h)
    rfl
  · split at h
    all_goals
      obtain ⟨-, rfl⟩ := Prod.mk.inj (Option.some.inj h)
      rfl

/-- `write_record` stores to as many bytes as the record has, from where the block starts. -/
theorem writeRecord_stores {i : ℕ} (h : Stores (writeRecord env key val) fs i) :
    (nextOff fs.sb).toNat ≤ i ∧ i < (nextOff fs.sb).toNat + recLen key.length val.length := by
  obtain ⟨img, r, fs', hw, hne⟩ := h
  by_contra hout
  refine hne ?_
  rw [writeRecord] at hw
  obtain ⟨off, fs₁, halloc, hw⟩ := of_bind hw
  obtain ⟨hoff, hdata⟩ := pageAlloc_answer halloc
  rw [if_apply] at hw
  split at hw
  · obtain ⟨-, rfl⟩ := Prod.mk.inj (Option.some.inj hw)
    rw [hdata]
  · rename_i h0
    obtain ⟨rfl, -⟩ := hoff.resolve_left h0
    obtain ⟨b, fs₂, hbuf, hw⟩ := of_bind hw
    have hdata₂ : fs₂.img = fs₁.img := recBuffer_img hbuf
    cases b with
    | none =>
      obtain ⟨-, rfl⟩ := Prod.mk.inj (Option.some.inj hw)
      rw [hdata₂, hdata]
    | some b =>
      obtain ⟨ok, fs₃, hpw, hw⟩ := of_bind hw
      have hkeep := osPwrite_data hpw (i := i) (by dsimp only; omega)
      have hfs : fs' = fs₃ := by
        rw [if_apply] at hw
        split at hw
        all_goals exact (Prod.mk.inj (Option.some.inj hw)).2.symm
      rw [hfs, hkeep, hdata₂, hdata]

theorem stores_writeRecord (he : Healthy env) (hp : PoolOk fs.sb) (hl : Live fs) {j : ℕ}
    (hj : j < recLen key.length val.length) :
    Stores (writeRecord env key val) fs ((nextOff fs.sb).toNat + j) := by
  have hoff := hl.nextOff_toNat hp
  have hub := (hl.usable hp).bound
  -- the image holds another byte than the one the record has there
  let img : Image := ⟨fun i ↦ if i = (nextOff fs.sb).toNat + j then recordBytes key val j + 1 else 0,
    (nextOff fs.sb).toNat + j + 1, fun i hi ↦ if_neg (by omega)⟩
  obtain ⟨buf, c, hbuf⟩ := recBuffer_apply he { fs with img := img, sb := taken fs.sb 1 }
    (recLen key.length val.length)
  refine ⟨img, .ok (nextOff fs.sb), { fs with
    sb := taken fs.sb 1
    img := img.write (recordBytes key val) (recLen key.length val.length) (nextOff fs.sb).toNat
    clock := c + 1 }, ?_, ?_⟩
  · have halloc : pageAlloc env { fs with img := img } =
        some (nextOff fs.sb, { fs with img := img, sb := taken fs.sb 1 }) :=
      pageAlloc_free env hl.ne_zero
    rw [writeRecord, bind_apply, halloc, Option.bind_some, if_neg (hl.nextOff_ne_zero hp),
      bind_apply, hbuf, Option.bind_some]
    dsimp only
    rw [bind_apply, he.osPwrite_apply _ _ _ (by omega), Option.bind_some, if_pos rfl, pure_apply]
  · dsimp only
    rw [Image.write_in _ _ (by omega) (by omega), Nat.add_sub_cancel_left]
    change _ ≠ if _ then _ else _
    rw [if_pos rfl]
    intro h
    simp at h

end record

section later

/-- The bytes that an extent of `n` blocks at `off` has. -/
def extentBytes (off n : UInt64) : Set ℕ := Set.Ico off.toNat (off.toNat + n.toNat * 4096)

/-- Allocations that find their blocks free in the pool, at offsets that a file can have, and
writes into the blocks they return. `S` is what has been handed out. -/
inductive Later (env : Env) (fs₀ : Fs) : Set ℕ → Fs → Prop
  | refl : Later env fs₀ ∅ fs₀
  | alloc {S : Set ℕ} {fs fs' : Fs} {n off : UInt64} : Later env fs₀ S fs → n ≠ 0 →
    n ≤ fs.sb.sFreeBlocks → front (taken fs.sb n) < 2 ^ 63 →
    pageAllocN env n fs = some (off, fs') → Later env fs₀ (S ∪ extentBytes off n) fs'
  | write {S : Set ℕ} {fs fs' : Fs} {src : ℕ → UInt8} {len : ℕ} {off : UInt64} {ok : Bool} :
    Later env fs₀ S fs → (∀ i, off.toNat ≤ i → i < off.toNat + len → i ∈ S) →
    osPwrite env src len off fs = some (ok, fs') → Later env fs₀ S fs'

variable {env : Env} {K : Path → Prop} {m : Inodes} {F S : Set ℕ} {fs₀ fs : Fs} {L : Chain}

theorem Later.backed (hb : Backed K m F fs₀ L) (h : Later env fs₀ S fs) :
    Backed K m (F ∪ S) fs L := by
  induction h with
  | refl => rwa [Set.union_empty]
  | @alloc S fs fs' n off _ h0 hn hfront hx ih =>
    rw [pageAllocN_free env h0 hn] at hx
    obtain ⟨rfl, rfl⟩ := Prod.mk.inj (Option.some.inj hx)
    have hpos : 0 < fs.sb.sFreeBlocks.toNat := by
      have := UInt64.le_iff_toNat_le.mp hn
      have := pos_of_ne_zero h0
      omega
    have hbytes : extentBytes (nextOff fs.sb) n = nextBytes fs n.toNat := by
      rw [extentBytes, nextBytes, nextOff_toNat ih.rep.pool hpos]
    rw [hbytes, ← Set.union_assoc]
    exact ih.take hn hfront
  | @write S fs fs' src len off ok _ hin hx ih =>
    simp only [osPwrite, bind_apply, tick_apply, Option.bind_some, if_apply, modify_apply,
      pure_apply] at hx
    split at hx
    · obtain ⟨-, rfl⟩ := Prod.mk.inj (Option.some.inj hx)
      exact ih.write src _ fun i h₁ h₂ ↦ .inr (hin i h₁ h₂)
    · obtain ⟨-, rfl⟩ := Prod.mk.inj (Option.some.inj hx)
      exact ih.same rfl rfl rfl rfl

end later

section main

variable {env : Env} (he : Healthy env) {K : Path → Prop} (hK : Names K) {fs : Fs}
include he hK

/-- The record of an inode stays inside the block that it was given, and what is allocated and
written later leaves it alone, if and only if it is no longer than a block. -/
theorem record_kept_iff (hrun : CarefulRun K env fs) {path : Path}
    (hp : 8 + (pathNormalize path).length + inodeSize ≤ 4096 → K (pathNormalize path)) {n : Inode}
    (hn : Sealed n) :
    (∀ fs₁ off fs₂ i, pageAlloc env fs₁ = some (off, fs₂) → off ≠ 0 →
      Stores (writeRecord env (pathNormalize path) (inodeToVal n)) fs₁ i → InBlock off i) ∧
    (∀ rc fs₁, pagedPut env (pathNormalize path) (inodeToVal n) fs = some (rc, fs₁) → Live fs₁ →
      rc = .ok ∧ ∀ S fs₂, Later env fs₁ S fs₂ → ∃ fs₃,
        pagedGet env (pathNormalize path) inodeSize fs₂ = some (.ok (inodeToVal n), fs₃)) ↔
    8 + (pathNormalize path).length + inodeSize ≤ 4096 := by
  generalize pathNormalize path = p at *
  have hlen : recLen p.length (inodeToVal n).length = 8 + p.length + inodeSize := by
    rw [inodeToVal_length]
    rfl
  constructor
  · rintro ⟨hin, -⟩
    by_contra hbig
    have hl : Live (freshFs steady 1 0) := freshOne_ample.live
    have hp := (fresh_poolOk steady goodSize_one 0).1
    have := hin _ _ _ _ (pageAlloc_free env hl.ne_zero) (hl.nextOff_ne_zero hp)
      (stores_writeRecord (j := 4096) he hp hl (by omega))
    have := this.2
    omega
  · intro hfit
    refine ⟨fun fs₁ off fs₂ i halloc h0 hst ↦ ?_, fun rc fs₁ hput hl ↦ ?_⟩
    · obtain ⟨rfl, -⟩ := (pageAlloc_answer halloc).1.resolve_left h0
      have := writeRecord_stores hst
      exact ⟨this.1, by omega⟩
    · have hs := CarefulRun.sound he hK hrun
      obtain ⟨L, hb⟩ := hs.backed
      have hl₀ := live_before (spends_of_index (pagedPut_indexOnly env p trivial)) hput hl
      obtain ⟨rc', fs', hput', hafter⟩ := hb.pagedPut he hK (hp hfit) hn hl₀
      rw [hput] at hput'
      obtain ⟨rfl, rfl⟩ := Prod.mk.inj (Option.some.inj hput')
      obtain ⟨hrc, -, L', hb'⟩ := hafter hl
      refine ⟨hrc, fun S fs₂ hlater ↦ ?_⟩
      have hb₂ := hlater.backed hb'
      obtain ⟨fs₃, hget, -⟩ := pagedGet_apply he inodeSize (hK.length_lt (hp hfit)) hb₂.rep
      refine ⟨fs₃, ?_⟩
      have hval := hb₂.get p
      rw [Function.update_self, Option.map_some, ← IndexMap.lookup_ents] at hval
      obtain ⟨e, hlook, hev⟩ := Option.map_eq_some_iff.mp hval
      rw [hget, found, hlook]
      dsimp only
      rw [answer, hev, inodeToVal_length, if_neg (by decide)]

end main

section examples

/-- A record that is put into a fresh index, and the next allocation. -/
theorem record_kept_put : ∃ fs₁ off fs₂ fs₃,
    pagedPut steady [slash, 97] (inodeToVal (rootInode 0)) (freshFs steady 1 0) = some (.ok, fs₁) ∧
      pageAllocN steady 1 fs₁ = some (off, fs₂) ∧
      pagedGet steady [slash, 97] inodeSize fs₂ = some (.ok (inodeToVal (rootInode 0)), fs₃) := by
  have hmem : pathNormalize [slash, 97] ∈ fewPaths := by decide
  have hrun : CarefulRun (· ∈ fewPaths) steady (freshFs steady 1 0) :=
    .fresh (fresh_apply steady_healthy goodSize_one 0)
  have hnorm : pathNormalize [slash, 97] = [slash, 97] := by decide
  have hroom : 8 + (pathNormalize [slash, 97]).length + inodeSize ≤ 4096 →
      pathNormalize [slash, 97] ∈ fewPaths := fun _ ↦ hmem
  have hs : Sound (· ∈ fewPaths) _ ∅ (freshFs steady 1 0) := sound_fresh fewPaths_names goodSize_one 0
  obtain ⟨L, hb⟩ := hs.backed
  obtain ⟨fs₁, hput, hsp, -, L', hb'⟩ := put_returns steady_healthy fewPaths_names hb hmem
    (hollow_root 0).whole (freshOne_ample.mono (by decide))
  have ha : Ample 238 fs₁ := hsp 238 freshOne_ample
  have hlater : Later steady fs₁ _ _ := .alloc .refl (by decide) ha.live.one_le
    (by rw [ha.live.front_taken hb'.rep.pool]; exact ha.live.addr)
    (pageAllocN_free steady (by decide) ha.live.one_le)
  have h := ((record_kept_iff steady_healthy fewPaths_names hrun hroom
    (hollow_root 0).whole).mpr (by decide)).2
  rw [hnorm] at h hput
  obtain ⟨fs₃, hget⟩ := (h _ _ hput ha.live).2 _ _ hlater
  exact ⟨fs₁, _, _, fs₃, hput, pageAllocN_free steady (by decide) ha.live.one_le, hget⟩

def longName : Path := slash :: List.replicate 4000 97

theorem normalize_name {c : Path} (hc : Plain c) (hlen : c.length + 1 < maxPath - 1) :
    pathNormalize (slash :: c) = slash :: c := by
  refine Clean.normalize ⟨[c], List.forall_mem_singleton.mpr hc, ?_⟩ hlen
  rw [joinPath, if_neg (List.cons_ne_nil _ _), absPath, List.flatMap_singleton]

theorem longName_normalize : pathNormalize longName = longName := by
  refine normalize_name ⟨?_, ?_, ?_⟩ ?_
  · exact List.cons_ne_nil _ _
  · exact fun h ↦ absurd (List.eq_of_mem_replicate h) (by decide)
  · intro h
    have := congrArg List.length h
    rw [List.length_replicate] at this
    cases this
  · rw [List.length_replicate]
    decide

theorem long_record_spills : ¬∀ env K fs path n, Healthy env → Names K → CarefulRun K env fs →
    Sealed n →
    (∀ fs₁ off fs₂ i, pageAlloc env fs₁ = some (off, fs₂) → off ≠ 0 →
      Stores (writeRecord env (pathNormalize path) (inodeToVal n)) fs₁ i → InBlock off i) ∧
    ∀ rc fs₁, pagedPut env (pathNormalize path) (inodeToVal n) fs = some (rc, fs₁) → Live fs₁ →
      rc = .ok ∧ ∀ S fs₂, Later env fs₁ S fs₂ → ∃ fs₃,
        pagedGet env (pathNormalize path) inodeSize fs₂ = some (.ok (inodeToVal n), fs₃) := by
  intro h
  have hl : Live (freshFs steady 1 0) := freshOne_ample.live
  have hp := (fresh_poolOk steady goodSize_one 0).1
  have hin := (h steady (· ∈ fewPaths) _ longName (rootInode 0) steady_healthy fewPaths_names
    (.fresh (fresh_apply steady_healthy goodSize_one 0)) (hollow_root 0).whole).1
  rw [longName_normalize] at hin
  have hj : 4096 < recLen longName.length (inodeToVal (rootInode 0)).length := by
    rw [inodeToVal_length, longName, List.length_cons, List.length_replicate]
    decide
  have hblock := hin _ _ _ _ (pageAlloc_free steady hl.ne_zero) (hl.nextOff_ne_zero hp)
    (stores_writeRecord steady_healthy hp hl hj)
  exact absurd hblock.2 (Nat.lt_irrefl _)

end examples

end Xxfs.RecordRoom

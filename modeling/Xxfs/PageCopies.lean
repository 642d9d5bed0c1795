import Xxfs.PageStore

namespace Xxfs.PageShape

open Xxfs.DiskFormat Xxfs.Machine Xxfs.PageCache Xxfs.PageStore
open Xxfs.Lib.Computation Xxfs.Lib.Computation.Comp

/-- The cache holds pages of `ps` only, and every copy of one, cached or stored, is one of `P`. -/
structure Copies (P : PagedPage → Prop) (ps : UInt64 → Prop) (fs : Fs) : Prop where
  cached : ∀ i pg, (fs.pcache i).page = some pg → ps (fs.pcache i).pageOff ∧ P pg
  stored : ∀ o, ps o → P (diskPage fs.img o)

def Joined (ps : UInt64 → Prop) (off o : UInt64) : Prop := ps o ∨ o = off

variable {P P' : PagedPage → Prop} {ps : UInt64 → Prop} {env : Env} {fs fs' : Fs}
variable {off : UInt64} {pg : PagedPage}

theorem joined_of_mem (ho : ps off) : Joined ps off = ps := by
  funext o
  refine propext ⟨fun h ↦ h.elim id ?_, .inl⟩
  rintro rfl
  exact ho

theorem Copies.mono (h : Copies P ps fs) (hP : ∀ pg, P pg → P' pg) : Copies P' ps fs :=
  ⟨fun i pg hp ↦ ⟨(h.cached i pg hp).1, hP pg (h.cached i pg hp).2⟩, fun o ho ↦ hP _ (h.stored o ho)⟩

theorem Copies.pageAt (h : Copies P ps fs) (ho : ps off) : P (pageAt fs off) := by
  unfold PageStore.pageAt
  split
  · rename_i pg hp
    split
    · exact (h.cached _ pg hp).2
    · exact h.stored off ho
  · exact h.stored off ho

theorem Copies.congr (h : Copies P ps fs) (hc : fs'.pcache = fs.pcache)
    (hd : ∀ o, ps o → ∀ i, InBlock o i → fs'.img.data i = fs.img.data i) : Copies P ps fs' :=
  ⟨fun i pg hp ↦ hc ▸ h.cached i pg (hc ▸ hp), fun o ho ↦ diskPage_congr _ (hd o ho) ▸ h.stored o ho⟩

theorem Copies.setSlot (h : Copies P ps fs) (idx : ℕ) {c : PagedCache}
    (hc : ∀ pg, c.page = some pg → ps c.pageOff ∧ P pg) :
    Copies P ps { fs with pcache := fun i ↦ if i = idx then c else fs.pcache i } := by
  refine ⟨fun i pg hp ↦ ?_, h.stored⟩
  by_cases hi : i = idx <;> simp only [hi, ↓reduceIte] at hp ⊢
  · exact hc pg hp
  · exact h.cached i pg hp

theorem of_holds (hh : holds fs off = true) : (fs.pcache (pcIndex off)).pageOff = off := by
  rw [holds, Bool.and_eq_true, beq_iff_eq] at hh
  exact hh.1

theorem Copies.poke (h : Copies P ps fs) (ho : ps off) (hp : P pg) {u : Unit}
    (hrun : pagePoke pg off fs = some (u, fs')) : Copies P ps fs' ∧ fs'.pdir = fs.pdir := by
  simp only [pagePoke, bind_apply, get_apply, Option.bind_some, if_apply, setPcache,
    modify_apply] at hrun
  split at hrun
  · rename_i hh
    obtain ⟨-, rfl⟩ := Prod.mk.inj (Option.some.inj hrun)
    refine ⟨h.setSlot _ fun pg' hpg' ↦ ⟨?_, Option.some.inj hpg' ▸ hp⟩, rfl⟩
    exact (of_holds hh).symm ▸ ho
  · obtain ⟨-, rfl⟩ := Prod.mk.inj (Option.some.inj hrun)
    exact ⟨h, rfl⟩

section calls

variable (hio : ∀ n, env.io n = true) (hu : ∀ o, ps o → Usable o)
include hio hu

theorem Copies.store (h : Copies P ps fs) (ho : Usable off) (hp : P pg) {ok : Bool}
    (hrun : osPwrite env pg.encode pageSize off fs = some (ok, fs')) :
    ok = true ∧ Copies P (Joined ps off) fs' ∧ fs'.pdir = fs.pdir := by
  have hb := ho.bound
  rw [osPwrite_of_io fs (hio _) _ _ (by omega)] at hrun
  obtain ⟨rfl, rfl⟩ := Prod.mk.inj (Option.some.inj hrun)
  refine ⟨rfl, ⟨fun i pg' hp' ↦ ?_, fun o ho' ↦ ?_⟩, rfl⟩
  · exact ⟨.inl (h.cached i pg' hp').1, (h.cached i pg' hp').2⟩
  · by_cases hoff : o = off
    · rw [hoff, diskPage_write]
      exact hp
    · have hps := ho'.resolve_right hoff
      have hsame : diskPage (fs.img.write pg.encode pageSize off.toNat) o = diskPage fs.img o :=
        diskPage_congr fs.img fun i hi ↦
          write_outBlock _ _ le_rfl ((hu o hps).disjoint ho hoff hi)
      exact hsame ▸ h.stored o hps

theorem Copies.outside (h : Copies P ps fs) {r : UInt64} (hr : Usable r) (hnot : ¬ps r)
    {src : ℕ → UInt8} {len : ℕ} (hlow : r.toNat ≤ off.toNat)
    (hhigh : off.toNat + len ≤ r.toNat + 4096) {ok : Bool}
    (hrun : osPwrite env src len off fs = some (ok, fs')) :
    Copies P ps fs' ∧ fs'.pdir = fs.pdir := by
  have hb := hr.bound
  by_cases hlen : off.toNat < 2 ^ 63
  · rw [osPwrite_of_io fs (hio _) _ _ hlen] at hrun
    obtain ⟨-, rfl⟩ := Prod.mk.inj (Option.some.inj hrun)
    refine ⟨h.congr rfl fun o ho i hi ↦ Image.write_out _ _ ?_, rfl⟩
    have hout : ¬InBlock r i := (hu o ho).disjoint hr (fun heq ↦ hnot (heq ▸ ho)) hi
    unfold InBlock at hout
    omega
  · simp only [osPwrite, bind_apply, tick_apply, Option.bind_some, hlen, and_false, ↓reduceIte,
      pure_apply, Option.some.injEq, Prod.mk.injEq] at hrun
    obtain ⟨-, rfl⟩ := hrun
    exact ⟨h.congr rfl fun _ _ _ _ ↦ rfl, rfl⟩

theorem Copies.writeback (h : Copies P ps fs) (ho : ps off) (hp : P pg) {u : Unit}
    (hrun : pageWriteback env pg off fs = some (u, fs')) :
    Copies P ps fs' ∧ fs'.pdir = fs.pdir := by
  simp only [pageWriteback, bind_apply, get_apply, Option.bind_some, if_apply, setPcache,
    modify_apply] at hrun
  split at hrun
  · obtain ⟨-, rfl⟩ := Prod.mk.inj (Option.some.inj hrun)
    exact ⟨h.setSlot _ fun pg' hpg' ↦ ⟨ho, Option.some.inj hpg' ▸ hp⟩, rfl⟩
  · obtain ⟨ok, fs₁, hw, hend⟩ := of_bind hrun
    obtain ⟨-, rfl⟩ := Prod.mk.inj (Option.some.inj hend)
    obtain ⟨-, hs, hd⟩ := h.store hio hu (hu off ho) hp hw
    rw [joined_of_mem ho] at hs
    exact ⟨hs, hd⟩

theorem Copies.invalidate (h : Copies P ps fs) {u : Unit}
    (hrun : pageCacheInvalidate env off fs = some (u, fs')) :
    Copies P ps fs' ∧ fs'.pdir = fs.pdir := by
  have hnone (g : Fs) (hg : Copies P ps g) (idx : ℕ) :
      Copies P ps { g with pcache := fun i ↦ if i = idx then ⟨0, none, false⟩ else g.pcache i } :=
    hg.setSlot idx fun pg hp ↦ by cases hp
  simp only [pageCacheInvalidate, bind_apply, get_apply, Option.bind_some] at hrun
  cases hp : (fs.pcache (pcIndex off)).page with
  | none =>
    rw [hp] at hrun
    obtain ⟨-, rfl⟩ := Prod.mk.inj (Option.some.inj hrun)
    exact ⟨h, rfl⟩
  | some pg =>
    obtain ⟨ho, hpg⟩ := h.cached _ pg hp
    simp only [hp, if_apply, bind_apply, setPcache, modify_apply, pure_apply] at hrun
    split at hrun
    · rename_i hoff
      rw [hoff] at ho
      split at hrun
      · have hb := (hu off ho).bound
        have hw := osPwrite_of_io fs (hio _) pg.encode pageSize (lt_of_lt_of_le (Nat.lt_add_of_pos_right (by decide)) hb)
        obtain ⟨-, hs, hd⟩ := h.store hio hu (hu off ho) hpg hw
        rw [joined_of_mem ho] at hs
        rw [discard_apply, hw] at hrun
        obtain ⟨-, rfl⟩ := Prod.mk.inj (Option.some.inj hrun)
        exact ⟨hnone _ hs _, hd⟩
      · obtain ⟨-, rfl⟩ := Prod.mk.inj (Option.some.inj hrun)
        exact ⟨hnone _ h _, rfl⟩
    · obtain ⟨-, rfl⟩ := Prod.mk.inj (Option.some.inj hrun)
      exact ⟨h, rfl⟩

theorem Copies.fill (h : Copies P ps fs) (ho : ps off) {idx : ℕ} {c : PagedCache}
    (hc : c.page = none) {r : Option PagedPage}
    (hrun : pageLoad.fill env off idx c fs = some (r, fs')) :
    Copies P ps fs' ∧ fs'.pdir = fs.pdir ∧ ∀ pg, r = some pg → P pg := by
  by_cases hm : env.mem fs.clock = true
  · rw [fill_of_calls hm (hio _) (hu off ho)] at hrun
    obtain ⟨rfl, rfl⟩ := Prod.mk.inj (Option.some.inj hrun)
    have hp := h.stored off ho
    refine ⟨?_, rfl, fun pg hpg ↦ Option.some.inj hpg ▸ hp⟩
    have hset := h.setSlot idx (c := ⟨off, some (diskPage fs.img off), false⟩)
      fun pg hpg ↦ ⟨ho, Option.some.inj hpg ▸ hp⟩
    exact hset.congr rfl fun _ _ _ _ ↦ rfl
  · simp only [pageLoad.fill, setPcache, osAlloc, bind_apply, modify_apply, tick_apply,
      Option.bind_some, pure_apply, hm, Bool.false_eq_true, ↓reduceIte, Option.some.injEq,
      Prod.mk.injEq] at hrun
    obtain ⟨rfl, rfl⟩ := hrun
    refine ⟨?_, rfl, fun pg hpg ↦ by cases hpg⟩
    have hset := h.setSlot idx (c := c) fun pg hpg ↦ by rw [hc] at hpg; cases hpg
    exact hset.congr rfl fun _ _ _ _ ↦ rfl

/-- What `page_load` returns is a copy of the page, whether or not it finds memory. -/
theorem Copies.load (h : Copies P ps fs) (ho : ps off) {r : Option PagedPage}
    (hrun : pageLoad env off fs = some (r, fs')) :
    Copies P ps fs' ∧ fs'.pdir = fs.pdir ∧ ∀ pg, r = some pg → P pg := by
  simp only [pageLoad, bind_apply, get_apply, Option.bind_some] at hrun
  cases hp : (fs.pcache (pcIndex off)).page with
  | none =>
    rw [hp] at hrun
    exact h.fill hio hu ho hp hrun
  | some pg =>
    obtain ⟨ho', hpg⟩ := h.cached _ pg hp
    simp only [hp, if_apply, bind_apply, pure_apply] at hrun
    split at hrun
    · obtain ⟨rfl, rfl⟩ := Prod.mk.inj (Option.some.inj hrun)
      exact ⟨h, rfl, fun pg' hpg' ↦ Option.some.inj hpg' ▸ hpg⟩
    · split at hrun
      · have hb := (hu _ ho').bound
        have hw := osPwrite_of_io fs (hio _) pg.encode pageSize
          (lt_of_lt_of_le (Nat.lt_add_of_pos_right (by decide)) hb)
        obtain ⟨-, hs, hd⟩ := h.store hio hu (hu _ ho') hpg hw
        rw [joined_of_mem ho'] at hs
        rw [discard_apply, hw] at hrun
        obtain ⟨hs', hd', hr⟩ := hs.fill hio hu ho rfl hrun
        exact ⟨hs', hd'.trans hd, hr⟩
      · exact h.fill hio hu ho rfl hrun

end calls

end Xxfs.PageShape

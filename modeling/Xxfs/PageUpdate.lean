import Xxfs.IndexGet
import Xxfs.Lib.SwapRemove

namespace Xxfs.IndexRep

open Xxfs.DiskFormat Xxfs.Machine Xxfs.PagedIndex Xxfs.PageStore Xxfs.Hash Xxfs.Lib.SwapRemove

section page

variable (pg : PagedPage) (s : PagedSlot)

theorem setSlot_slot {i : ℕ} (hi : i < slotsPerPage) : (pg.setSlot i s).slot i = s := by
  have hi' : i < 56 := hi
  simp [PagedPage.slot, PagedPage.setSlot, hi']

theorem setSlot_slot_ne {i j : ℕ} (h : j ≠ i) : (pg.setSlot i s).slot j = pg.slot j := by
  unfold PagedPage.slot PagedPage.setSlot
  split
  · simp [h]
  · rfl

theorem arr_arrCopy {n : ℕ} (a : Fin n → UInt8) (off len : ℕ) (src : ℕ → UInt8) (j : ℕ) :
    (arr (arrCopy a off len src)).2 j =
      if off ≤ j ∧ j < off + len ∧ j < n then src (j - off) else (arr a).2 j := by
  simp only [arr, arrCopy]
  by_cases hj : j < n
  · simp [hj]
  · simp [hj]

end page

section replace

variable {img img' : Image} {pg pg' : PagedPage} {l₁ l₂ : List Ent} {e e' : Ent}

theorem getElem?_middle {i : ℕ} {x : Ent} (h : (l₁ ++ e :: l₂)[i]? = some x) :
    i = l₁.length ∧ x = e ∨ i ≠ l₁.length ∧ x ∈ l₁ ++ l₂ ∧ ∀ e', (l₁ ++ e' :: l₂)[i]? = some x := by
  by_cases hi : i = l₁.length
  · subst hi
    simp only [List.getElem?_append_right le_rfl, Nat.sub_self, List.getElem?_cons_zero,
      Option.some.injEq] at h
    exact .inl ⟨rfl, h.symm⟩
  · refine .inr ⟨hi, ?_, fun e' ↦ ?_⟩
    · rcases Nat.lt_or_ge i l₁.length with hlt | hge
      · rw [List.getElem?_append_left hlt] at h
        exact List.mem_append_left _ (List.mem_of_getElem? h)
      · rw [List.getElem?_append_right hge] at h
        obtain ⟨k, hk⟩ : ∃ k, i - l₁.length = k + 1 := ⟨i - l₁.length - 1, by omega⟩
        rw [hk, List.getElem?_cons_succ] at h
        exact List.mem_append_right _ (List.mem_of_getElem? h)
    · rcases Nat.lt_or_ge i l₁.length with hlt | hge
      · rwa [List.getElem?_append_left hlt] at h ⊢
      · rw [List.getElem?_append_right hge] at h ⊢
        obtain ⟨k, hk⟩ : ∃ k, i - l₁.length = k + 1 := ⟨i - l₁.length - 1, by omega⟩
        rwa [hk, List.getElem?_cons_succ] at h ⊢

theorem getElem?_self : (l₁ ++ e :: l₂)[l₁.length]? = some e := by
  simp

theorem SlotRep.keep {s : PagedSlot} {x : Ent} (h : SlotRep img pg s x)
    (hused : x.loc = none → pg.inlineUsed.toNat ≤ pg'.inlineUsed.toNat)
    (hinline : x.loc = none → ∀ j, s.fileOff.toNat ≤ j →
      j < s.fileOff.toNat + x.key.length + x.val.length → pg'.inlineByte j = pg.inlineByte j)
    (hd : ∀ off, x.loc = some off → ∀ i, InBlock off i → img'.data i = img.data i)
    (hsz : img.size ≤ img'.size) : SlotRep img' pg' s x := by
  refine ⟨h.hash, h.klen, h.vlen, h.small, h.keyPrefix, ?_⟩
  have hb := h.body
  unfold Body at hb ⊢
  cases hl : x.loc with
  | some off =>
    rw [hl] at hb
    exact ⟨hb.1, hb.2.1, hb.2.2.congr h.small (hd off hl) hsz⟩
  | none =>
    rw [hl] at hb
    refine ⟨hb.1, fun j hj ↦ ?_, fun j hj ↦ ?_, hb.2.bound.trans (hused hl)⟩
    · rw [hinline hl _ (by omega) (by omega)]
      exact hb.2.keyBytes j hj
    · rw [hinline hl _ (by omega) (by omega)]
      exact hb.2.valBytes j hj

theorem PageRep.replaceSlot (h : PageRep img pg (l₁ ++ e :: l₂)) (hcount : pg'.count = pg.count)
    (hused : pg'.inlineUsed = pg.inlineUsed)
    (hslots : ∀ j, j ≠ l₁.length → pg'.slot j = pg.slot j)
    (hinline : ∀ j, (e.loc = none → j < (pg.slot l₁.length).fileOff.toNat ∨
      (pg.slot l₁.length).fileOff.toNat + e.key.length + e.val.length ≤ j) →
        pg'.inlineByte j = pg.inlineByte j)
    (hd : ∀ off ∈ locs (l₁ ++ l₂), ∀ i, InBlock off i → img'.data i = img.data i)
    (hsz : img.size ≤ img'.size) (hnew : SlotRep img' pg' (pg'.slot l₁.length) e')
    (hloc : e'.loc = none → e.loc = none ∧
      (pg'.slot l₁.length).fileOff = (pg.slot l₁.length).fileOff ∧
      e'.key.length + e'.val.length ≤ e.key.length + e.val.length) :
    PageRep img' pg' (l₁ ++ e' :: l₂) := by
  have hlen : (l₁ ++ e' :: l₂).length = (l₁ ++ e :: l₂).length := by simp
  refine ⟨by rw [hcount, hlen]; exact h.count, by rw [hlen]; exact h.cap,
    by rw [hused]; exact h.used, fun i x hx ↦ ?_, fun i j x y hij hx hy hlx hly ↦ ?_⟩
  · rcases getElem?_middle hx with ⟨rfl, rfl⟩ | ⟨hi, hmem, hold⟩
    · exact hnew
    · rw [hslots i hi]
      refine (h.slots i x (hold e)).keep (fun _ ↦ by rw [hused]) (fun hl j hj hj' ↦ ?_)
        (fun off hl ↦ hd off (mem_locs hmem hl)) hsz
      refine hinline j fun hle ↦ ?_
      rcases h.apart i l₁.length x e hi (hold e) getElem?_self hl hle with ha | ha <;> omega
  · rcases getElem?_middle hx with ⟨rfl, rfl⟩ | ⟨hi, -, hox⟩ <;>
      rcases getElem?_middle hy with ⟨rfl, rfl⟩ | ⟨hj, -, hoy⟩
    · exact (hij rfl).elim
    · obtain ⟨hle, hoff, hlt⟩ := hloc hlx
      rw [hslots j hj, hoff]
      rcases h.apart _ j e y hij getElem?_self (hoy e) hle hly with ha | ha <;> omega
    · obtain ⟨hle, hoff, hlt⟩ := hloc hly
      rw [hslots i hi, hoff]
      rcases h.apart i _ x e hij (hox e) getElem?_self hlx hle with ha | ha <;> omega
    · rw [hslots i hi, hslots j hj]
      exact h.apart i j x y hij (hox e) (hoy e) hlx hly

end replace

section append

variable {img img' : Image} {pg pg' : PagedPage} {es : List Ent} {e : Ent}

theorem getElem?_concat {i : ℕ} {x : Ent} (h : (es ++ [e])[i]? = some x) :
    i = es.length ∧ x = e ∨ i < es.length ∧ es[i]? = some x := by
  rcases Nat.lt_or_ge i es.length with hlt | hge
  · rw [List.getElem?_append_left hlt] at h
    exact .inr ⟨hlt, h⟩
  · rw [List.getElem?_append_right hge] at h
    obtain ⟨hi, hx⟩ := List.getElem?_eq_some_iff.mp h
    have hz : i - es.length = 0 := by simpa using hi
    simp only [hz, List.getElem_cons_zero] at hx
    exact .inl ⟨by omega, hx.symm⟩

theorem PageRep.append (h : PageRep img pg es) (hcount : pg'.count.toNat = pg.count.toNat + 1)
    (hcap : es.length < slotsPerPage) (hused : pg.inlineUsed.toNat ≤ pg'.inlineUsed.toNat)
    (hused' : pg'.inlineUsed.toNat ≤ inlineSpace)
    (hslots : ∀ j, j ≠ es.length → pg'.slot j = pg.slot j)
    (hinline : ∀ j < pg.inlineUsed.toNat, pg'.inlineByte j = pg.inlineByte j)
    (hd : ∀ off ∈ locs es, ∀ i, InBlock off i → img'.data i = img.data i)
    (hsz : img.size ≤ img'.size) (hnew : SlotRep img' pg' (pg'.slot es.length) e)
    (hloc : e.loc = none → pg.inlineUsed.toNat ≤ (pg'.slot es.length).fileOff.toNat) :
    PageRep img' pg' (es ++ [e]) := by
  have hspan (i : ℕ) (x : Ent) (hx : es[i]? = some x) (hl : x.loc = none) :
      (pg.slot i).fileOff.toNat + x.key.length + x.val.length ≤ pg.inlineUsed.toNat := by
    have hb := (h.slots i x hx).body
    unfold Body at hb
    rw [hl] at hb
    exact hb.2.bound
  refine ⟨by rw [hcount, h.count, List.length_append, List.length_singleton],
    by rw [List.length_append, List.length_singleton]; omega, hused',
    fun i x hx ↦ ?_, fun i j x y hij hx hy hlx hly ↦ ?_⟩
  · rcases getElem?_concat hx with ⟨rfl, rfl⟩ | ⟨hi, hold⟩
    · exact hnew
    · rw [hslots i (by omega)]
      refine (h.slots i x hold).keep (fun _ ↦ hused) (fun hl j hj hj' ↦ hinline j ?_)
        (fun off hl ↦ hd off (mem_locs (List.mem_of_getElem? hold) hl)) hsz
      have := hspan i x hold hl
      omega
  · rcases getElem?_concat hx with ⟨rfl, rfl⟩ | ⟨hi, hox⟩ <;>
      rcases getElem?_concat hy with ⟨rfl, rfl⟩ | ⟨hj, hoy⟩
    · exact (hij rfl).elim
    · rw [hslots j (by omega)]
      have h₁ := hloc hlx
      have h₂ := hspan j y hoy hly
      omega
    · rw [hslots i (by omega)]
      have h₁ := hloc hly
      have h₂ := hspan i x hox hlx
      omega
    · rw [hslots i (by omega), hslots j (by omega)]
      exact h.apart i j x y hij hox hoy hlx hly

end append

section remove

variable {img img' : Image} {pg pg' : PagedPage} {es : List Ent} {k : ℕ}

theorem removeSlot_slot {pg : PagedPage} {k : ℕ} (hk : k < pg.count.toNat)
    (hc : pg.count.toNat ≤ slotsPerPage) (j : ℕ) : (removeSlot pg k).slot j =
      if j = k ∧ k < pg.count.toNat - 1 then pg.slot (pg.count.toNat - 1) else pg.slot j := by
  unfold removeSlot
  dsimp only
  split
  · rename_i hlt
    by_cases hj : j = k
    · subst hj
      rw [if_pos ⟨rfl, hlt⟩]
      exact setSlot_slot pg _ (by omega)
    · rw [if_neg fun h ↦ hj h.1]
      exact setSlot_slot_ne pg _ hj
  · rw [if_neg fun h ↦ by omega]
    rfl

theorem removeSlot_count {pg : PagedPage} {k : ℕ} (hk : k < pg.count.toNat) :
    (removeSlot pg k).count.toNat = pg.count.toNat - 1 := by
  have h1 : (1 : UInt16) ≤ pg.count := UInt16.le_iff_toNat_le.mpr (by change 1 ≤ _; omega)
  have hsub : (pg.count - 1).toNat = pg.count.toNat - 1 := UInt16.toNat_sub_of_le _ _ h1
  unfold removeSlot
  dsimp only
  split <;> exact hsub

theorem PageRep.remove (h : PageRep img pg es) (hk : k < es.length)
    (hd : ∀ off ∈ locs es, ∀ i, InBlock off i → img'.data i = img.data i)
    (hsz : img.size ≤ img'.size) : PageRep img' (removeSlot pg k) (swapRemove es k) := by
  have hcount := h.count
  have hcap := h.cap
  have hkc : k < pg.count.toNat := by omega
  have hslot := removeSlot_slot hkc (by omega)
  have hused : (removeSlot pg k).inlineUsed = pg.inlineUsed := by
    unfold removeSlot
    dsimp only
    split <;> rfl
  have hinline (j : ℕ) : (removeSlot pg k).inlineByte j = pg.inlineByte j := by
    unfold removeSlot
    dsimp only
    split <;> rfl
  -- the position an entry of the shortened page had before
  have hold (i : ℕ) (x : Ent) (hx : (swapRemove es k)[i]? = some x) : ∃ i', es[i']? = some x ∧
      (removeSlot pg k).slot i = pg.slot i' ∧
      (i = k ∧ i' = es.length - 1 ∨ i ≠ k ∧ i' = i ∧ i < es.length - 1) := by
    have hi : i < es.length - 1 := by
      have := (List.getElem?_eq_some_iff.mp hx).1
      rwa [length_swapRemove] at this
    rw [getElem?_swapRemove hk hi] at hx
    by_cases hik : i = k
    · subst hik
      refine ⟨es.length - 1, by simpa using hx, ?_, .inl ⟨rfl, rfl⟩⟩
      rw [hslot, if_pos ⟨rfl, by omega⟩, hcount]
    · rw [if_neg hik] at hx
      refine ⟨i, hx, ?_, .inr ⟨hik, rfl, hi⟩⟩
      rw [hslot, if_neg fun hc ↦ hik hc.1]
  refine ⟨by rw [removeSlot_count hkc, hcount, length_swapRemove],
    by rw [length_swapRemove]; omega, by rw [hused]; exact h.used, fun i x hx ↦ ?_,
    fun i j x y hij hx hy hlx hly ↦ ?_⟩
  · obtain ⟨i', hx', hs, -⟩ := hold i x hx
    rw [hs]
    exact (h.slots i' x hx').keep (fun _ ↦ by rw [hused]) (fun _ j _ _ ↦ hinline j)
      (fun off hl ↦ hd off (mem_locs (List.mem_of_getElem? hx') hl)) hsz
  · obtain ⟨i', hx', hs, hi'⟩ := hold i x hx
    obtain ⟨j', hy', hs', hj'⟩ := hold j y hy
    rw [hs, hs']
    exact h.apart i' j' x y (by omega) hx' hy' hlx hly

end remove

end Xxfs.IndexRep

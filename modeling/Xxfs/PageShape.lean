import Xxfs.IndexAlloc
import Xxfs.Lib.Packing

namespace Xxfs.PageShape

open Xxfs.DiskFormat Xxfs.PagedIndex Xxfs.IndexRep Xxfs.IndexAlloc Xxfs.Lib.Packing

def IsInline (s : PagedSlot) : Prop := s.flags &&& slotFInline ≠ 0

instance (s : PagedSlot) : Decidable (IsInline s) := inferInstanceAs (Decidable (_ ≠ _))

def slotLen (s : PagedSlot) : ℕ := s.klen.toNat + s.vlen.toNat

/-- The live slots whose bytes are in the inline area. -/
def inlineSlots (pg : PagedPage) : Finset ℕ :=
  {i ∈ Finset.range pg.count.toNat | IsInline (pg.slot i)}

def starts (pg : PagedPage) (i : ℕ) : ℕ := (pg.slot i).fileOff.toNat

def lengths (pg : PagedPage) (i : ℕ) : ℕ := slotLen (pg.slot i)

/-- The slots fit into their array and the inline bytes into theirs, where no two slots share
one. -/
structure WellFormed (pg : PagedPage) : Prop where
  count : pg.count.toNat ≤ slotsPerPage
  used : pg.inlineUsed.toNat ≤ inlineSpace
  packed : Packed (inlineSlots pg) (starts pg) (lengths pg) pg.inlineUsed.toNat

/-- A slot with its bytes outside the page has them in a record. -/
def Housed (records : UInt64 → Prop) (s : PagedSlot) : Prop := ¬IsInline s → records s.fileOff

/-- A well-formed page that refers to records and to other pages only. -/
structure SoundPage (pages records : UInt64 → Prop) (pg : PagedPage) : Prop extends
    WellFormed pg where
  housed : ∀ i < pg.count.toNat, Housed records (pg.slot i)
  next : pg.overflowNext = 0 ∨ pages pg.overflowNext

variable {pages records pages' records' : UInt64 → Prop} {pg pg' : PagedPage}

theorem mem_inlineSlots {i : ℕ} :
    i ∈ inlineSlots pg ↔ i < pg.count.toNat ∧ IsInline (pg.slot i) := by
  rw [inlineSlots, Finset.mem_filter, Finset.mem_range]

theorem Housed.mono {s : PagedSlot} (h : Housed records s) (hr : ∀ o, records o → records' o) :
    Housed records' s :=
  fun hs ↦ hr _ (h hs)

theorem SoundPage.mono (h : SoundPage pages records pg) (hp : ∀ o, pages o → pages' o)
    (hr : ∀ o, records o → records' o) : SoundPage pages' records' pg :=
  ⟨h.toWellFormed, fun i hi ↦ (h.housed i hi).mono hr, h.next.imp id (hp _)⟩

section pages

theorem WellFormed.slot_le (h : WellFormed pg) {i : ℕ} (hi : i < pg.count.toNat)
    (hs : IsInline (pg.slot i)) :
    (pg.slot i).fileOff.toNat + slotLen (pg.slot i) ≤ pg.inlineUsed.toNat :=
  h.packed.below i (mem_inlineSlots.mpr ⟨hi, hs⟩)

theorem soundPage_none (hc : pg.count = 0) (hu : pg.inlineUsed = 0) (hn : pg.overflowNext = 0) :
    SoundPage pages records pg := by
  have hcount : pg.count.toNat = 0 := by rw [hc]; rfl
  have hlive : inlineSlots pg = ∅ := by
    rw [inlineSlots, hcount, Finset.range_zero, Finset.filter_empty]
  refine ⟨⟨?_, ?_, ?_⟩, fun i hi ↦ ?_, .inl hn⟩
  · omega
  · rw [hu]
    exact Nat.zero_le _
  · rw [hlive]
    exact packed_empty _ _ _
  · rw [hcount] at hi
    exact absurd hi (Nat.not_lt_zero i)

theorem SoundPage.link (h : SoundPage pages records pg) {off : UInt64} (ho : pages off) :
    SoundPage pages records { pg with overflowNext := off } :=
  ⟨⟨h.count, h.used, h.packed⟩, h.housed, .inr ho⟩

theorem SoundPage.copied (h : SoundPage pages records pg) (area : Fin 1392 → UInt8) :
    SoundPage pages records { pg with inlineArea := area } :=
  ⟨⟨h.count, h.used, h.packed⟩, h.housed, h.next⟩

/-- A page whose live slots were those of another one, each moved at most to a record of its own
or cut short in its place. -/
theorem SoundPage.cut (h : SoundPage pages records pg) (f : ℕ → ℕ)
    (hcount : pg'.count.toNat ≤ pg.count.toNat) (hused : pg'.inlineUsed = pg.inlineUsed)
    (hnext : pg'.overflowNext = pg.overflowNext)
    (hmem : ∀ i < pg'.count.toNat, f i < pg.count.toNat)
    (hf : Set.InjOn f (inlineSlots pg'))
    (hin : ∀ i < pg'.count.toNat, IsInline (pg'.slot i) → IsInline (pg.slot (f i)) ∧
      (pg'.slot i).fileOff = (pg.slot (f i)).fileOff ∧
      slotLen (pg'.slot i) ≤ slotLen (pg.slot (f i)))
    (hout : ∀ i < pg'.count.toNat, Housed records (pg'.slot i)) :
    SoundPage pages records pg' := by
  refine ⟨⟨hcount.trans h.count, hused ▸ h.used, ?_⟩, hout, hnext ▸ h.next⟩
  rw [hused]
  refine h.packed.cut f (fun i hi ↦ ?_) hf (fun i hi ↦ ?_) fun i hi ↦ ?_ <;>
    obtain ⟨hlt, hs⟩ := mem_inlineSlots.mp hi <;>
    obtain ⟨hs', hoff, hlen⟩ := hin i hlt hs
  · exact mem_inlineSlots.mpr ⟨hmem i hlt, hs'⟩
  · exact congrArg UInt64.toNat hoff
  · exact hlen

theorem SoundPage.same (h : SoundPage pages records pg) (hcount : pg'.count = pg.count)
    (hused : pg'.inlineUsed = pg.inlineUsed) (hnext : pg'.overflowNext = pg.overflowNext)
    (hslot : ∀ i < pg.count.toNat, pg'.slot i = pg.slot i) : SoundPage pages records pg' := by
  rw [← hcount] at hslot
  refine h.cut id (by rw [hcount]) hused hnext (fun i hi ↦ hcount ▸ hi) (fun _ _ _ _ ↦ id)
    (fun i hi hs ↦ ?_) fun i hi ↦ ?_
  · rw [hslot i hi] at hs ⊢
    exact ⟨hs, rfl, le_rfl⟩
  · rw [hslot i hi]
    exact h.housed i (hcount ▸ hi)

theorem SoundPage.set (h : SoundPage pages records pg) {i : ℕ} (hi : i < pg.count.toNat)
    {s : PagedSlot} (hin : IsInline s → IsInline (pg.slot i) ∧ s.fileOff = (pg.slot i).fileOff ∧
      slotLen s ≤ slotLen (pg.slot i))
    (hout : Housed records s) : SoundPage pages records (pg.setSlot i s) := by
  have hroom : i < slotsPerPage := hi.trans_le h.count
  refine h.cut id le_rfl rfl rfl (fun j hj ↦ hj) (fun _ _ _ _ ↦ id) (fun j hj ↦ ?_) fun j hj ↦ ?_
    <;> by_cases hji : j = i
  · rw [hji, setSlot_slot pg s hroom]
    exact hin
  · rw [setSlot_slot_ne pg s hji]
    exact fun hs ↦ ⟨hs, rfl, le_rfl⟩
  · rw [hji, setSlot_slot pg s hroom]
    exact hout
  · rw [setSlot_slot_ne pg s hji]
    exact h.housed j hj

theorem SoundPage.remove (h : SoundPage pages records pg) {k : ℕ} (hk : k < pg.count.toNat) :
    SoundPage pages records (removeSlot pg k) := by
  have hslot := removeSlot_slot hk h.count
  have hcount := removeSlot_count hk
  have hold (j : ℕ) : (removeSlot pg k).slot j = pg.slot (if j = k then pg.count.toNat - 1 else j) ∨
      pg.count.toNat - 1 ≤ j := by
    rw [hslot j]
    by_cases hj : j = k
    · by_cases hlast : k < pg.count.toNat - 1
      · rw [if_pos ⟨hj, hlast⟩, if_pos hj]
        exact .inl rfl
      · exact .inr (by omega)
    · rw [if_neg fun hc ↦ hj hc.1, if_neg hj]
      exact .inl rfl
  have hmoved (j : ℕ) (hj : j < (removeSlot pg k).count.toNat) :
      (removeSlot pg k).slot j = pg.slot (if j = k then pg.count.toNat - 1 else j) :=
    (hold j).resolve_right (by omega)
  have hlt (j : ℕ) (hj : j < (removeSlot pg k).count.toNat) :
      (if j = k then pg.count.toNat - 1 else j) < pg.count.toNat := by
    split <;> omega
  refine h.cut (fun j ↦ if j = k then pg.count.toNat - 1 else j) (by omega) ?_ ?_ hlt
    (fun i hi j hj heq ↦ ?_) (fun j hj ↦ ?_) fun j hj ↦ ?_
  · unfold removeSlot
    dsimp only
    split <;> rfl
  · unfold removeSlot
    dsimp only
    split <;> rfl
  · have hi := (mem_inlineSlots.mp hi).1
    have hj := (mem_inlineSlots.mp hj).1
    dsimp only at heq
    split at heq <;> split at heq <;> omega
  · rw [hmoved j hj]
    exact fun hs ↦ ⟨hs, rfl, le_rfl⟩
  · rw [hmoved j hj]
    exact h.housed _ (hlt j hj)

/-- A page that takes one more slot, its bytes behind all others or in a record. -/
theorem SoundPage.append (h : SoundPage pages records pg) (hroom : pg.count.toNat < slotsPerPage)
    (hcount : pg'.count = pg.count + 1) (hnext : pg'.overflowNext = pg.overflowNext)
    (hold : ∀ i < pg.count.toNat, pg'.slot i = pg.slot i)
    (hnew : IsInline (pg'.slot pg.count.toNat) ∧
        (pg'.slot pg.count.toNat).fileOff.toNat = pg.inlineUsed.toNat ∧
        pg'.inlineUsed.toNat = pg.inlineUsed.toNat + slotLen (pg'.slot pg.count.toNat) ∧
        pg'.inlineUsed.toNat ≤ inlineSpace ∨
      ¬IsInline (pg'.slot pg.count.toNat) ∧ Housed records (pg'.slot pg.count.toNat) ∧
        pg'.inlineUsed = pg.inlineUsed) :
    SoundPage pages records pg' := by
  have hsucc : pg'.count.toNat = pg.count.toNat + 1 := by
    rw [hcount, UInt16.toNat_add]
    exact Nat.mod_eq_of_lt (by change pg.count.toNat + 1 < _; rw [slotsPerPage] at hroom; omega)
  -- the packing of the old slots is one of the new page as well
  have hpacked : Packed (inlineSlots pg) (starts pg') (lengths pg') pg.inlineUsed.toNat := by
    refine h.packed.cut id (fun i hi ↦ hi) (fun _ _ _ _ ↦ id) (fun i hi ↦ ?_) fun i hi ↦ ?_ <;>
      have hi := hold i (mem_inlineSlots.mp hi).1
    · rw [starts, hi]
      rfl
    · rw [lengths, hi]
      rfl
  have hmem (i : ℕ) (hi : i ∈ inlineSlots pg') (hne : i ≠ pg.count.toNat) :
      i ∈ inlineSlots pg := by
    obtain ⟨hlt, hs⟩ := mem_inlineSlots.mp hi
    have hlt' : i < pg.count.toNat := by omega
    rw [hold i hlt'] at hs
    exact mem_inlineSlots.mpr ⟨hlt', hs⟩
  have hhoused (hlast : Housed records (pg'.slot pg.count.toNat)) (i : ℕ)
      (hi : i < pg'.count.toNat) : Housed records (pg'.slot i) := by
    by_cases hic : i = pg.count.toNat
    · rw [hic]
      exact hlast
    · rw [hold i (by omega)]
      exact h.housed i (by omega)
  have hle : pg'.count.toNat ≤ slotsPerPage := by omega
  rcases hnew with ⟨hs, hoff, hused, hspace⟩ | ⟨hs, hlast, hused⟩
  · refine ⟨⟨hle, hspace, ?_⟩, hhoused fun hns ↦ absurd hs hns, hnext ▸ h.next⟩
    rw [hused]
    refine (hpacked.append (a := pg.count.toNat) hoff).cut id (fun i hi ↦ ?_)
      (fun _ _ _ _ ↦ id) (fun _ _ ↦ rfl) fun _ _ ↦ le_rfl
    by_cases hic : i = pg.count.toNat
    · exact Finset.mem_insert.mpr (.inl hic)
    · exact Finset.mem_insert_of_mem (hmem i hi hic)
  · refine ⟨⟨hle, hused ▸ h.used, ?_⟩, hhoused hlast, hnext ▸ h.next⟩
    rw [hused]
    refine hpacked.cut id (fun i hi ↦ hmem i hi fun hic ↦ ?_) (fun _ _ _ _ ↦ id) (fun _ _ ↦ rfl)
      fun _ _ ↦ le_rfl
    exact hs (hic ▸ (mem_inlineSlots.mp hi).2)

end pages

section split

/-- The bytes of the inline slots among the first `i`. -/
def inlineBytes (pg : PagedPage) (i : ℕ) : ℕ :=
  ∑ j ∈ inlineSlots pg with j < i, lengths pg j

/-- The two pages of a split after `i` slots of the old page: both are in order, and together
they hold as much as these slots. -/
structure Dealt (pages records : UInt64 → Prop) (old : PagedPage) (i : ℕ)
    (pgs : PagedPage × PagedPage) : Prop where
  fst : SoundPage pages records pgs.1
  snd : SoundPage pages records pgs.2
  count : pgs.1.count.toNat + pgs.2.count.toNat = i
  used : pgs.1.inlineUsed.toNat + pgs.2.inlineUsed.toNat = inlineBytes old i

/-- The page `t` with slot `i` of the old page moved to it. -/
def moved (old : PagedPage) (i : ℕ) (t : PagedPage) : PagedPage :=
  let s := old.slot i
  if IsInline s then
    { t.setSlot t.count.toNat { s with fileOff := t.inlineUsed.toUInt64 } with
      count := t.count + 1
      inlineUsed := t.inlineUsed + (s.klen + s.vlen)
      inlineArea := arrCopy t.inlineArea t.inlineUsed.toNat (s.klen + s.vlen).toNat
        fun j ↦ old.inlineByte (s.fileOff.toNat + j) }
  else { t.setSlot t.count.toNat s with count := t.count + 1 }

theorem redistribute_moved (depth : UInt8) (bit : ℕ) (old : PagedPage)
    (pgs : PagedPage × PagedPage) (i : ℕ) : redistribute depth bit old pgs i =
      if dirIndex (old.slot i).hash depth &&& bit ≠ 0 then (pgs.1, moved old i pgs.2)
      else (moved old i pgs.1, pgs.2) := rfl

variable {old t : PagedPage} {pgs : PagedPage × PagedPage} {i : ℕ}

theorem inlineBytes_zero : inlineBytes old 0 = 0 := by
  simp [inlineBytes]

theorem inlineBytes_succ (hi : i < old.count.toNat) : inlineBytes old (i + 1) =
    inlineBytes old i + if IsInline (old.slot i) then slotLen (old.slot i) else 0 := by
  have hsplit (j : ℕ) : j < i + 1 ↔ j = i ∨ j < i := by omega
  simp only [inlineBytes, hsplit]
  by_cases hs : IsInline (old.slot i)
  · have hcons : {j ∈ inlineSlots old | j = i ∨ j < i} =
        insert i {j ∈ inlineSlots old | j < i} := by
      ext j
      rw [Finset.mem_filter, Finset.mem_insert, Finset.mem_filter]
      constructor
      · rintro ⟨hj, rfl | hlt⟩
        · exact .inl rfl
        · exact .inr ⟨hj, hlt⟩
      · rintro (rfl | ⟨hj, hlt⟩)
        · exact ⟨mem_inlineSlots.mpr ⟨hi, hs⟩, .inl rfl⟩
        · exact ⟨hj, .inr hlt⟩
    rw [hcons, Finset.sum_insert (by simp), if_pos hs, Nat.add_comm, lengths]
  · have hsame : {j ∈ inlineSlots old | j = i ∨ j < i} = {j ∈ inlineSlots old | j < i} := by
      refine Finset.filter_congr fun j hj ↦ ⟨fun h ↦ h.resolve_left ?_, .inr⟩
      rintro rfl
      exact hs (mem_inlineSlots.mp hj).2
    rw [hsame, if_neg hs, Nat.add_zero]

/-- However deletions and updates left the inline area, its live bytes fit into a new one. -/
theorem WellFormed.inlineBytes_le (h : WellFormed old) (i : ℕ) :
    inlineBytes old i ≤ inlineSpace :=
  calc inlineBytes old i ≤ ∑ j ∈ inlineSlots old, lengths old j :=
        Finset.sum_le_sum_of_subset (Finset.filter_subset _ _)
    _ ≤ old.inlineUsed.toNat := h.packed.sum_le
    _ ≤ inlineSpace := h.used

theorem dealt_start {kept : PagedPage} (hc : kept.count = 0) (hu : kept.inlineUsed = 0)
    (hn : kept.overflowNext = 0) (depth : UInt16) :
    Dealt pages records old 0 (kept, emptyPage depth) := by
  refine ⟨soundPage_none hc hu hn, soundPage_none rfl rfl rfl, ?_, ?_⟩
  · dsimp only
    rw [hc]
    rfl
  · dsimp only
    rw [hu, inlineBytes_zero]
    rfl

theorem Dealt.room (h : Dealt pages records old i pgs) (hold : WellFormed old)
    (hi : i < old.count.toNat) :
    (pgs.1.count.toNat < slotsPerPage ∧ pgs.2.count.toNat < slotsPerPage) ∧
    (IsInline (old.slot i) → pgs.1.inlineUsed.toNat + slotLen (old.slot i) ≤ inlineSpace ∧
      pgs.2.inlineUsed.toNat + slotLen (old.slot i) ≤ inlineSpace) := by
  have hcount := h.count
  have hcap := hold.count
  refine ⟨⟨by omega, by omega⟩, fun hs ↦ ?_⟩
  have hused := h.used
  have hnext := inlineBytes_succ hi
  rw [if_pos hs] at hnext
  have hle := hold.inlineBytes_le (i + 1)
  exact ⟨by omega, by omega⟩

theorem WellFormed.need_toNat (h : WellFormed old) (hi : i < old.count.toNat)
    (hs : IsInline (old.slot i)) :
    ((old.slot i).klen + (old.slot i).vlen).toNat = slotLen (old.slot i) := by
  have hle := h.slot_le hi hs
  have hused := h.used
  rw [inlineSpace] at hused
  rw [slotLen] at hle ⊢
  rw [UInt32.toNat_add]
  exact Nat.mod_eq_of_lt (by omega)

theorem SoundPage.moved (h : SoundPage pages records t) (hold : SoundPage pages records old)
    (hi : i < old.count.toNat) (hroom : t.count.toNat < slotsPerPage)
    (hspace : IsInline (old.slot i) → t.inlineUsed.toNat + slotLen (old.slot i) ≤ inlineSpace) :
    SoundPage pages records (moved old i t) ∧
    (PageShape.moved old i t).count.toNat = t.count.toNat + 1 ∧
    (PageShape.moved old i t).inlineUsed.toNat =
      t.inlineUsed.toNat + if IsInline (old.slot i) then slotLen (old.slot i) else 0 := by
  have hsucc : (t.count + 1).toNat = t.count.toNat + 1 := by
    rw [UInt16.toNat_add]
    exact Nat.mod_eq_of_lt (by change t.count.toNat + 1 < _; rw [slotsPerPage] at hroom; omega)
  by_cases hs : IsInline (old.slot i)
  · have hneed := hold.need_toNat hi hs
    have hle := hspace hs
    have hused : (t.inlineUsed + ((old.slot i).klen + (old.slot i).vlen)).toNat =
        t.inlineUsed.toNat + slotLen (old.slot i) := by
      rw [UInt32.toNat_add, hneed]
      rw [inlineSpace] at hle
      exact Nat.mod_eq_of_lt (by omega)
    rw [PageShape.moved, if_pos hs, if_pos hs]
    refine ⟨h.append hroom rfl rfl (fun j hj ↦ setSlot_slot_ne t _ hj.ne) (.inl ?_), hsucc, hused⟩
    have hlast := setSlot_slot t { old.slot i with fileOff := t.inlineUsed.toUInt64 } hroom
    change IsInline ((t.setSlot _ _).slot _) ∧ ((t.setSlot _ _).slot _).fileOff.toNat = _ ∧
      (t.inlineUsed + _).toNat = _ + slotLen ((t.setSlot _ _).slot _) ∧ (t.inlineUsed + _).toNat ≤ _
    rw [hlast, hused]
    exact ⟨hs, UInt32.toNat_toUInt64 _, rfl, hle⟩
  · rw [PageShape.moved, if_neg hs, if_neg hs]
    refine ⟨h.append hroom rfl rfl (fun j hj ↦ setSlot_slot_ne t _ hj.ne) (.inr ?_), hsucc, rfl⟩
    have hlast := setSlot_slot t (old.slot i) hroom
    change ¬IsInline ((t.setSlot _ _).slot _) ∧ Housed records ((t.setSlot _ _).slot _) ∧ _
    rw [hlast]
    exact ⟨hs, hold.housed i hi, rfl⟩

theorem Dealt.step (h : Dealt pages records old i pgs) (hold : SoundPage pages records old)
    (hi : i < old.count.toNat) (depth : UInt8) (bit : ℕ) :
    Dealt pages records old (i + 1) (redistribute depth bit old pgs i) := by
  obtain ⟨⟨hroom₁, hroom₂⟩, hspace⟩ := h.room hold.toWellFormed hi
  have hcount := h.count
  have hused := h.used
  have hnext := inlineBytes_succ hi
  rw [redistribute_moved]
  split
  · obtain ⟨hs, hc, hu⟩ := h.snd.moved hold hi hroom₂ fun hin ↦ (hspace hin).2
    exact ⟨h.fst, hs, by dsimp only; omega, by dsimp only; omega⟩
  · obtain ⟨hs, hc, hu⟩ := h.fst.moved hold hi hroom₁ fun hin ↦ (hspace hin).1
    exact ⟨hs, h.snd, by dsimp only; omega, by dsimp only; omega⟩

end split

end Xxfs.PageShape

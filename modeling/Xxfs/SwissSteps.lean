import Xxfs.SwissMap

namespace Xxfs.SwissTable

open Xxfs.DiskFormat Xxfs.Machine Xxfs.Lib.GroupTable

variable {hash : List UInt8 → UInt64}

/-- What an insertion of the entry `w` under `k` does to the table. -/
structure Inserted (hash : List UInt8 → UInt64) (k : List UInt8) (w : Entry) (t t' : DpTable) :
    Prop where
  valid : Valid hash t'
  has : ∀ s, Has t'.cells s ↔ s = slotOf hash k w ∨ s.key ≠ some k ∧ Has t.cells s
  used : t'.count + t'.tombstones ≤ t.count + t.tombstones + 1
  cap : t'.cap = t.cap
  old : t'.old = t.old

namespace Valid

variable {t : DpTable} (h : Valid hash t)
include h

theorem insert_eq (k : List UInt8) (w : Entry) :
    insertLoop t (slotOf hash k w) (t.cap / groupSize) (t.cap / groupSize)
        (groupIdx (slotOf hash k w).hash t.mask) none =
      spot groupSize (t.cap / groupSize) t.cells (fun s ↦ decide (s.key = some k))
        (t.cap / groupSize) (groupIdx (hash k) t.mask) none := by
  obtain ⟨e, he⟩ := h.groups
  rw [he, insertLoop_eq h.tagged]
  rfl

theorem not_found {k : List UInt8}
    (hs : ∀ j, spot groupSize (t.cap / groupSize) t.cells (fun s ↦ decide (s.key = some k))
      (t.cap / groupSize) (groupIdx (hash k) t.mask) none ≠ .found j) (j : ℕ) (s : DpSlot)
    (hj : t.cells j = .full s) : s.key ≠ some k := by
  intro hk
  obtain ⟨w, rfl⟩ := h.cell_eq hj hk
  have ha : Ahead groupSize (t.cap / groupSize) t.cells (t.cap / groupSize)
      (groupIdx (hash k) t.mask) j := h.probed.ahead j (slotOf hash k w) hj
  have hno := spot_not_found (show 0 < groupSize by decide) hs ha
  have hyes : (t.cells j).holds (fun s ↦ decide (s.key = some k)) = true := by
    rw [hj]
    exact decide_eq_true rfl
  rw [hno] at hyes
  cases hyes

theorem inserted_add {k : List UInt8} {i : ℕ} (w : Entry)
    (hc : t.cells i = .empty ∨ t.cells i = .tomb)
    (ha : Ahead groupSize (t.cap / groupSize) t.cells (t.cap / groupSize)
      (groupIdx (hash k) t.mask) i)
    (hno : ∀ j s, t.cells j = .full s → s.key ≠ some k) :
    Inserted hash k w t { t with
      ctrl := Function.update t.ctrl i (ctrlTag (hash k))
      slots := Function.update t.slots i (slotOf hash k w)
      count := t.count + 1
      tombstones := if t.ctrl i = ctrlDeleted then t.tombstones - 1 else t.tombstones } := by
  refine ⟨h.add w hc ha hno, fun s ↦ ?_, ?_, rfl, rfl⟩
  · rw [DpTable.cells, cellAt_store]
    refine has_store (fun j b hj hk ↦ (hno j b hj hk).elim) fun b hb ↦ ?_
    rcases hc with hc | hc
    · cases hc.symm.trans hb
    · cases hc.symm.trans hb
  · dsimp only
    split <;> omega

theorem insert_apply (hfree : t.count + t.tombstones < t.cap) (k : List UInt8) (w : Entry) :
    ∃ rc t', tableInsert t (slotOf hash k w) = (rc, t') ∧ 0 ≤ rc ∧ Inserted hash k w t t' := by
  rw [tableInsert, h.insert_eq]
  cases hs : spot groupSize (t.cap / groupSize) t.cells (fun s ↦ decide (s.key = some k))
      (t.cap / groupSize) (groupIdx (hash k) t.mask) none with
  | found i =>
    obtain ⟨a, ha, hk⟩ := of_spot_found hs
    obtain ⟨w₀, rfl⟩ := h.cell_eq ha (of_decide_eq_true hk)
    obtain ⟨he, hd, hslot⟩ := cellAt_full ha
    have hnew : { t.slots i with
        val := (slotOf hash k w).val
        vlen := (slotOf hash k w).vlen
        fileOff := (slotOf hash k w).fileOff } = slotOf hash k w := by
      rw [hslot]
      rfl
    refine ⟨_, _, rfl, by decide, ?_⟩
    rw [hnew]
    refine ⟨h.replace w ha, fun s ↦ ?_, Nat.le_succ _, rfl, rfl⟩
    rw [DpTable.cells, cellAt_replace he hd]
    exact has_store (fun j b hj hk ↦ h.probed.uniq j i b _ hj ha hk)
      fun b hb ↦ by rw [← Cell.full.inj (ha.symm.trans hb)]; rfl
  | vacant i =>
    have hno := h.not_found (k := k) fun j hj ↦ by rw [hs] at hj; cases hj
    rcases of_spot_vacant hs with hd | ⟨hc, ha⟩
    · cases hd
    · exact ⟨_, _, rfl, le_rfl, h.inserted_add w hc ha hno⟩
  | reused i =>
    have hno := h.not_found (k := k) fun j hj ↦ by rw [hs] at hj; cases hj
    rcases of_spot_reused hs with hd | ⟨hc, ha⟩
    · cases hd
    · have hadd := h.inserted_add w (.inr hc) ha hno
      rw [if_pos (cellAt_tomb.mp hc)] at hadd
      exact ⟨_, _, rfl, le_rfl, hadd⟩
  | none =>
    rw [h.count, h.tombs] at hfree
    obtain ⟨i, hi, he⟩ := exists_empty hfree
    have hgroup : i / groupSize < t.cap / groupSize := by
      rw [Nat.div_lt_iff_lt_mul (by decide), h.cap_eq]
      exact hi
    exact (spot_ne_none (by decide) (h.groupIdx_lt _) hgroup he hs).elim

/-- `table_del` leaves a tombstone in the place of the entry. -/
theorem del_apply (k : List UInt8) : ∃ rc t', tableDel t (hash k) (some k) k.length = (rc, t') ∧
    Valid hash t' ∧ (∀ s, Has t'.cells s ↔ s.key ≠ some k ∧ Has t.cells s) ∧ t'.cap = t.cap ∧
    t'.old = t.old := by
  rw [tableDel]
  cases hf : tableFind t (hash k) (some k) k.length with
  | none =>
    refine ⟨_, _, rfl, h, fun s ↦ ?_, rfl, rfl⟩
    refine ⟨fun hs ↦ ⟨fun hk ↦ ?_, hs⟩, fun hs ↦ hs.2⟩
    obtain ⟨i, hi⟩ := hs
    obtain ⟨w, rfl⟩ := h.cell_eq hi hk
    exact h.of_find_none hf w ⟨i, hi⟩
  | some i =>
    obtain ⟨hi, w, hc⟩ := h.of_find hf
    have hcells := cellAt_bury t.ctrl t.slots i .zero
    have hfull := census_update Cell.isFull t.cells hi .tomb
    have htomb := census_update Cell.isTomb t.cells hi .tomb
    rw [hc] at hfull htomb
    change _ + 1 = _ + 0 at hfull
    change _ + 0 = _ + 1 at htomb
    refine ⟨_, _, rfl, ⟨h.pow, h.mask, h.growAt, fun j s hj ↦ ?_, ?_, ?_, ?_⟩, fun s ↦ ?_, rfl,
      rfl⟩
    · dsimp only at hj ⊢
      rw [hcells] at hj
      rcases of_update hj with ⟨-, hs⟩ | ⟨hji, hj⟩
      · cases hs
      · rw [Function.update_of_ne hji]
        exact h.tagged j s hj
    · rw [DpTable.cells, hcells]
      exact h.probed.bury i
    · rw [DpTable.cells, hcells, h.count, ← DpTable.cells]
      dsimp only
      omega
    · rw [DpTable.cells, hcells, h.tombs, ← DpTable.cells]
      dsimp only
      omega
    · rw [DpTable.cells, hcells]
      exact has_bury h.probed hc

theorem withOld (o : Option OldTable) : Valid hash { t with old := o } :=
  ⟨h.pow, h.mask, h.growAt, h.tagged, h.probed, h.count, h.tombs⟩

end Valid

section grow

variable {t₀ : DpTable} (h₀ : Valid hash t₀)
include h₀

/-- The table during a growth, when the first `j` cells of the old one have been migrated. -/
structure Migrating (hash : List UInt8 → UInt64) (t₀ : DpTable) (j : ℕ) (t : DpTable) : Prop where
  valid : Valid hash t
  cap : t.cap = t₀.cap * 2
  old : t.old = some ⟨t₀.ctrl, t₀.slots, t₀.cap, j⟩
  used : t.count + t.tombstones ≤ j
  has : ∀ s, Has t.cells s ↔ ∃ i < j, t₀.cells i = .full s

theorem Migrating.step {j : ℕ} (hj : j < t₀.cap) {t : DpTable} (h : Migrating hash t₀ j t) :
    ∃ t', Migrating hash t₀ (j + 1) t' ∧ ∀ n, migrateLoop (n + 1) t = migrateLoop n t' := by
  set t₁ : DpTable := { t with old := some ⟨t₀.ctrl, t₀.slots, t₀.cap, j + 1⟩ } with ht₁
  have hv : Valid hash t₁ := h.valid.withOld _
  have hloop (n : ℕ) : migrateLoop (n + 1) t =
      if t₀.ctrl j ≠ ctrlEmpty ∧ t₀.ctrl j ≠ ctrlDeleted then
        migrateLoop n (tableInsert t₁ (t₀.slots j)).2
      else migrateLoop n t₁ := by
    rw [migrateLoop, h.old]
    dsimp only
    rw [if_pos hj]
  by_cases hc : t₀.ctrl j ≠ ctrlEmpty ∧ t₀.ctrl j ≠ ctrlDeleted
  · have hcell : t₀.cells j = .full (t₀.slots j) := by
      rw [DpTable.cells, cellAt, if_neg hc.1, if_neg hc.2]
    obtain ⟨-, k, w, hkw⟩ := h₀.tagged j _ hcell
    have hfree : t₁.count + t₁.tombstones < t₁.cap := by
      have := h.used
      have := h.cap
      change t.count + t.tombstones < t.cap
      omega
    obtain ⟨rc, t', hins, -, hI⟩ := hv.insert_apply hfree k w
    refine ⟨t', ⟨hI.valid, hI.cap.trans h.cap, hI.old, hI.used.trans (Nat.succ_le_succ h.used),
      fun s ↦ ?_⟩, fun n ↦ ?_⟩
    · rw [hI.has]
      constructor
      · rintro (rfl | ⟨-, hs⟩)
        · exact ⟨j, Nat.lt_succ_self j, by rw [hcell, hkw]⟩
        · obtain ⟨i, hi, hs⟩ := (h.has s).mp hs
          exact ⟨i, Nat.lt_succ_of_lt hi, hs⟩
      · rintro ⟨i, hi, hs⟩
        rcases Nat.lt_succ_iff_lt_or_eq.mp hi with hi | rfl
        · refine .inr ⟨fun hk ↦ ?_, (h.has s).mpr ⟨i, hi, hs⟩⟩
          have := h₀.probed.uniq i j s _ hs hcell (by rw [hkw]; exact hk)
          omega
        · exact .inl (by rw [← hkw]; exact (Cell.full.inj (hcell.symm.trans hs)).symm)
    · rw [hloop, if_pos hc, hkw, hins]
  · refine ⟨t₁, ⟨hv, h.cap, rfl, h.used.trans (Nat.le_succ j), fun s ↦ ?_⟩, fun n ↦ ?_⟩
    · change Has t.cells s ↔ _
      rw [h.has]
      constructor
      · rintro ⟨i, hi, hs⟩
        exact ⟨i, Nat.lt_succ_of_lt hi, hs⟩
      · rintro ⟨i, hi, hs⟩
        rcases Nat.lt_succ_iff_lt_or_eq.mp hi with hi | rfl
        · exact ⟨i, hi, hs⟩
        · obtain ⟨he, hd, -⟩ := cellAt_full hs
          exact (hc ⟨he, hd⟩).elim
    · rw [hloop, if_neg hc]

theorem Migrating.loop (n : ℕ) {j : ℕ} (hn : j + n = t₀.cap) {t : DpTable}
    (h : Migrating hash t₀ j t) : Migrating hash t₀ t₀.cap (migrateLoop n t) := by
  induction n generalizing j t with
  | zero =>
    obtain rfl : j = t₀.cap := hn
    exact h
  | succ n ih =>
    obtain ⟨t', h', hloop⟩ := h.step h₀ (by omega)
    rw [hloop]
    exact ih (by omega) h'

theorem grow_apply (hold : t₀.old = none) (hcap : t₀.cap < 2 ^ 32) : ∃ t',
    tableGrow true t₀ = some t' ∧ Valid hash t' ∧ t'.old = none ∧ t'.cap = t₀.cap * 2 ∧
    t'.count + t'.tombstones ≤ t₀.cap ∧ ∀ s, Has t'.cells s ↔ Has t₀.cells s := by
  obtain ⟨e, he⟩ := h₀.pow
  have hpos : 16 ≤ t₀.cap := by
    have := Nat.two_pow_pos e
    have hgs : groupSize = 16 := rfl
    rw [he, hgs]
    omega
  set t₁ : DpTable := ⟨fun _ ↦ ctrlEmpty, fun _ ↦ .zero, t₀.cap * 2, t₀.cap * 2 - 1, 0, 0,
    t₀.cap * 2 * maxLoadNum / groupSize, some ⟨t₀.ctrl, t₀.slots, t₀.cap, 0⟩⟩ with ht₁
  have hcells : t₁.cells = fun _ ↦ .empty := funext fun i ↦ cellAt_empty.mpr rfl
  have hv : Valid hash t₁ := by
    refine ⟨⟨e + 1, ?_⟩, rfl, rfl, fun i s hi ↦ ?_, ?_, ?_, ?_⟩
    · change t₀.cap * 2 = _
      rw [he, Nat.pow_succ]
      ring
    · exact ((cellAt_full hi).1 rfl).elim
    · rw [hcells]
      exact probed_empty
    · rw [hcells]
      simp [census, Cell.isFull, ht₁]
    · rw [hcells]
      simp [census, Cell.isTomb, ht₁]
  have hstart : Migrating hash t₀ 0 t₁ := by
    refine ⟨hv, rfl, rfl, le_rfl, fun s ↦ ?_⟩
    rw [hcells]
    simp [Has]
  have hend := hstart.loop h₀ t₀.cap (Nat.zero_add _)
  have hgrow : tableGrow true t₀ = some { migrateLoop t₀.cap t₁ with old := none } := by
    rw [tableGrow, hold]
    dsimp only
    rw [tableGrow.grow, tableAlloc, if_pos rfl, if_neg (by omega), Nat.mod_eq_of_lt hcap]
    change some (tableMigrateBatch t₁ t₀.cap) = _
    rw [tableMigrateBatch, hend.old]
    dsimp only
    rw [if_pos le_rfl]
  refine ⟨_, hgrow, hend.valid.withOld none, rfl, hend.cap, hend.used, fun s ↦ ?_⟩
  change Has (migrateLoop t₀.cap t₁).cells s ↔ _
  rw [hend.has]
  constructor
  · rintro ⟨i, -, hs⟩
    exact ⟨i, hs⟩
  · rintro ⟨i, hs⟩
    exact ⟨i, h₀.cell_lt hs, hs⟩

end grow

theorem put_apply {t : DpTable} (h : Valid hash t) (hold : t.old = none) (hcap : t.cap < 2 ^ 32)
    (k : List UInt8) (w : Entry) : ∃ rc t', tablePut true t (slotOf hash k w) = some (rc, t') ∧
      0 ≤ rc ∧ Valid hash t' ∧ t'.old = none ∧
      ∀ s, Has t'.cells s ↔ s = slotOf hash k w ∨ s.key ≠ some k ∧ Has t.cells s := by
  obtain ⟨t₁, hroom, h₁, hold₁, hfree, hhas⟩ : ∃ t₁,
      (if t.growAt ≤ t.count + t.tombstones then tableGrow true t else some t) = some t₁ ∧
      Valid hash t₁ ∧ t₁.old = none ∧ t₁.count + t₁.tombstones < t₁.cap ∧
      ∀ s, Has t₁.cells s ↔ Has t.cells s := by
    have hpos := h.cap_pos
    by_cases hg : t.growAt ≤ t.count + t.tombstones
    · obtain ⟨t₁, hgrow, h₁, hold₁, hcap₁, hused, hhas⟩ := grow_apply h hold hcap
      exact ⟨t₁, by rw [if_pos hg, hgrow], h₁, hold₁, by omega, hhas⟩
    · refine ⟨t, if_neg hg, h, hold, ?_, fun _ ↦ Iff.rfl⟩
      have hat : t.growAt = t.cap * 14 / 16 := h.growAt
      omega
  obtain ⟨rc, t', hins, hrc, hI⟩ := h₁.insert_apply hfree k w
  refine ⟨rc, t', ?_, hrc, hI.valid, hI.old.trans hold₁, fun s ↦ ?_⟩
  · rw [tablePut, hroom, Option.bind_some, hold₁]
    dsimp only
    rw [Option.isSome_none, if_neg Bool.false_ne_true, hins, if_neg (by dsimp only; omega)]
  · rw [hI.has, hhas]

end Xxfs.SwissTable

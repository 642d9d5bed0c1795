import Xxfs.IndexGet
import Xxfs.SwissTable

namespace Xxfs.SwissTable

open Xxfs.DiskFormat Xxfs.Machine Xxfs.PagedIndex Xxfs.IndexRep Xxfs.Lib.GroupTable

/-- What a call of `table_put` stores under its key. -/
@[ext] structure Entry where
  val : Option (List UInt8)
  vlen : ℕ
  fileOff : UInt64

def slotOf (hash : List UInt8 → UInt64) (k : List UInt8) (w : Entry) : DpSlot :=
  ⟨hash k, some k, w.val, k.length, w.vlen, w.fileOff⟩

def cellAt (ctrl : ℕ → UInt8) (slots : ℕ → DpSlot) (i : ℕ) : Cell DpSlot :=
  if ctrl i = ctrlEmpty then .empty
  else if ctrl i = ctrlDeleted then .tomb
  else .full (slots i)

def DpTable.cells (t : DpTable) : ℕ → Cell DpSlot := cellAt t.ctrl t.slots

section cell

variable {ctrl : ℕ → UInt8} {slots : ℕ → DpSlot} {i : ℕ} {s : DpSlot}

theorem cellAt_empty : cellAt ctrl slots i = .empty ↔ ctrl i = ctrlEmpty := by
  unfold cellAt
  split
  · simp [*]
  · rename_i h
    split <;> simp [h]

theorem cellAt_tomb : cellAt ctrl slots i = .tomb ↔ ctrl i = ctrlDeleted := by
  unfold cellAt
  split
  · rename_i h
    simp [h, ctrlEmpty, ctrlDeleted]
  · split
    · simp [*]
    · simp [*]

theorem cellAt_full (h : cellAt ctrl slots i = .full s) :
    ctrl i ≠ ctrlEmpty ∧ ctrl i ≠ ctrlDeleted ∧ slots i = s := by
  unfold cellAt at h
  split at h
  · cases h
  · split at h
    · cases h
    · exact ⟨‹_›, ‹_›, Cell.full.inj h⟩

theorem ctrlTag_lt (hash : UInt64) : (ctrlTag hash).toNat < 128 := by
  have hle : (hash &&& 0x7F).toNat ≤ 127 := by
    rw [UInt64.toNat_and]
    exact Nat.and_le_right
  rw [ctrlTag, UInt64.toNat_toUInt8]
  omega

theorem ctrlTag_ne_empty (hash : UInt64) : ctrlTag hash ≠ ctrlEmpty := by
  intro h
  have := ctrlTag_lt hash
  rw [h] at this
  exact absurd this (by decide)

theorem ctrlTag_ne_deleted (hash : UInt64) : ctrlTag hash ≠ ctrlDeleted := by
  intro h
  have := ctrlTag_lt hash
  rw [h] at this
  exact absurd this (by decide)

theorem cellAt_store (ctrl : ℕ → UInt8) (slots : ℕ → DpSlot) (i : ℕ) (hash : UInt64)
    (s : DpSlot) : cellAt (Function.update ctrl i (ctrlTag hash)) (Function.update slots i s) =
      Function.update (cellAt ctrl slots) i (.full s) := by
  funext j
  by_cases hj : j = i
  · subst hj
    rw [cellAt, Function.update_self, Function.update_self, Function.update_self,
      if_neg (ctrlTag_ne_empty hash), if_neg (ctrlTag_ne_deleted hash)]
  · rw [cellAt, Function.update_of_ne hj, Function.update_of_ne hj, Function.update_of_ne hj]
    rfl

theorem cellAt_replace (h : ctrl i ≠ ctrlEmpty) (h' : ctrl i ≠ ctrlDeleted) :
    cellAt ctrl (Function.update slots i s) = Function.update (cellAt ctrl slots) i (.full s) := by
  funext j
  by_cases hj : j = i
  · subst hj
    rw [cellAt, Function.update_self, Function.update_self, if_neg h, if_neg h']
  · rw [cellAt, Function.update_of_ne hj, Function.update_of_ne hj]
    rfl

theorem cellAt_bury (ctrl : ℕ → UInt8) (slots : ℕ → DpSlot) (i : ℕ) (s : DpSlot) :
    cellAt (Function.update ctrl i ctrlDeleted) (Function.update slots i s) =
      Function.update (cellAt ctrl slots) i .tomb := by
  funext j
  by_cases hj : j = i
  · subst hj
    rw [Function.update_self]
    exact cellAt_tomb.mpr (Function.update_self ..)
  · rw [cellAt, Function.update_of_ne hj, Function.update_of_ne hj, Function.update_of_ne hj]
    rfl

end cell

variable {hash : List UInt8 → UInt64}

/-- The slots hold what `table_put` wrote, under the tags of their hashes. -/
def Tagged (hash : List UInt8 → UInt64) (ctrl : ℕ → UInt8) (slots : ℕ → DpSlot) : Prop :=
  ∀ i s, cellAt ctrl slots i = .full s → ctrl i = ctrlTag s.hash ∧ ∃ k w, s = slotOf hash k w

/-- The table is well formed, whatever an older table beside it may hold. -/
structure Valid (hash : List UInt8 → UInt64) (t : DpTable) : Prop where
  pow : ∃ e, t.cap = 2 ^ e * groupSize
  mask : t.mask = t.cap - 1
  growAt : t.growAt = t.cap * maxLoadNum / groupSize
  tagged : Tagged hash t.ctrl t.slots
  probed : Probed groupSize (t.cap / groupSize) (fun s ↦ groupIdx s.hash t.mask) DpSlot.key t.cells
  count : t.count = census Cell.isFull t.cells t.cap
  tombs : t.tombstones = census Cell.isTomb t.cells t.cap

section search

theorem sameKey_slotOf (k k' : List UInt8) (w : Entry) :
    sameKey (slotOf hash k w) (hash k') (some k') k'.length = decide (some k = some k') := by
  rw [Bool.eq_iff_iff, decide_eq_true_iff]
  simp only [sameKey, slotOf, Bool.and_eq_true, beq_iff_eq, sameBytes_iff, Option.some.injEq]
  constructor
  · rintro ⟨⟨-, hl⟩, hb⟩
    exact eq_of_bytesAt hl (by rwa [hl])
  · rintro rfl
    exact ⟨⟨rfl, rfl⟩, fun _ _ ↦ rfl⟩

variable {t : DpTable} {k : List UInt8}

theorem findInGroup_eq (ht : Tagged hash t.ctrl t.slots) (k : List UInt8) (g : ℕ) :
    findInGroup t (hash k) (some k) k.length g =
      groupFind groupSize t.cells (Cell.holds fun s ↦ decide (s.key = some k)) g := by
  rw [findInGroup, groupFind, matchGroup, List.find?_filter]
  congr 2
  funext b
  generalize g * groupSize + b = i
  rw [DpTable.cells]
  cases hc : cellAt t.ctrl t.slots i with
  | empty =>
    rw [cellAt_empty.mp hc, beq_eq_false_iff_ne.mpr (ctrlTag_ne_empty _).symm]
    rfl
  | tomb =>
    rw [cellAt_tomb.mp hc, beq_eq_false_iff_ne.mpr (ctrlTag_ne_deleted _).symm]
    rfl
  | full s =>
    obtain ⟨htag, k', w, rfl⟩ := ht i s hc
    obtain ⟨-, -, hslot⟩ := cellAt_full hc
    rw [hslot, htag, sameKey_slotOf]
    by_cases hk : k' = k
    · simp [hk, Cell.holds, slotOf]
    · simp [hk, Cell.holds, slotOf]

theorem lowest_eq (g : ℕ) (ctrl : ℕ → UInt8) (tag : UInt8) {p : Cell DpSlot → Bool}
    (hp : ∀ i, (ctrl i == tag) = p (cellAt ctrl t.slots i)) :
    lowest g (matchGroup ctrl (g * groupSize) tag) =
      groupFind groupSize (cellAt ctrl t.slots) p g := by
  rw [lowest, matchGroup, List.head?_filter, groupFind]
  simp only [hp]

theorem lowest_empty (t : DpTable) (g : ℕ) : lowest g (matchEmpty t.ctrl (g * groupSize)) =
    groupFind groupSize t.cells Cell.isEmpty g := by
  refine lowest_eq g t.ctrl ctrlEmpty fun i ↦ ?_
  rw [Bool.eq_iff_iff, beq_iff_eq, Cell.isEmpty_iff, cellAt_empty]

theorem lowest_tomb (t : DpTable) (g : ℕ) :
    lowest g (matchGroup t.ctrl (g * groupSize) ctrlDeleted) =
      groupFind groupSize t.cells Cell.isTomb g := by
  refine lowest_eq g t.ctrl ctrlDeleted fun i ↦ ?_
  rw [Bool.eq_iff_iff, beq_iff_eq, Cell.isTomb_iff, cellAt_tomb]

theorem findLoop_eq (ht : Tagged hash t.ctrl t.slots) (k : List UInt8) (e n g : ℕ) :
    findLoop t (hash k) (some k) k.length (2 ^ e) n g =
      seek groupSize (2 ^ e) t.cells (fun s ↦ decide (s.key = some k)) n g := by
  induction n generalizing g with
  | zero => rfl
  | succ n ih =>
    rewrite [findLoop, seek, findInGroup_eq ht, lowest_empty, ih, Nat.and_two_pow_sub_one_eq_mod]
    rfl

theorem insertLoop_eq (ht : Tagged hash t.ctrl t.slots) (k : List UInt8) (w : Entry) (e n g : ℕ)
    (d : Option ℕ) : insertLoop t (slotOf hash k w) (2 ^ e) n g d =
      spot groupSize (2 ^ e) t.cells (fun s ↦ decide (s.key = some k)) n g d := by
  induction n generalizing g d with
  | zero => cases d <;> rfl
  | succ n ih =>
    have hfind : findInGroup t (slotOf hash k w).hash (slotOf hash k w).key
        (slotOf hash k w).klen g = _ := findInGroup_eq ht k g
    rw [insertLoop, spot, hfind, lowest_empty, lowest_tomb]
    dsimp only
    rewrite [ih, Nat.and_two_pow_sub_one_eq_mod]
    rfl

end search

namespace Valid

variable {t : DpTable} (h : Valid hash t)
include h

theorem groups : ∃ e, t.cap / groupSize = 2 ^ e := by
  obtain ⟨e, he⟩ := h.pow
  exact ⟨e, by rw [he, Nat.mul_div_cancel _ (by decide)]⟩

theorem cap_eq : t.cap / groupSize * groupSize = t.cap := by
  obtain ⟨e, he⟩ := h.pow
  rw [he, Nat.mul_div_cancel _ (by decide)]

theorem cap_pos : 0 < t.cap := by
  obtain ⟨e, he⟩ := h.pow
  have : 0 < 2 ^ e := Nat.two_pow_pos e
  rw [he]
  exact Nat.mul_pos this (by decide)

theorem groupIdx_lt (x : UInt64) : groupIdx x t.mask < t.cap / groupSize := by
  have hle : groupIdx x t.mask ≤ t.mask / groupSize := Nat.and_le_right
  have hcap := h.cap_eq
  have hpos := h.cap_pos
  rw [h.mask] at hle
  have hgs : groupSize = 16 := rfl
  rw [hgs] at hle hcap ⊢
  rw [h.mask]
  omega

theorem lt_cap {i : ℕ} (hi : i / groupSize < t.cap / groupSize) : i < t.cap := by
  rw [← h.cap_eq]
  exact (Nat.div_lt_iff_lt_mul (by decide)).mp hi

theorem cell_eq {i : ℕ} {s : DpSlot} (hi : t.cells i = .full s) {k : List UInt8}
    (hk : s.key = some k) : ∃ w, s = slotOf hash k w := by
  obtain ⟨-, k', w, rfl⟩ := h.tagged i s hi
  obtain rfl := Option.some.inj hk
  exact ⟨w, rfl⟩

theorem cell_lt {i : ℕ} {s : DpSlot} (hi : t.cells i = .full s) : i < t.cap :=
  h.lt_cap ((h.probed.ahead i s hi).lt (h.groupIdx_lt _))

theorem find_eq (k : List UInt8) : tableFind t (hash k) (some k) k.length =
    seek groupSize (t.cap / groupSize) t.cells (fun s ↦ decide (s.key = some k))
      (t.cap / groupSize) (groupIdx (hash k) t.mask) := by
  obtain ⟨e, he⟩ := h.groups
  rw [tableFind, he, findLoop_eq h.tagged]

theorem of_find {k : List UInt8} {i : ℕ} (hf : tableFind t (hash k) (some k) k.length = some i) :
    i < t.cap ∧ ∃ w, t.cells i = .full (slotOf hash k w) := by
  rw [h.find_eq] at hf
  obtain ⟨a, ha, hk⟩ := of_seek hf
  obtain ⟨w, rfl⟩ := h.cell_eq ha (of_decide_eq_true hk)
  exact ⟨h.cell_lt ha, w, ha⟩

theorem of_find_none {k : List UInt8} (hf : tableFind t (hash k) (some k) k.length = none)
    (w : Entry) : ¬Has t.cells (slotOf hash k w) := by
  rintro ⟨i, hi⟩
  rw [h.find_eq] at hf
  have ha : Ahead groupSize (t.cap / groupSize) t.cells (t.cap / groupSize)
      (groupIdx (hash k) t.mask) i := h.probed.ahead i (slotOf hash k w) hi
  have hno := seek_none (show 0 < groupSize by decide) hf ha
  have hyes : (t.cells i).holds (fun s ↦ decide (s.key = some k)) = true := by
    rw [hi]
    exact decide_eq_true rfl
  rw [hno] at hyes
  cases hyes

theorem has_inj {k : List UInt8} {w w' : Entry} (hw : Has t.cells (slotOf hash k w))
    (hw' : Has t.cells (slotOf hash k w')) : w = w' := by
  obtain ⟨i, hi⟩ := hw
  obtain ⟨j, hj⟩ := hw'
  obtain rfl := h.probed.uniq i j _ _ hi hj rfl
  rw [hi] at hj
  obtain ⟨hv, hl, ho⟩ : w.val = w'.val ∧ w.vlen = w'.vlen ∧ w.fileOff = w'.fileOff := by
    simpa [slotOf] using Cell.full.inj hj
  exact Entry.ext hv hl ho

theorem add {k : List UInt8} {i : ℕ} (w : Entry) (hc : t.cells i = .empty ∨ t.cells i = .tomb)
    (ha : Ahead groupSize (t.cap / groupSize) t.cells (t.cap / groupSize)
      (groupIdx (hash k) t.mask) i)
    (hno : ∀ j s, t.cells j = .full s → s.key ≠ some k) :
    Valid hash { t with
      ctrl := Function.update t.ctrl i (ctrlTag (hash k))
      slots := Function.update t.slots i (slotOf hash k w)
      count := t.count + 1
      tombstones := if t.ctrl i = ctrlDeleted then t.tombstones - 1 else t.tombstones } := by
  have hcells := cellAt_store t.ctrl t.slots i (hash k) (slotOf hash k w)
  have hi : i < t.cap := h.lt_cap (ha.lt (h.groupIdx_lt _))
  have hnew : ∀ j s, t.cells j = .full s → s.key = (slotOf hash k w).key → j = i :=
    fun j s hj hk ↦ (hno j s hj hk).elim
  have hfull := census_update Cell.isFull t.cells hi (.full (slotOf hash k w))
  have htomb := census_update Cell.isTomb t.cells hi (.full (slotOf hash k w))
  refine ⟨h.pow, h.mask, h.growAt, fun j s hj ↦ ?_, ?_, ?_, ?_⟩
  · dsimp only at hj ⊢
    rw [hcells] at hj
    rcases of_update hj with ⟨rfl, hs⟩ | ⟨hji, hj⟩
    · obtain rfl := Cell.full.inj hs
      exact ⟨Function.update_self .., k, w, rfl⟩
    · rw [Function.update_of_ne hji]
      exact h.tagged j s hj
  · rw [DpTable.cells, hcells]
    exact h.probed.store ha hnew
  · rw [DpTable.cells, hcells]
    have hz : (t.cells i).isFull = false := by rcases hc with hc | hc <;> rw [hc] <;> rfl
    rw [hz] at hfull
    change _ = _ + 1 at hfull
    exact (congrArg (· + 1) h.count).trans hfull.symm
  · rw [DpTable.cells, hcells]
    dsimp only
    rcases hc with hc | hc
    · rw [hc] at htomb
      rw [if_neg, h.tombs]
      · exact htomb.symm
      · intro hd
        rw [DpTable.cells, cellAt_tomb.mpr hd] at hc
        cases hc
    · rw [hc] at htomb
      rw [if_pos (cellAt_tomb.mp hc), h.tombs, ← DpTable.cells]
      change _ + 1 = _ + 0 at htomb
      omega

theorem replace {k : List UInt8} {i : ℕ} {w : Entry} (w' : Entry)
    (hc : t.cells i = .full (slotOf hash k w)) :
    Valid hash { t with slots := Function.update t.slots i (slotOf hash k w') } := by
  obtain ⟨he, hd, -⟩ := cellAt_full hc
  have hcells : cellAt t.ctrl (Function.update t.slots i (slotOf hash k w')) =
      Function.update t.cells i (.full (slotOf hash k w')) := cellAt_replace he hd
  have hnew : ∀ j s, t.cells j = .full s → s.key = (slotOf hash k w').key → j = i :=
    fun j s hj hk ↦ h.probed.uniq j i s _ hj hc hk
  have hi := h.cell_lt hc
  have hfull := census_update Cell.isFull t.cells hi (.full (slotOf hash k w'))
  have htomb := census_update Cell.isTomb t.cells hi (.full (slotOf hash k w'))
  rw [hc] at hfull htomb
  refine ⟨h.pow, h.mask, h.growAt, fun j s hj ↦ ?_, ?_, ?_, ?_⟩
  · dsimp only at hj ⊢
    rw [hcells] at hj
    rcases of_update hj with ⟨rfl, hs⟩ | ⟨-, hj⟩
    · obtain rfl := Cell.full.inj hs
      exact ⟨(h.tagged j _ hc).1, k, w', rfl⟩
    · exact h.tagged j s hj
  · rw [DpTable.cells, hcells]
    have ha : Ahead groupSize (t.cap / groupSize) t.cells (t.cap / groupSize)
      (groupIdx (slotOf hash k w').hash t.mask) i := h.probed.ahead i (slotOf hash k w) hc
    exact h.probed.store ha hnew
  · rw [DpTable.cells, hcells]
    exact h.count.trans (Nat.add_right_cancel hfull).symm
  · rw [DpTable.cells, hcells]
    exact h.tombs.trans (Nat.add_right_cancel htomb).symm

end Valid

end Xxfs.SwissTable

import Mathlib.Data.Set.Card
import Xxfs.SwissSteps

namespace Xxfs.SwissTable

open Xxfs.DiskFormat Xxfs.Machine Xxfs.Lib.GroupTable

variable {hash : List UInt8 → UInt64}

inductive Op
  | put (k : List UInt8) (w : Entry)
  | del (k : List UInt8)

def Op.run (hash : List UInt8 → UInt64) (t : DpTable) : Op → Option DpTable
  | .put k w => (tablePut true t (slotOf hash k w)).map Prod.snd
  | .del k => some (tableDel t (hash k) (some k) k.length).2

def runOps (hash : List UInt8 → UInt64) (ops : List Op) (t : DpTable) : Option DpTable :=
  ops.foldlM (Op.run hash) t

def Op.apply (m : List UInt8 → Option Entry) : Op → List UInt8 → Option Entry
  | .put k w => Function.update m k (some w)
  | .del k => Function.update m k none

def lastPut (ops : List Op) : List UInt8 → Option Entry := ops.foldl Op.apply fun _ ↦ none

/-- The table answers as the map does, and its counters are right. -/
structure IsMap (hash : List UInt8 → UInt64) (t : DpTable) (m : List UInt8 → Option Entry) :
    Prop where
  found : ∀ k w, m k = some w → ∃ i < t.cap,
    tableFind t (hash k) (some k) k.length = some i ∧ t.slots i = slotOf hash k w
  missing : ∀ k, m k = none → tableFind t (hash k) (some k) k.length = none
  count : t.count = {k | m k ≠ none}.ncard
  used : t.count + t.tombstones =
    ((Finset.range t.cap).filter fun i ↦ t.ctrl i ≠ ctrlEmpty).card
  migrated : t.old = none

/-- The cells hold the entries of the map and no others. -/
def Holds (hash : List UInt8 → UInt64) (t : DpTable) (m : List UInt8 → Option Entry) : Prop :=
  ∀ s, Has t.cells s ↔ ∃ k w, m k = some w ∧ s = slotOf hash k w

section map

variable {t : DpTable} {m : List UInt8 → Option Entry}

theorem Holds.mem_iff (hm : Holds hash t m) {k : List UInt8} {w : Entry} :
    Has t.cells (slotOf hash k w) ↔ m k = some w := by
  rw [hm]
  constructor
  · rintro ⟨k', w', hw, heq⟩
    obtain ⟨-, rfl, hv, -, hl, ho⟩ : hash k = hash k' ∧ k = k' ∧ w.val = w'.val ∧
        k.length = k'.length ∧ w.vlen = w'.vlen ∧ w.fileOff = w'.fileOff := by
      simpa [slotOf] using heq
    rw [hw, Entry.ext hv hl ho]
  · intro hw
    exact ⟨k, w, hw, rfl⟩

theorem Valid.count_eq (h : Valid hash t) (hm : Holds hash t m) :
    t.count = {k | m k ≠ none}.ncard := by
  set full := (Finset.range t.cap).filter fun i ↦ (t.cells i).isFull with hfull
  set keyAt : ℕ → List UInt8 := fun i ↦ (t.slots i).key.getD [] with hkey
  have hmem {i : ℕ} (hi : i ∈ full) : ∃ k w, t.cells i = .full (slotOf hash k w) ∧ keyAt i = k := by
    obtain ⟨s, hs⟩ := Cell.isFull_iff.mp (Finset.mem_filter.mp hi).2
    obtain ⟨-, k, w, rfl⟩ := h.tagged i s hs
    refine ⟨k, w, hs, ?_⟩
    rw [hkey]
    dsimp only
    rw [(cellAt_full hs).2.2]
    rfl
  have himage : {k | m k ≠ none} = ↑(full.image keyAt) := by
    ext k
    rw [Set.mem_ofPred_eq, Finset.mem_coe, Finset.mem_image]
    constructor
    · intro hk
      obtain ⟨w, hw⟩ := Option.ne_none_iff_exists'.mp hk
      obtain ⟨i, hi⟩ := hm.mem_iff.mpr hw
      have hif : i ∈ full := by
        rw [hfull, Finset.mem_filter, Finset.mem_range]
        exact ⟨h.cell_lt hi, by rw [hi]; rfl⟩
      obtain ⟨k', w', hi', rfl⟩ := hmem hif
      have hkey' : (slotOf hash k w).key = (slotOf hash (keyAt i) w').key := by
        rw [Cell.full.inj (hi.symm.trans hi')]
      exact ⟨i, hif, (Option.some.inj hkey').symm⟩
    · rintro ⟨i, hi, rfl⟩
      obtain ⟨k, w, hc, hk⟩ := hmem hi
      rw [hk, hm.mem_iff.mp ⟨i, hc⟩]
      simp
  have hinj : Set.InjOn keyAt full := by
    intro i hi j hj hij
    obtain ⟨k, w, hc, hk⟩ := hmem hi
    obtain ⟨k', w', hc', hk'⟩ := hmem hj
    refine h.probed.uniq i j _ _ hc hc' ?_
    rw [← hk, ← hk', hij]
    rfl
  rw [himage, Set.ncard_coe_finset, Finset.card_image_of_injOn hinj, h.count]
  rfl

theorem Valid.used_eq (h : Valid hash t) : t.count + t.tombstones =
    ((Finset.range t.cap).filter fun i ↦ t.ctrl i ≠ ctrlEmpty).card := by
  have hsplit := census_split t.cells t.cap
  have hcard := Finset.card_filter_add_card_filter_not (s := Finset.range t.cap)
    fun i ↦ t.ctrl i = ctrlEmpty
  have hempty : census Cell.isEmpty t.cells t.cap =
      ((Finset.range t.cap).filter fun i ↦ t.ctrl i = ctrlEmpty).card := by
    rw [census]
    congr 1
    refine Finset.filter_congr fun i _ ↦ ?_
    rw [Cell.isEmpty_iff]
    exact cellAt_empty
  rw [Finset.card_range] at hcard
  rw [h.count, h.tombs]
  simp only [ne_eq]
  omega

theorem Valid.isMap (h : Valid hash t) (hold : t.old = none) (hm : Holds hash t m) :
    IsMap hash t m := by
  refine ⟨fun k w hw ↦ ?_, fun k hk ↦ ?_, h.count_eq hm, h.used_eq, hold⟩
  · cases hf : tableFind t (hash k) (some k) k.length with
    | none => exact (h.of_find_none hf w (hm.mem_iff.mpr hw)).elim
    | some i =>
      obtain ⟨hi, w', hc⟩ := h.of_find hf
      refine ⟨i, hi, rfl, ?_⟩
      rw [h.has_inj (hm.mem_iff.mpr hw) ⟨i, hc⟩]
      exact (cellAt_full hc).2.2
  · cases hf : tableFind t (hash k) (some k) k.length with
    | none => rfl
    | some i =>
      obtain ⟨-, w', hc⟩ := h.of_find hf
      rw [hm.mem_iff.mp ⟨i, hc⟩] at hk
      cases hk

end map

section run

/-- Between two calls the table is well formed and has no older table beside it. -/
structure Settled (hash : List UInt8 → UInt64) (t : DpTable) (m : List UInt8 → Option Entry) :
    Prop where
  valid : Valid hash t
  old : t.old = none
  holds : Holds hash t m

theorem settled_alloc (hash : List UInt8 → UInt64) {cap e : ℕ} (hcap : cap = 2 ^ e * groupSize)
    {t : DpTable} (ht : tableAlloc true tableInit cap = some t) :
    Settled hash t fun _ ↦ none := by
  rw [tableAlloc, if_pos rfl] at ht
  obtain rfl := Option.some.inj ht
  have hcells : DpTable.cells { tableInit with
      cap := cap, mask := cap - 1, growAt := cap * maxLoadNum / groupSize
      ctrl := fun _ ↦ ctrlEmpty, slots := fun _ ↦ .zero } = fun _ ↦ .empty :=
    funext fun i ↦ cellAt_empty.mpr rfl
  refine ⟨⟨⟨e, hcap⟩, rfl, rfl, fun i s hi ↦ ((cellAt_full hi).1 rfl).elim, ?_, ?_, ?_⟩, rfl,
    fun s ↦ ?_⟩
  · rw [hcells]
    exact probed_empty
  · rw [hcells]
    simp [census, Cell.isFull, tableInit]
  · rw [hcells]
    simp [census, Cell.isTomb, tableInit]
  · rw [hcells]
    simp [Has]

theorem Settled.step {t : DpTable} {m : List UInt8 → Option Entry} (h : Settled hash t m)
    (hcap : t.cap < 2 ^ 32) (op : Op) : ∃ t', op.run hash t = some t' ∧
      Settled hash t' (op.apply m) := by
  have hkeys (k x : List UInt8) (w : Entry) : (slotOf hash x w).key ≠ some k ↔ x ≠ k :=
    not_congr Option.some_inj
  cases op with
  | put k w =>
    obtain ⟨rc, t', hput, -, hv, hold, hhas⟩ := put_apply h.valid h.old hcap k w
    refine ⟨t', by rw [Op.run, hput]; rfl, hv, hold, fun s ↦ ?_⟩
    rw [hhas, h.holds]
    constructor
    · rintro (rfl | ⟨hk, x, w', hx, rfl⟩)
      · exact ⟨k, w, Function.update_self .., rfl⟩
      · exact ⟨x, w', by rw [Op.apply, Function.update_of_ne ((hkeys k x w').mp hk), hx], rfl⟩
    · rintro ⟨x, w', hx, rfl⟩
      by_cases hxk : x = k
      · rw [Op.apply, hxk, Function.update_self] at hx
        exact .inl (by rw [hxk, Option.some.inj hx])
      · rw [Op.apply, Function.update_of_ne hxk] at hx
        exact .inr ⟨(hkeys k x w').mpr hxk, x, w', hx, rfl⟩
  | del k =>
    obtain ⟨rc, t', hdel, hv, hhas, -, hold⟩ := h.valid.del_apply k
    refine ⟨t', by rw [Op.run, hdel], hv, hold.trans h.old, fun s ↦ ?_⟩
    rw [hhas, h.holds]
    constructor
    · rintro ⟨hk, x, w', hx, rfl⟩
      exact ⟨x, w', by rw [Op.apply, Function.update_of_ne ((hkeys k x w').mp hk), hx], rfl⟩
    · rintro ⟨x, w', hx, rfl⟩
      by_cases hxk : x = k
      · rw [Op.apply, hxk, Function.update_self] at hx
        cases hx
      · rw [Op.apply, Function.update_of_ne hxk] at hx
        exact ⟨(hkeys k x w').mpr hxk, x, w', hx, rfl⟩

/-- The capacity stays below 2^32 while the calls run. -/
def Bounded (hash : List UInt8 → UInt64) (ops : List Op) (t : DpTable) : Prop :=
  ∀ pre, pre <+: ops → ∀ t', runOps hash pre t = some t' → t'.cap < 2 ^ 32

theorem runOps_cons {op : Op} {ops : List Op} {t t' : DpTable} (h : op.run hash t = some t') :
    runOps hash (op :: ops) t = runOps hash ops t' := by
  rw [runOps, List.foldlM_cons, h]
  rfl

theorem Settled.run {ops : List Op} {t : DpTable} {m : List UInt8 → Option Entry}
    (h : Settled hash t m) (hb : Bounded hash ops t) : ∃ t', runOps hash ops t = some t' ∧
      Settled hash t' (ops.foldl Op.apply m) := by
  induction ops generalizing t m with
  | nil => exact ⟨t, rfl, h⟩
  | cons op ops ih =>
    obtain ⟨t₁, hop, h₁⟩ := h.step (hb [] List.nil_prefix t rfl) op
    have hb₁ : Bounded hash ops t₁ := fun pre hpre t' ht' ↦
      hb (op :: pre) ((List.prefix_cons_inj op).mpr hpre) t' (by rw [runOps_cons hop, ht'])
    obtain ⟨t', hrun, h'⟩ := ih h₁ hb₁
    exact ⟨t', by rw [runOps_cons hop, hrun], h'⟩

/-- The Swiss table is a finite map: after every run of puts and dels it answers with the last
puts, its counters are right, no old table is left, and a further put never fails. -/
theorem swiss_is_map (hash : List UInt8 → UInt64) {cap e : ℕ} (hcap : cap = 2 ^ e)
    (hmin : groupSize ≤ cap) {ops : List Op} {t₀ : DpTable}
    (ht₀ : tableAlloc true tableInit cap = some t₀) (hb : Bounded hash ops t₀) : ∃ t,
      runOps hash ops t₀ = some t ∧ IsMap hash t (lastPut ops) ∧
      ∀ k w, ∃ rc t', tablePut true t (slotOf hash k w) = some (rc, t') ∧ rc ≠ -1 := by
  obtain ⟨e, rfl⟩ : ∃ d, e = d + 4 := by
    have h16 : 2 ^ 4 ≤ 2 ^ e := by rw [← hcap]; exact hmin
    exact ⟨e - 4, by have := (Nat.pow_le_pow_iff_right (by decide)).mp h16; omega⟩
  have h₀ := settled_alloc hash (hcap.trans (Nat.pow_add 2 e 4)) ht₀
  obtain ⟨t, hrun, h⟩ := h₀.run hb
  refine ⟨t, hrun, h.valid.isMap h.old h.holds, fun k w ↦ ?_⟩
  obtain ⟨rc, t', hput, hrc, -⟩ := put_apply h.valid h.old (hb ops List.prefix_rfl t hrun) k w
  exact ⟨rc, t', hput, by omega⟩

end run

/-- Two keys under one hash in a table of one group; the first is deleted again. -/
def collide : List Op :=
  [.put [1] ⟨some [10], 1, 0⟩, .put [2] ⟨some [20], 1, 0⟩, .del [1]]

theorem collide_is_map : ∃ t₀ t, tableAlloc true tableInit 16 = some t₀ ∧
    runOps (fun _ ↦ 5) collide t₀ = some t ∧ IsMap (fun _ ↦ 5) t (lastPut collide) ∧
    ∀ k w, ∃ rc t', tablePut true t (slotOf (fun _ ↦ 5) k w) = some (rc, t') ∧ rc ≠ -1 := by
  obtain ⟨t₀, ht₀⟩ : ∃ t₀, tableAlloc true tableInit 16 = some t₀ := ⟨_, rfl⟩
  have hcaps : ∀ pre ∈ collide.inits, (((tableAlloc true tableInit 16).bind
      (runOps (fun _ ↦ 5) pre)).map DpTable.cap).all (· < 2 ^ 32) = true := by decide +kernel
  have hb : Bounded (fun _ ↦ 5) collide t₀ := by
    intro pre hpre t' ht'
    have hcap := hcaps pre ((List.mem_inits _ _).mpr hpre)
    rw [ht₀, Option.bind_some, ht'] at hcap
    exact of_decide_eq_true hcap
  obtain ⟨t, ht⟩ :=
    swiss_is_map (fun _ ↦ 5) (show 16 = 2 ^ 4 by decide) (by decide) ht₀ hb
  exact ⟨t₀, t, ht₀, ht⟩

end Xxfs.SwissTable

import Xxfs.SwissRuns

namespace Xxfs.SwissTable

open Xxfs.DiskFormat Xxfs.Machine

/-- The two arrays of a table behind their pointers; a null pointer is `none`. -/
structure Arrays where
  ctrl : Option (ℕ → UInt8)
  slots : Option (ℕ → DpSlot)

/-- `struct dp_table` with its pointers. -/
structure TableMem where
  cur : Arrays
  cap : ℕ
  mask : ℕ
  count : ℕ
  tombstones : ℕ
  growAt : ℕ
  old : Arrays
  oldCap : ℕ
  oldMask : ℕ
  oldMigrated : ℕ
  oldGrowAt : ℕ

def Arrays.null : Arrays := ⟨none, none⟩

def OldTable.arrays : Option OldTable → Arrays
  | none => .null
  | some o => ⟨some o.ctrl, some o.slots⟩

namespace TableMem

/-- The table that the pointers lead to, if the current arrays are there. -/
def table (t : TableMem) : Option DpTable := do
  let ctrl ← t.cur.ctrl
  let slots ← t.cur.slots
  return ⟨ctrl, slots, t.cap, t.mask, t.count, t.tombstones, t.growAt, do
    let ctrl ← t.old.ctrl
    let slots ← t.old.slots
    return ⟨ctrl, slots, t.oldCap, t.oldMigrated⟩⟩

/-- The memory after a step of the table. Arrays that have been migrated are freed. -/
def store (t : TableMem) (d : DpTable) : TableMem where
  cur := ⟨some d.ctrl, some d.slots⟩
  cap := d.cap
  mask := d.mask
  count := d.count
  tombstones := d.tombstones
  growAt := d.growAt
  old := OldTable.arrays d.old
  oldCap := d.old.elim 0 OldTable.cap
  oldMask := t.oldMask
  oldMigrated := d.old.elim t.oldCap OldTable.migrated
  oldGrowAt := t.oldGrowAt

def tableDestroy (t : TableMem) : TableMem := { t with cur := .null, old := .null }

/-- `table_alloc`; `m` tells which of its two allocations succeed. -/
def tableAlloc (m : Bool × Bool) (t : TableMem) (cap : ℕ) : Rc × TableMem :=
  let t := { t with
    cap := cap
    mask := cap - 1
    growAt := cap * maxLoadNum / groupSize
    cur := ⟨if m.1 then some fun _ ↦ 0 else none, if m.2 then some fun _ ↦ .zero else none⟩ }
  if t.cur.ctrl.isNone ∨ t.cur.slots.isNone then (.enomem, t.tableDestroy)
  else (.ok, { t with cur := ⟨some fun _ ↦ ctrlEmpty, t.cur.slots⟩ })

/-- `table_migrate_batch`, which crashes on a table without arrays. -/
def migrateBatch (t : TableMem) (batch : ℕ) : Option TableMem :=
  if t.old.ctrl.isNone then some t
  else t.table.map fun d ↦ t.store (tableMigrateBatch d batch)

/-- The part of `table_grow` behind the migration of an older table. -/
def growFresh (m : Bool × Bool) (t : TableMem) : Option (Rc × TableMem) :=
  let newCap := if t.cap * 2 < 32 then 32 else t.cap * 2
  let t := { t with
    old := t.cur
    oldCap := t.cap
    oldMask := t.mask
    oldMigrated := 0
    oldGrowAt := t.growAt }
  let r := tableAlloc m t newCap
  let t := r.2
  if r.1 ≠ .ok then
    some (r.1, { t with
      cur := t.old
      cap := t.oldCap
      mask := t.oldMask
      old := .null })
  else
    let t := { t with count := 0, tombstones := 0 }
    (migrateBatch t (t.oldCap % 2 ^ 32)).map fun t ↦ (.ok, t)

def tableGrow (m : Bool × Bool) (t : TableMem) : Option (Rc × TableMem) :=
  if t.old.ctrl.isSome then
    (migrateBatch t (t.oldCap % 2 ^ 32)).bind fun t ↦
      if t.old.ctrl.isSome then some (.ok, t) else growFresh m t
  else growFresh m t

/-- `table_find`; a table whose arrays are gone is read through a null pointer. -/
def tableFind (t : TableMem) (hash : UInt64) (key : Option (List UInt8)) (klen : ℕ) :
    Option (Option ℕ) :=
  if t.cap / groupSize = 0 then some none
  else t.table.map fun d ↦ SwissTable.tableFind d hash key klen

end TableMem

def DpTable.mem (d : DpTable) (oldMask oldGrowAt : ℕ) : TableMem where
  cur := ⟨some d.ctrl, some d.slots⟩
  cap := d.cap
  mask := d.mask
  count := d.count
  tombstones := d.tombstones
  growAt := d.growAt
  old := OldTable.arrays d.old
  oldCap := d.old.elim 0 OldTable.cap
  oldMask := oldMask
  oldMigrated := d.old.elim 0 OldTable.migrated
  oldGrowAt := oldGrowAt

/-- All that the claim of a failed growth is about. -/
structure Kept (t t' : TableMem) : Prop where
  find : ∀ hash key klen, t'.tableFind hash key klen = t.tableFind hash key klen
  count : t'.count = t.count
  tombstones : t'.tombstones = t.tombstones
  cap : t'.cap = t.cap
  mask : t'.mask = t.mask
  growAt : t'.growAt = t.growAt

/-- A growth is left early when so many old slots are left that one batch does not reach them. -/
def StillMigrating (d : DpTable) : Prop :=
  ∃ o, d.old = some o ∧ (tableMigrateBatch d (o.cap % 2 ^ 32)).old.isSome

/-- The load at which a table grows belongs to its capacity. -/
def Geared (d : DpTable) : Prop := d.growAt = d.cap * maxLoadNum / groupSize

section geared

theorem tableInsert_geared (t : DpTable) (s : DpSlot) : (tableInsert t s).2.cap = t.cap ∧
    (tableInsert t s).2.growAt = t.growAt ∧ (tableInsert t s).2.old = t.old := by
  rw [tableInsert]
  cases insertLoop t s (t.cap / groupSize) (t.cap / groupSize) (groupIdx s.hash t.mask) none with
  | found i => exact ⟨rfl, rfl, rfl⟩
  | vacant i => exact ⟨rfl, rfl, rfl⟩
  | reused i => exact ⟨rfl, rfl, rfl⟩
  | none => exact ⟨rfl, rfl, rfl⟩

theorem migrateLoop_geared (n : ℕ) (t : DpTable) :
    (migrateLoop n t).cap = t.cap ∧ (migrateLoop n t).growAt = t.growAt := by
  induction n generalizing t with
  | zero => exact ⟨rfl, rfl⟩
  | succ n ih =>
    rw [migrateLoop]
    cases ho : t.old with
    | none => exact ⟨rfl, rfl⟩
    | some o =>
      dsimp only
      split
      · split
        · obtain ⟨hcap, hat⟩ := ih (tableInsert { t with
            old := some { o with migrated := o.migrated + 1 } } (o.slots o.migrated)).2
          obtain ⟨hcap', hat', -⟩ := tableInsert_geared { t with
            old := some { o with migrated := o.migrated + 1 } } (o.slots o.migrated)
          exact ⟨hcap.trans hcap', hat.trans hat'⟩
        · exact ih _
      · exact ⟨rfl, rfl⟩

theorem tableMigrateBatch_geared (t : DpTable) (batch : ℕ) :
    (tableMigrateBatch t batch).cap = t.cap ∧ (tableMigrateBatch t batch).growAt = t.growAt := by
  have hloop := migrateLoop_geared batch t
  rw [tableMigrateBatch]
  cases (migrateLoop batch t).old with
  | none => exact hloop
  | some o =>
    dsimp only
    split
    · exact hloop
    · exact hloop

variable {t t' : DpTable}

theorem Geared.of_eq (h : Geared t) (hcap : t'.cap = t.cap) (hat : t'.growAt = t.growAt) :
    Geared t' := by
  rw [Geared, hcap, hat]
  exact h

theorem Geared.migrate (h : Geared t) (batch : ℕ) : Geared (tableMigrateBatch t batch) :=
  h.of_eq (tableMigrateBatch_geared t batch).1 (tableMigrateBatch_geared t batch).2

theorem Geared.alloc {mem : Bool} {cap : ℕ} (ht : tableAlloc mem t cap = some t') : Geared t' := by
  rw [tableAlloc] at ht
  split at ht
  · obtain rfl := Option.some.inj ht
    rfl
  · cases ht

theorem Geared.growFresh {mem : Bool} (ht : tableGrow.grow mem t = some t') : Geared t' := by
  obtain ⟨t₁, h₁, h⟩ := Option.bind_eq_some_iff.mp ht
  obtain rfl := Option.some.inj h
  have hg : Geared { t₁ with count := 0, tombstones := 0 } := (Geared.alloc h₁).of_eq rfl rfl
  exact hg.migrate _

theorem Geared.grow {mem : Bool} (h : Geared t) (ht : tableGrow mem t = some t') : Geared t' := by
  rw [tableGrow] at ht
  cases ho : t.old with
  | none =>
    rw [ho] at ht
    exact .growFresh ht
  | some o =>
    rw [ho] at ht
    dsimp only at ht
    split at ht
    · obtain rfl := Option.some.inj ht
      exact h.migrate _
    · exact .growFresh ht

theorem Geared.insert (h : Geared t) (s : DpSlot) : Geared (tableInsert t s).2 :=
  h.of_eq (tableInsert_geared t s).1 (tableInsert_geared t s).2.1

theorem Geared.put {mem : Bool} {s : DpSlot} {rc : ℤ} (h : Geared t)
    (ht : tablePut mem t s = some (rc, t')) : Geared t' := by
  obtain ⟨t₁, h₁, ht⟩ := Option.bind_eq_some_iff.mp ht
  have hg₁ : Geared t₁ := by
    split at h₁
    · exact h.grow h₁
    · exact Option.some.inj h₁ ▸ h
  have hg₂ : Geared (if t₁.old.isSome then tableMigrateBatch t₁ 64 else t₁) := by
    split
    · exact hg₁.migrate 64
    · exact hg₁
  dsimp only at ht
  generalize (if t₁.old.isSome then tableMigrateBatch t₁ 64 else t₁) = t₂ at ht hg₂
  split at ht
  · obtain ⟨t₃, h₃, ht⟩ := Option.map_eq_some_iff.mp ht
    obtain rfl : (tableInsert t₃ s).2 = t' := congrArg Prod.snd ht
    exact ((hg₂.insert s).grow h₃).insert s
  · obtain rfl : (tableInsert t₂ s).2 = t' := congrArg Prod.snd (Option.some.inj ht)
    exact hg₂.insert s

theorem Geared.del (h : Geared t) (hash : UInt64) (key : Option (List UInt8)) (klen : ℕ) :
    Geared (tableDel t hash key klen).2 := by
  rw [tableDel]
  cases tableFind t hash key klen with
  | none => exact h
  | some i => exact h

end geared

section runs

variable {hash : List UInt8 → UInt64}

def Op.runIn (hash : List UInt8 → UInt64) (t : DpTable) (mem : Bool) : Op → Option DpTable
  | .put k w => (tablePut mem t (slotOf hash k w)).map Prod.snd
  | .del k => some (tableDel t (hash k) (some k) k.length).2

/-- A run of calls, each with the memory it meets. -/
def runIn (hash : List UInt8 → UInt64) (ops : List (Bool × Op)) (t : DpTable) : Option DpTable :=
  ops.foldlM (fun t o ↦ o.2.runIn hash t o.1) t

theorem Geared.step {t t' : DpTable} (h : Geared t) {mem : Bool} {op : Op}
    (ht : op.runIn hash t mem = some t') : Geared t' := by
  cases op with
  | put k w =>
    obtain ⟨r, hr, rfl⟩ := Option.map_eq_some_iff.mp ht
    exact h.put hr
  | del k =>
    obtain rfl := Option.some.inj ht
    exact h.del _ _ _

theorem Geared.run {ops : List (Bool × Op)} {t t' : DpTable} (h : Geared t)
    (ht : runIn hash ops t = some t') : Geared t' := by
  induction ops generalizing t with
  | nil => exact Option.some.inj ht ▸ h
  | cons o ops ih =>
    obtain ⟨t₁, h₁, ht⟩ := Option.bind_eq_some_iff.mp ht
    exact ih (h.step h₁) ht

end runs

section memory

variable {t t' : TableMem} {d : DpTable} {m : Bool × Bool}

@[simp] theorem table_mem (d : DpTable) (a b : ℕ) : (d.mem a b).table = some d := by
  obtain ⟨ctrl, slots, cap, mask, count, tombstones, growAt, old⟩ := d
  cases old with
  | none => rfl
  | some o => rfl

theorem table_store (t : TableMem) (d : DpTable) : (t.store d).table = some d := by
  obtain ⟨ctrl, slots, cap, mask, count, tombstones, growAt, old⟩ := d
  cases old with
  | none => rfl
  | some o => rfl

/-- The table in memory, its old arrays both there or both gone. -/
structure Lies (t : TableMem) (d : DpTable) : Prop where
  table : t.table = some d
  old : t.old = OldTable.arrays d.old
  oldCap : ∀ o, d.old = some o → t.oldCap = o.cap

theorem lies_mem (d : DpTable) (a b : ℕ) : Lies (d.mem a b) d :=
  ⟨table_mem d a b, rfl, fun o h ↦ by rw [DpTable.mem, h]; rfl⟩

theorem lies_store (t : TableMem) (d : DpTable) : Lies (t.store d) d :=
  ⟨table_store t d, rfl, fun o h ↦ by rw [TableMem.store, h]; rfl⟩

theorem Lies.old_isSome (h : Lies t d) : t.old.ctrl.isSome = d.old.isSome := by
  rw [h.old]
  cases d.old with
  | none => rfl
  | some o => rfl

theorem Lies.fields (h : Lies t d) : t.cur = ⟨some d.ctrl, some d.slots⟩ ∧ t.cap = d.cap ∧
    t.mask = d.mask ∧ t.growAt = d.growAt := by
  obtain ⟨⟨ctrl, slots⟩, cap, mask, count, tombstones, growAt, old, oc, om, og, og'⟩ := t
  cases ctrl with
  | none => cases h.table
  | some c =>
    cases slots with
    | none => cases h.table
    | some s =>
      have ht := Option.some.inj h.table
      rw [← ht]
      exact ⟨rfl, rfl, rfl, rfl⟩

theorem Lies.migrate (h : Lies t d) {batch : ℕ} (ho : d.old.isSome) :
    ∃ t', t.migrateBatch batch = some t' ∧ Lies t' (tableMigrateBatch d batch) := by
  have hno : ¬t.old.ctrl.isNone = true := by
    rw [Option.isNone_iff_eq_none, ← ne_eq, ← Option.isSome_iff_ne_none, h.old_isSome]
    exact ho
  refine ⟨t.store (tableMigrateBatch d batch), ?_, lies_store _ _⟩
  rw [TableMem.migrateBatch, if_neg hno, h.table]
  rfl

/-- The table that a growth migrates to, before it migrates anything. -/
def fresh (d : DpTable) : DpTable :=
  let newCap := if d.cap * 2 < 32 then 32 else d.cap * 2
  ⟨fun _ ↦ ctrlEmpty, fun _ ↦ .zero, newCap, newCap - 1, 0, 0, newCap * maxLoadNum / groupSize,
    some ⟨d.ctrl, d.slots, d.cap, 0⟩⟩

theorem growFresh_eq (h : t.cur = ⟨some d.ctrl, some d.slots⟩) (hcap : t.cap = d.cap) :
    t.growFresh (true, true) =
      (((fresh d).mem t.mask t.growAt).migrateBatch (d.cap % 2 ^ 32)).map fun t ↦ (.ok, t) := by
  obtain ⟨cur, cap, mask, count, tombstones, growAt, old, oc, om, og, og'⟩ := t
  obtain rfl : cur = _ := h
  obtain rfl : cap = _ := hcap
  rfl

theorem Lies.growFresh (h : Lies t d) :
    ∃ t', t.growFresh (true, true) = some (.ok, t') ∧ t'.table = tableGrow.grow true d := by
  obtain ⟨hcur, hcap, -, -⟩ := h.fields
  have hlies : Lies ((fresh d).mem t.mask t.growAt) (fresh d) := lies_mem _ _ _
  obtain ⟨t', ht', hlies'⟩ := @Lies.migrate _ _ hlies (d.cap % 2 ^ 32) rfl
  refine ⟨t', by rw [growFresh_eq hcur hcap, ht']; rfl, ?_⟩
  rw [hlies'.table]
  rfl

/-- A growth that meets a failing allocation frees the arrays it was to keep. -/
theorem Lies.growFresh_fails (h : Lies t d) (hm : m ≠ (true, true)) :
    ∃ t', t.growFresh m = some (.enomem, t') ∧ t'.cur = .null ∧
      t'.growAt = (if d.cap * 2 < 32 then 32 else d.cap * 2) * maxLoadNum / groupSize := by
  obtain ⟨-, hcap, -, -⟩ := h.fields
  obtain ⟨a, b⟩ := m
  rw [← hcap]
  cases a with
  | false => exact ⟨_, rfl, rfl, rfl⟩
  | true =>
    cases b with
    | false => exact ⟨_, rfl, rfl, rfl⟩
    | true => exact (hm rfl).elim

/-- The outcome of a growth of the table `d` that `ok` lets succeed. -/
structure Grown (d : DpTable) (next : Option DpTable) (ok : Prop) (rc : Rc) (t : TableMem) :
    Prop where
  table : t.table = next
  rc_ok : rc = .ok ↔ ok
  lost : rc ≠ .ok → t.cur = .null ∧
    t.growAt = (if d.cap * 2 < 32 then 32 else d.cap * 2) * maxLoadNum / groupSize

theorem Lies.growFresh_grown (h : Lies t d) (m : Bool × Bool) : ∃ rc t',
    t.growFresh m = some (rc, t') ∧
      Grown d (tableGrow.grow (m = (true, true)) d) (m = (true, true)) rc t' := by
  by_cases hm : m = (true, true)
  · subst hm
    obtain ⟨t', ht', htable⟩ := h.growFresh
    exact ⟨_, t', ht', htable, ⟨fun _ ↦ rfl, fun _ ↦ rfl⟩, fun hrc ↦ (hrc rfl).elim⟩
  · obtain ⟨t', ht', hcur, hat⟩ := h.growFresh_fails hm
    refine ⟨_, t', ht', ?_, ⟨fun hrc ↦ (by cases hrc), fun hok ↦ (hm hok).elim⟩, fun _ ↦ ⟨hcur, hat⟩⟩
    rw [decide_eq_false hm, TableMem.table, hcur]
    rfl

/-- What `table_grow` does with a table in memory: it returns early, it grows, or it fails. -/
theorem Lies.grow (h : Lies t d) (m : Bool × Bool) : ∃ rc t', t.tableGrow m = some (rc, t') ∧
    Grown d (tableGrow (m = (true, true)) d) (m = (true, true) ∨ StillMigrating d) rc t' := by
  cases ho : d.old with
  | none =>
    obtain ⟨rc, t', ht', hg⟩ := h.growFresh_grown m
    have hsome : ¬t.old.ctrl.isSome = true := by
      rw [h.old_isSome, ho]
      exact Bool.false_ne_true
    have hno : ¬StillMigrating d := by
      rintro ⟨o, ho', -⟩
      rw [ho] at ho'
      cases ho'
    refine ⟨rc, t', by rw [TableMem.tableGrow, if_neg hsome, ht'], ?_, ?_, hg.lost⟩
    · rw [hg.table, tableGrow, ho]
    · rw [hg.rc_ok, or_iff_left hno]
  | some o =>
    have hsome : t.old.ctrl.isSome = true := by
      rw [h.old_isSome, ho]
      rfl
    obtain ⟨t₁, ht₁, h₁⟩ := @Lies.migrate _ _ h (o.cap % 2 ^ 32) (by rw [ho]; rfl)
    have hstill : StillMigrating d ↔ t₁.old.ctrl.isSome = true := by
      rw [h₁.old_isSome]
      constructor
      · rintro ⟨o', ho', hs⟩
        obtain rfl := Option.some.inj (ho.symm.trans ho')
        exact hs
      · exact fun hs ↦ ⟨o, ho, hs⟩
    have hrun : t.tableGrow m = if t₁.old.ctrl.isSome then some (.ok, t₁) else t₁.growFresh m := by
      rw [TableMem.tableGrow, if_pos hsome, h.oldCap o ho, ht₁, Option.bind_some]
    have htable : tableGrow (m = (true, true)) d =
        if t₁.old.ctrl.isSome then some (tableMigrateBatch d (o.cap % 2 ^ 32))
        else tableGrow.grow (m = (true, true)) (tableMigrateBatch d (o.cap % 2 ^ 32)) := by
      rw [tableGrow, ho, h₁.old_isSome]
    rw [hrun, htable]
    by_cases hs : t₁.old.ctrl.isSome = true
    · rw [if_pos hs, if_pos hs]
      exact ⟨_, _, rfl, h₁.table, ⟨fun _ ↦ .inr (hstill.mpr hs), fun _ ↦ rfl⟩,
        fun hrc ↦ (hrc rfl).elim⟩
    · rw [if_neg hs, if_neg hs]
      obtain ⟨rc, t', ht', hg⟩ := h₁.growFresh_grown m
      refine ⟨rc, t', ht', hg.table, ?_, ?_⟩
      · rw [hg.rc_ok, or_iff_left fun h ↦ hs (hstill.mp h)]
      · have hlost := hg.lost
        rwa [(tableMigrateBatch_geared d _).1] at hlost

end memory

/-- In every table that a run of calls leaves, a growth that fails loses the table: the old one is
kept exactly when no error is returned. -/
theorem failed_growth_keeps_iff {hash : List UInt8 → UInt64} {cap : ℕ} {t₀ d : DpTable}
    {ops : List (Bool × Op)} (ht₀ : tableAlloc true tableInit cap = some t₀)
    (hd : runIn hash ops t₀ = some d) (oldMask oldGrowAt : ℕ) (m : Bool × Bool) : ∃ rc t',
      (d.mem oldMask oldGrowAt).tableGrow m = some (rc, t') ∧
      ((rc ≠ .ok → Kept (d.mem oldMask oldGrowAt) t') ↔ m = (true, true) ∨ StillMigrating d) := by
  obtain ⟨rc, t', ht', hg⟩ := (lies_mem d oldMask oldGrowAt).grow m
  refine ⟨rc, t', ht', ⟨fun h ↦ ?_, fun h hrc ↦ (hrc (hg.rc_ok.mpr h)).elim⟩⟩
  by_contra hno
  have hrc : rc ≠ .ok := fun hrc ↦ hno (hg.rc_ok.mp hrc)
  have hat := (h hrc).growAt
  have hgeared : d.growAt = d.cap * 14 / 16 := (Geared.alloc ht₀).run hd
  rw [(hg.lost hrc).2] at hat
  change (if d.cap * 2 < 32 then 32 else d.cap * 2) * 14 / 16 = d.growAt at hat
  rw [hgeared] at hat
  split at hat
  · omega
  · omega

/-- A table of one group with one key, and a growth that gets its control bytes only. -/
theorem failed_growth_keeps_iff_one : ∃ t₀ d, tableAlloc true tableInit 16 = some t₀ ∧
    runIn (fun _ ↦ 5) [(true, .put [1] ⟨some [10], 1, 0⟩)] t₀ = some d ∧ ∃ rc t',
      (d.mem 0 0).tableGrow (true, false) = some (rc, t') ∧
      ((rc ≠ .ok → Kept (d.mem 0 0) t') ↔ (true, false) = (true, true) ∨ StillMigrating d) := by
  obtain ⟨t₀, ht₀⟩ : ∃ t₀, tableAlloc true tableInit 16 = some t₀ := ⟨_, rfl⟩
  have hrun : ((tableAlloc true tableInit 16).bind
      (runIn (fun _ ↦ 5) [(true, .put [1] ⟨some [10], 1, 0⟩)])).isSome = true := by decide +kernel
  rw [ht₀, Option.bind_some] at hrun
  obtain ⟨d, hd⟩ := Option.isSome_iff_exists.mp hrun
  exact ⟨t₀, d, ht₀, hd, failed_growth_keeps_iff ht₀ hd 0 0 (true, false)⟩

/-- A fresh table of one group whose growth meets no memory. -/
theorem failed_growth_forgets : ∃ t₀, tableAlloc true tableInit 16 = some t₀ ∧
    ¬∀ m rc t', (t₀.mem 0 0).tableGrow m = some (rc, t') → rc ≠ .ok → Kept (t₀.mem 0 0) t' := by
  refine ⟨_, rfl, fun h ↦ ?_⟩
  have hat := (h (false, false) _ _ rfl (by decide)).growAt
  exact absurd hat (by decide)

end Xxfs.SwissTable

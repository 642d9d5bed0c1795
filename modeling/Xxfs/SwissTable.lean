import Xxfs.Lib.GroupTable
import Xxfs.PagedIndex

namespace Xxfs.SwissTable

open Xxfs.DiskFormat Xxfs.Machine Xxfs.PagedIndex Xxfs.Lib.GroupTable

def groupSize : ℕ := 16
def ctrlEmpty : UInt8 := 0x80
def ctrlDeleted : UInt8 := 0xFE
def maxLoadNum : ℕ := 14

/-- `struct dp_slot`; a null pointer is `none`. -/
structure DpSlot where
  hash : UInt64
  key : Option (List UInt8)
  val : Option (List UInt8)
  klen : ℕ
  vlen : ℕ
  fileOff : UInt64
  deriving DecidableEq

def DpSlot.zero : DpSlot := ⟨0, none, none, 0, 0, 0⟩

/-- The table that a growth has left behind, with what has been migrated of it. -/
structure OldTable where
  ctrl : ℕ → UInt8
  slots : ℕ → DpSlot
  cap : ℕ
  migrated : ℕ

structure DpTable where
  ctrl : ℕ → UInt8
  slots : ℕ → DpSlot
  cap : ℕ
  mask : ℕ
  count : ℕ
  tombstones : ℕ
  growAt : ℕ
  old : Option OldTable

def matchGroup (ctrl : ℕ → UInt8) (base : ℕ) (tag : UInt8) : List ℕ :=
  (List.range groupSize).filter fun i ↦ ctrl (base + i) == tag

def matchEmpty (ctrl : ℕ → UInt8) (base : ℕ) : List ℕ := matchGroup ctrl base ctrlEmpty

def ctrlTag (hash : UInt64) : UInt8 := (hash &&& 0x7F).toUInt8

def groupIdx (hash : UInt64) (mask : ℕ) : ℕ := (hash >>> 7).toNat &&& (mask / groupSize)

def tableInit : DpTable :=
  ⟨fun _ ↦ 0, fun _ ↦ .zero, 0, 0, 0, 0, 0, none⟩

/-- `mem` tells whether the allocations succeed. If one fails, `table_destroy` leaves a table
without arrays, and the outcome is `none`. -/
def tableAlloc (mem : Bool) (t : DpTable) (cap : ℕ) : Option DpTable :=
  if mem then some { t with
    cap := cap
    mask := cap - 1
    growAt := cap * maxLoadNum / groupSize
    ctrl := fun _ ↦ ctrlEmpty
    slots := fun _ ↦ .zero }
  else none

/-- The comparison of a slot with the key of a call. -/
def sameKey (s : DpSlot) (hash : UInt64) (key : Option (List UInt8)) (klen : ℕ) : Bool :=
  s.hash == hash && s.klen == klen &&
    match s.key, key with
    | some k, some k' => sameBytes (bytesAt k) (bytesAt k') klen
    | _, _ => false

/-- The `while (m)` loop over the slots of the group that have the tag of the hash. -/
def findInGroup (t : DpTable) (hash : UInt64) (key : Option (List UInt8)) (klen g : ℕ) :
    Option ℕ :=
  ((matchGroup t.ctrl (g * groupSize) (ctrlTag hash)).find? fun bit ↦
    sameKey (t.slots (g * groupSize + bit)) hash key klen).map fun bit ↦ g * groupSize + bit

/-- `__builtin_ctz` of a mask of the group, as an index of the table. -/
def lowest (g : ℕ) (m : List ℕ) : Option ℕ := m.head?.map fun bit ↦ g * groupSize + bit

def findLoop (t : DpTable) (hash : UInt64) (key : Option (List UInt8)) (klen nr : ℕ) :
    ℕ → ℕ → Option ℕ
  | 0, _ => none
  | n + 1, g =>
    match findInGroup t hash key klen g with
    | some idx => some idx
    | none =>
      if (lowest g (matchEmpty t.ctrl (g * groupSize))).isSome then none
      else findLoop t hash key klen nr n ((g + 1) &&& (nr - 1))

def tableFind (t : DpTable) (hash : UInt64) (key : Option (List UInt8)) (klen : ℕ) : Option ℕ :=
  findLoop t hash key klen (t.cap / groupSize) (t.cap / groupSize) (groupIdx hash t.mask)

/-- The probe loop of `table_insert`. The last argument is `first_del`. -/
def insertLoop (t : DpTable) (s : DpSlot) (nr : ℕ) : ℕ → ℕ → Option ℕ → Spot
  | 0, _, some idx => .reused idx
  | 0, _, none => .none
  | n + 1, g, firstDel =>
    match findInGroup t s.hash s.key s.klen g with
    | some idx => .found idx
    | none =>
      let firstDel := firstDel.or (lowest g (matchGroup t.ctrl (g * groupSize) ctrlDeleted))
      match lowest g (matchEmpty t.ctrl (g * groupSize)) with
      | some idx => .vacant (firstDel.getD idx)
      | none => insertLoop t s nr n ((g + 1) &&& (nr - 1)) firstDel

/-- `table_insert`. The other arguments of the call are the fields of the slot `s`. -/
def tableInsert (t : DpTable) (s : DpSlot) : ℤ × DpTable :=
  match insertLoop t s (t.cap / groupSize) (t.cap / groupSize) (groupIdx s.hash t.mask) none with
  | .found idx => (1, { t with
      slots := Function.update t.slots idx { t.slots idx with
        val := s.val, vlen := s.vlen, fileOff := s.fileOff } })
  | .vacant idx => (0, { t with
      ctrl := Function.update t.ctrl idx (ctrlTag s.hash)
      slots := Function.update t.slots idx s
      count := t.count + 1
      tombstones := if t.ctrl idx = ctrlDeleted then t.tombstones - 1 else t.tombstones })
  | .reused idx => (0, { t with
      ctrl := Function.update t.ctrl idx (ctrlTag s.hash)
      slots := Function.update t.slots idx s
      count := t.count + 1
      tombstones := t.tombstones - 1 })
  | .none => (-1, t)

def migrateLoop : ℕ → DpTable → DpTable
  | 0, t => t
  | n + 1, t =>
    match t.old with
    | none => t
    | some o =>
      if o.migrated < o.cap then
        let t := { t with old := some { o with migrated := o.migrated + 1 } }
        if o.ctrl o.migrated ≠ ctrlEmpty ∧ o.ctrl o.migrated ≠ ctrlDeleted then
          migrateLoop n (tableInsert t (o.slots o.migrated)).2
        else migrateLoop n t
      else t

/-- `table_migrate_batch`: the old table is freed once all of it has been migrated. -/
def tableMigrateBatch (t : DpTable) (batch : ℕ) : DpTable :=
  let t := migrateLoop batch t
  match t.old with
  | none => t
  | some o => if o.cap ≤ o.migrated then { t with old := none } else t

def tableGrow (mem : Bool) (t : DpTable) : Option DpTable :=
  match t.old with
  | none => grow t
  | some o =>
    let t := tableMigrateBatch t (o.cap % 2 ^ 32)
    if t.old.isSome then some t else grow t
where
  /-- The part of the growth that follows the migration of an older table. -/
  grow (t : DpTable) : Option DpTable := do
    let newCap := if t.cap * 2 < 32 then 32 else t.cap * 2
    let t' ← tableAlloc mem { t with old := some ⟨t.ctrl, t.slots, t.cap, 0⟩ } newCap
    return tableMigrateBatch { t' with count := 0, tombstones := 0 } (t.cap % 2 ^ 32)

/-- `table_put`; `none` means that it runs into a table whose growth failed. -/
def tablePut (mem : Bool) (t : DpTable) (s : DpSlot) : Option (ℤ × DpTable) :=
  (if t.growAt ≤ t.count + t.tombstones then tableGrow mem t else some t).bind fun t ↦
    let t := if t.old.isSome then tableMigrateBatch t 64 else t
    let r := tableInsert t s
    if r.1 < 0 then (tableGrow mem r.2).map fun t ↦ tableInsert t s else some r

def tableDel (t : DpTable) (hash : UInt64) (key : Option (List UInt8)) (klen : ℕ) :
    Rc × DpTable :=
  match tableFind t hash key klen with
  | none => (.enoent, t)
  | some idx => (.ok, { t with
      slots := Function.update t.slots idx .zero
      ctrl := Function.update t.ctrl idx ctrlDeleted
      count := t.count - 1
      tombstones := t.tombstones + 1 })

end Xxfs.SwissTable

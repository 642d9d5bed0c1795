import Xxfs.AllocatorSpec
import Xxfs.PageStore

namespace Xxfs.IndexRep

open Xxfs.DiskFormat Xxfs.Machine Xxfs.Allocator Xxfs.PageCache Xxfs.PagedIndex Xxfs.PageStore
open Xxfs.Hash Xxfs.Frames

/-- An entry of the index. Its value lies in a record of its own at `loc`, or in the page. -/
structure Ent where
  key : Path
  val : List UInt8
  loc : Option UInt64

structure RecordAt (img : Image) (off : UInt64) (key : Path) (val : List UInt8) : Prop where
  keyBytes : ∀ j < key.length, img.data (off.toNat + 8 + j) = bytesAt key j
  valBytes : ∀ j < val.length, img.data (off.toNat + 8 + key.length + j) = bytesAt val j
  size : off.toNat + 8 + key.length + val.length ≤ img.size

structure InlineAt (pg : PagedPage) (start : ℕ) (key : Path) (val : List UInt8) : Prop where
  keyBytes : ∀ j < key.length, pg.inlineByte (start + j) = bytesAt key j
  valBytes : ∀ j < val.length, pg.inlineByte (start + key.length + j) = bytesAt val j
  bound : start + key.length + val.length ≤ pg.inlineUsed.toNat

/-- The bytes of the entry are where its slot says. -/
def Body (img : Image) (pg : PagedPage) (s : PagedSlot) (e : Ent) : Prop :=
  match e.loc with
  | none => s.flags &&& slotFInline ≠ 0 ∧ InlineAt pg s.fileOff.toNat e.key e.val
  | some off => s.flags &&& slotFInline = 0 ∧ s.fileOff = off ∧ RecordAt img off e.key e.val

structure SlotRep (img : Image) (pg : PagedPage) (s : PagedSlot) (e : Ent) : Prop where
  hash : s.hash = xxh64 e.key
  klen : s.klen = UInt32.ofNat e.key.length
  vlen : s.vlen = UInt32.ofNat e.val.length
  small : 8 + e.key.length + e.val.length ≤ 4096
  keyPrefix : ∀ j < min e.key.length keyPrefixLen, (arr s.keyPrefix).2 j = bytesAt e.key j
  body : Body img pg s e

structure PageRep (img : Image) (pg : PagedPage) (ents : List Ent) : Prop where
  count : pg.count.toNat = ents.length
  cap : ents.length ≤ slotsPerPage
  used : pg.inlineUsed.toNat ≤ inlineSpace
  slots : ∀ i e, ents[i]? = some e → SlotRep img pg (pg.slot i) e
  apart : ∀ i j e e', i ≠ j → ents[i]? = some e → ents[j]? = some e' → e.loc = none →
    e'.loc = none →
    (pg.slot i).fileOff.toNat + e.key.length + e.val.length ≤ (pg.slot j).fileOff.toNat ∨
    (pg.slot j).fileOff.toNat + e'.key.length + e'.val.length ≤ (pg.slot i).fileOff.toNat

/-- What `paged_put` and `paged_del` compare of two keys. -/
def Alike (key k : Path) : Prop :=
  xxh64 k = xxh64 key ∧ k.length = key.length ∧
    ∀ j < min key.length keyPrefixLen, bytesAt k j = bytesAt key j

instance (key k : Path) : Decidable (Alike key k) :=
  inferInstanceAs (Decidable (_ ∧ _ ∧ ∀ j < min key.length keyPrefixLen, _))

theorem Alike.refl (key : Path) : Alike key key := ⟨rfl, rfl, fun _ _ ↦ rfl⟩

/-- A chain of pages: the offset of each and what it holds. -/
abbrev Chain := List (UInt64 × List Ent)

def locs (ents : List Ent) : List UInt64 := ents.filterMap Ent.loc

def offs (L : Chain) : List UInt64 := L.map Prod.fst

def recs (L : Chain) : List UInt64 := L.flatMap fun p ↦ locs p.2

def blocks (L : Chain) : List UInt64 := offs L ++ recs L

def ents (L : Chain) : List Ent := L.flatMap Prod.snd

def headOff : Chain → UInt64
  | [] => 0
  | p :: _ => p.1

def Links (fs : Fs) : Chain → Prop
  | [] => True
  | p :: rest => (pageAt fs p.1).overflowNext = headOff rest ∧ Links fs rest

/-- The pages, the records and the directory in `fs` are those of the chain `L`. -/
structure Represents (fs : Fs) (L : Chain) : Prop where
  ne : L ≠ []
  dir : fs.pdir = ⟨[headOff L], 0⟩
  pool : PoolOk fs.sb
  bound : front fs.sb < 2 ^ 63
  pages : PagesOk fs (offs L)
  reps : ∀ p ∈ L, PageRep fs.img (pageAt fs p.1) p.2
  links : Links fs L
  nodup : (blocks L).Nodup
  within : ∀ b ∈ blocks L, b.toNat % 4096 = 0 ∧ fs.sb.sDataOff.toNat ≤ b.toNat ∧
    b.toNat + 4096 ≤ front fs.sb

section congr

variable {img img' : Image} {pg : PagedPage}

theorem RecordAt.congr {off : UInt64} {key : Path} {val : List UInt8}
    (h : RecordAt img off key val) (hs : 8 + key.length + val.length ≤ 4096)
    (hd : ∀ i, InBlock off i → img'.data i = img.data i) (hsz : img.size ≤ img'.size) :
    RecordAt img' off key val := by
  refine ⟨fun j hj ↦ ?_, fun j hj ↦ ?_, h.size.trans hsz⟩
  · rw [hd _ ⟨by omega, by omega⟩]
    exact h.keyBytes j hj
  · rw [hd _ ⟨by omega, by omega⟩]
    exact h.valBytes j hj

theorem Body.congr {s : PagedSlot} {e : Ent} (h : Body img pg s e)
    (hs : 8 + e.key.length + e.val.length ≤ 4096)
    (hd : ∀ off, e.loc = some off → ∀ i, InBlock off i → img'.data i = img.data i)
    (hsz : img.size ≤ img'.size) : Body img' pg s e := by
  unfold Body at h ⊢
  cases hl : e.loc with
  | none => rwa [hl] at h
  | some off =>
    rw [hl] at h
    exact ⟨h.1, h.2.1, h.2.2.congr hs (hd off hl) hsz⟩

theorem SlotRep.congr {s : PagedSlot} {e : Ent} (h : SlotRep img pg s e)
    (hd : ∀ off, e.loc = some off → ∀ i, InBlock off i → img'.data i = img.data i)
    (hsz : img.size ≤ img'.size) : SlotRep img' pg s e :=
  ⟨h.hash, h.klen, h.vlen, h.small, h.keyPrefix, h.body.congr h.small hd hsz⟩

theorem mem_locs {l : List Ent} {e : Ent} {off : UInt64} (he : e ∈ l) (hl : e.loc = some off) :
    off ∈ locs l :=
  List.mem_filterMap.mpr ⟨e, he, hl⟩

theorem PageRep.congr {l : List Ent} (h : PageRep img pg l)
    (hd : ∀ off ∈ locs l, ∀ i, InBlock off i → img'.data i = img.data i)
    (hsz : img.size ≤ img'.size) : PageRep img' pg l := by
  refine ⟨h.count, h.cap, h.used, fun i e he ↦ ?_, h.apart⟩
  exact (h.slots i e he).congr
    (fun off hl ↦ hd off (mem_locs (List.mem_of_getElem? he) hl)) hsz

theorem Links.congr {fs fs' : Fs} {L : Chain} (h : Links fs L)
    (hp : ∀ o ∈ offs L, pageAt fs' o = pageAt fs o) : Links fs' L := by
  induction L with
  | nil => trivial
  | cons p rest ih =>
    refine ⟨?_, ih h.2 fun o ho ↦ hp o (List.mem_cons_of_mem _ ho)⟩
    rw [hp p.1 List.mem_cons_self]
    exact h.1

end congr

section parts

variable {pre post : Chain} {p : UInt64 × List Ent}

@[simp] theorem offs_append (L L' : Chain) : offs (L ++ L') = offs L ++ offs L' :=
  List.map_append

@[simp] theorem recs_append (L L' : Chain) : recs (L ++ L') = recs L ++ recs L' :=
  List.flatMap_append

@[simp] theorem offs_cons (L : Chain) : offs (p :: L) = p.1 :: offs L := rfl

@[simp] theorem recs_cons (L : Chain) : recs (p :: L) = locs p.2 ++ recs L := rfl

theorem mem_recs {L : Chain} {off : UInt64} (hp : p ∈ L) (h : off ∈ locs p.2) : off ∈ recs L :=
  List.mem_flatMap.mpr ⟨p, hp, h⟩

theorem mem_offs {L : Chain} (hp : p ∈ L) : p.1 ∈ offs L := List.mem_map_of_mem hp

theorem offs_subset_blocks {L : Chain} {b : UInt64} (h : b ∈ offs L) : b ∈ blocks L :=
  List.mem_append_left _ h

theorem recs_subset_blocks {L : Chain} {b : UInt64} (h : b ∈ recs L) : b ∈ blocks L :=
  List.mem_append_right _ h

end parts

namespace Represents

variable {fs : Fs} {L : Chain} (h : Represents fs L)
include h

theorem usable {b : UInt64} (hb : b ∈ blocks L) : Usable b := by
  obtain ⟨ha, -, hf⟩ := h.within b hb
  exact ⟨ha, hf.trans h.bound.le⟩

theorem rec_not_off {r o : UInt64} (hr : r ∈ recs L) (ho : o ∈ offs L) : r ≠ o := by
  rintro rfl
  exact (List.nodup_append.mp h.nodup).2.2 r ho r hr rfl

theorem rec_outside {r : UInt64} (hr : r ∈ recs L) {i : ℕ} (hi : InBlock r i) :
    ∀ o ∈ offs L, ¬InBlock o i := fun _ ho ↦
  (h.usable (recs_subset_blocks hr)).disjoint (h.usable (offs_subset_blocks ho))
    (h.rec_not_off hr ho) hi

theorem ne_zero {b : UInt64} (hb : b ∈ blocks L) : b ≠ 0 := by
  rintro rfl
  have hw := (h.within 0 hb).2.1
  have hpos := h.pool.pos
  change _ ≤ 0 at hw
  omega

theorem quiet {fs' : Fs} (hk : PagesOk fs' (offs L)) (hq : Quiet (offs L) fs fs') :
    Represents fs' L := by
  refine ⟨h.ne, hq.pdir.trans h.dir, by rw [hq.sb]; exact h.pool, by rw [hq.sb]; exact h.bound, hk,
    fun p hp ↦ ?_, h.links.congr hq.pages, h.nodup, by rw [hq.sb]; exact h.within⟩
  rw [hq.pages p.1 (mem_offs hp)]
  refine (h.reps p hp).congr (fun off hoff i hi ↦ hq.data i ?_) hq.size
  exact h.rec_outside (mem_recs hp hoff) hi

theorem same {fs' : Fs} (hi : fs'.img = fs.img) (hs : fs'.sb = fs.sb) (hd : fs'.pdir = fs.pdir)
    (hc : fs'.pcache = fs.pcache) : Represents fs' L := by
  have hat (o : UInt64) : pageAt fs' o = pageAt fs o := by rw [pageAt, pageAt, hc, hi]
  refine h.quiet ⟨h.pages.usable, ?_, ?_, ?_⟩
    ⟨hs, hd, fun o _ ↦ hat o, fun i _ ↦ by rw [hi], by rw [hi]⟩
  · rw [hc]; exact h.pages.mem
  · rw [hc]; exact h.pages.slot
  · rw [hc, hi]; exact h.pages.clean

theorem recount {fs' : Fs} (hi : fs'.img = fs.img) (hd : fs'.pdir = fs.pdir)
    (hc : fs'.pcache = fs.pcache)
    (hD : fs'.sb.sDataOff = fs.sb.sDataOff) (hB : fs'.sb.sBlockCount = fs.sb.sBlockCount)
    (hF : fs'.sb.sFreeBlocks = fs.sb.sFreeBlocks) : Represents fs' L := by
  have hfront : front fs'.sb = front fs.sb := by rw [front, front, hD, hB, hF]
  have hat (o : UInt64) : pageAt fs' o = pageAt fs o := by rw [pageAt, pageAt, hc, hi]
  refine ⟨h.ne, hd.trans h.dir, ⟨?_, ?_, ?_, ?_⟩, hfront ▸ h.bound,
    h.pages.of_data hc fun _ _ _ _ ↦ by rw [hi], fun p hp ↦ ?_, h.links.congr fun o _ ↦ hat o,
    h.nodup, fun b hb ↦ ?_⟩
  · rw [hD]
    exact h.pool.pos
  · rw [hD]
    exact h.pool.aligned
  · rw [hF, hB]
    exact h.pool.free_le
  · rw [poolEnd, hD, hB]
    exact h.pool.bound
  · rw [hat, hi]
    exact h.reps p hp
  · rw [hD, hfront]
    exact h.within b hb

end Represents

end Xxfs.IndexRep

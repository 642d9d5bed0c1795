import Mathlib.Data.List.GetD
import Mathlib.Data.List.Nodup
import Mathlib.Data.List.Perm.Subperm
import Xxfs.IndexRep

namespace Xxfs.IndexRep

open Xxfs.DiskFormat Xxfs.Machine Xxfs.Allocator Xxfs.PageCache Xxfs.PagedIndex Xxfs.PageStore
open Xxfs.Hash Xxfs.Frames Xxfs.Lib.Computation Xxfs.Lib.Computation.Comp

section bytes

theorem sameBytes_iff {f g : ℕ → UInt8} {n : ℕ} : sameBytes f g n = true ↔ ∀ j < n, f j = g j := by
  simp [sameBytes]

theorem eq_of_bytesAt {k k' : List UInt8} (hl : k.length = k'.length)
    (hb : ∀ j < k.length, bytesAt k j = bytesAt k' j) : k = k' := by
  refine List.ext_getElem hl fun j hj hj' ↦ ?_
  have h := hb j hj
  rwa [bytesAt, bytesAt, List.getD_eq_getElem _ _ hj, List.getD_eq_getElem _ _ hj'] at h

theorem toList_eq {f : ℕ → UInt8} {v : List UInt8} (h : ∀ j < v.length, f j = bytesAt v j) :
    toList f v.length = v := by
  refine List.ext_getElem (by simp) fun j hj hj' ↦ ?_
  simp only [toList, List.getElem_map, List.getElem_range]
  rw [h j hj', bytesAt, List.getD_eq_getElem _ _ hj']

theorem ofNat_length_inj {a b : ℕ} (ha : a < 2 ^ 32) (hb : b < 2 ^ 32) :
    UInt32.ofNat a = UInt32.ofNat b ↔ a = b := by
  constructor
  · intro h
    have := congrArg UInt32.toNat h
    rwa [UInt32.toNat_ofNat_of_lt' ha, UInt32.toNat_ofNat_of_lt' hb] at this
  · rintro rfl
    rfl

end bytes

section slot

variable {img : Image} {pg : PagedPage} {s : PagedSlot} {e : Ent} {key : Path}

theorem SlotRep.klen_lt (h : SlotRep img pg s e) : e.key.length < 2 ^ 32 := by
  have := h.small
  omega

theorem SlotRep.vlen_toNat (h : SlotRep img pg s e) : s.vlen.toNat = e.val.length := by
  have := h.small
  rw [h.vlen]
  exact UInt32.toNat_ofNat_of_lt' (by change _ < 2 ^ 32; omega)

/-- What the test of `paged_put` and `paged_del` finds out. -/
theorem SlotRep.matches_iff (h : SlotRep img pg s e) (hk : key.length < 2 ^ 32) :
    slotMatches s (xxh64 key) key = true ↔ Alike key e.key := by
  simp only [Alike, slotMatches, h.hash, h.klen, Bool.and_eq_true, beq_iff_eq, sameBytes_iff,
    ofNat_length_inj h.klen_lt hk, and_assoc]
  refine and_congr_right fun _ ↦ and_congr_right fun hl ↦ ?_
  refine forall₂_congr fun j hj ↦ ?_
  rw [h.keyPrefix j (by omega)]

theorem SlotRep.matches_self (h : SlotRep img pg s e) : slotMatches s (xxh64 e.key) e.key = true :=
  (h.matches_iff h.klen_lt).mpr (.refl _)

/-- The whole key is compared, if not by its prefix then by the stored bytes `f`. -/
theorem SlotRep.eq_iff (h : SlotRep img pg s e) (hk : key.length < 2 ^ 32) {f : ℕ → UInt8}
    (hf : ∀ j < e.key.length, f j = bytesAt e.key j) :
    e.key = key ↔ slotMatches s (xxh64 key) key = true ∧
      ¬(key.length > keyPrefixLen ∧ sameBytes (bytesAt key) f key.length = false) := by
  rw [h.matches_iff hk]
  constructor
  · rintro rfl
    refine ⟨⟨rfl, rfl, fun _ _ ↦ rfl⟩, fun ⟨_, hs⟩ ↦ ?_⟩
    rw [sameBytes_iff.mpr fun j hj ↦ (hf j hj).symm] at hs
    cases hs
  · rintro ⟨⟨-, hl, hp⟩, hs⟩
    refine eq_of_bytesAt hl fun j hj ↦ ?_
    rcases Nat.lt_or_ge j keyPrefixLen with hj' | hj'
    · exact hp j (by omega)
    · have hs' : sameBytes (bytesAt key) f key.length = true := by
        by_contra hc
        exact hs ⟨by omega, by simpa using hc⟩
      rw [sameBytes_iff.mp hs' j (by omega), hf j hj]

def answer (e : Ent) (cap : ℕ) : Except Rc (List UInt8) :=
  if e.val.length > cap then .error .enospc else .ok e.val

theorem recBuffer_apply {env : Env} (he : Healthy env) (fs : Fs) (len : ℕ) : ∃ buf c,
    recBuffer env len fs = some (some buf, { fs with clock := c }) := by
  simp only [recBuffer, bind_apply, get_apply, Option.bind_some, if_apply, pure_apply,
    he.osAlloc_apply, ↓reduceIte]
  split
  · exact ⟨_, _, rfl⟩
  · exact ⟨_, _, rfl⟩

theorem getSlot_apply {env : Env} (he : Healthy env) {fs : Fs} (cap : ℕ) {i : ℕ}
    (h : SlotRep fs.img pg (pg.slot i) e) (hu : ∀ off, e.loc = some off → Usable off)
    (hk : key.length < 2 ^ 32) : ∃ c, getSlot env pg (xxh64 key) key cap i fs =
      some (if e.key = key then some (answer e cap) else none, { fs with clock := c }) := by
  have hb := h.body
  unfold Body at hb
  cases hm : slotMatches (pg.slot i) (xxh64 key) key with
  | false =>
    have hne : e.key ≠ key := by
      rintro rfl
      rw [h.matches_self] at hm
      cases hm
    refine ⟨fs.clock, ?_⟩
    simp only [getSlot, hm, ↓reduceIte, pure_apply, hne]
  | true =>
    have hl := ((h.matches_iff hk).mp hm).2.1
    cases hloc : e.loc with
    | none =>
      rw [hloc] at hb
      have heq := h.eq_iff hk hb.2.keyBytes
      refine ⟨fs.clock, ?_⟩
      simp only [getSlot, hm, Bool.true_eq_false, ↓reduceIte, hb.1, ne_eq, not_false_eq_true,
        if_apply, pure_apply, h.vlen_toNat]
      by_cases hkey : e.key = key
      · rw [if_neg (heq.mp hkey).2, if_pos hkey, answer]
        split
        · rfl
        · rw [toList_eq]
          intro j hj
          rw [← hl]
          exact hb.2.valBytes j hj
      · have hc : key.length > keyPrefixLen ∧ sameBytes (bytesAt key)
            (fun j ↦ pg.inlineByte ((pg.slot i).fileOff.toNat + j)) key.length = false := by
          by_contra hc
          exact hkey (heq.mpr ⟨hm, hc⟩)
        rw [if_pos hc, if_neg hkey]
    | some off =>
      rw [hloc] at hb
      obtain ⟨hflag, hoff, hrec⟩ := hb
      have hub := (hu off hloc).bound
      obtain ⟨buf, c, hbuf⟩ := recBuffer_apply he fs (recLen key.length e.val.length)
      have hsize := hrec.size
      have hread : min (recLen key.length e.val.length) (fs.img.size - off.toNat) =
          recLen key.length e.val.length := by simp only [recLen]; omega
      have hlen : recLen key.length e.val.length = 8 + e.key.length + e.val.length := by
        rw [recLen, hl]
      have heq := h.eq_iff hk (f := fun j ↦ if 8 + j < recLen key.length e.val.length then
        fs.img.data (off.toNat + (8 + j)) else buf (8 + j)) (fun j hj ↦ by
          rw [if_pos (by omega), ← Nat.add_assoc]
          exact hrec.keyBytes j hj)
      refine ⟨c + 1, ?_⟩
      simp only [getSlot, hm, Bool.true_eq_false, ↓reduceIte, hflag, ne_eq, not_true_eq_false,
        bind_apply, h.vlen_toNat, hbuf, Option.bind_some, hoff]
      rw [he.osPread_apply _ _ _ (by omega)]
      simp only [Option.bind_some, hread, if_apply, pure_apply]
      by_cases hkey : e.key = key
      · rw [if_neg (heq.mp hkey).2, if_pos hkey, answer]
        split
        · rfl
        · rw [toList_eq]
          intro j hj
          rw [if_pos (by omega), ← hl, ← Nat.add_assoc, ← Nat.add_assoc]
          exact hrec.valBytes j hj
      · rw [if_pos, if_neg hkey]
        by_contra hc
        exact hkey (heq.mpr ⟨hm, hc⟩)

end slot

/-- The entry that a search for the key meets first. -/
def lookup (es : List Ent) (key : Path) : Option Ent := es.find? fun e ↦ e.key == key

theorem lookup_append (es es' : List Ent) (key : Path) :
    lookup (es ++ es') key = (lookup es key).or (lookup es' key) :=
  List.find?_append

theorem lookup_eq_none {es : List Ent} {key : Path} :
    lookup es key = none ↔ ∀ e ∈ es, e.key ≠ key := by
  simp [lookup]

theorem lookup_some {es : List Ent} {key : Path} {e : Ent} (h : lookup es key = some e) :
    e ∈ es ∧ e.key = key :=
  ⟨List.mem_of_find?_eq_some h, by simpa using List.find?_some h⟩

theorem findSome?_range {β : Type} (es : List Ent) (g : Ent → Option β) :
    (List.range es.length).findSome? (fun i ↦ es[i]?.bind g) = es.findSome? g := by
  induction es with
  | nil => rfl
  | cons e es ih =>
    rw [List.length_cons, List.range_succ_eq_map, List.findSome?_cons, List.findSome?_map,
      List.findSome?_cons]
    simp only [List.getElem?_cons_zero, Option.bind_some, Function.comp_def,
      List.getElem?_cons_succ, ih]

theorem findSome?_answer (es : List Ent) (key : Path) (cap : ℕ) :
    es.findSome? (fun e ↦ if e.key = key then some (answer e cap) else none) =
      (lookup es key).map fun e ↦ answer e cap := by
  induction es with
  | nil => rfl
  | cons e es ih =>
    rw [List.findSome?_cons, lookup, List.find?_cons]
    by_cases h : e.key = key
    · simp [h]
    · have hb : (e.key == key) = false := by simpa using h
      simp only [h, ↓reduceIte, hb]
      exact ih

theorem PageRep.getScan_apply {env : Env} (he : Healthy env) {pg : PagedPage} {es : List Ent}
    {key : Path} (cap : ℕ) (hk : key.length < 2 ^ 32) (l : List ℕ) (hl : ∀ i ∈ l, i < es.length)
    (hu : ∀ off ∈ locs es, Usable off) (fs : Fs) (h : PageRep fs.img pg es) : ∃ c,
      getScan env pg (xxh64 key) key cap l fs = some (l.findSome? fun i ↦ es[i]?.bind fun e ↦
        if e.key = key then some (answer e cap) else none, { fs with clock := c }) := by
  induction l generalizing fs with
  | nil => exact ⟨fs.clock, rfl⟩
  | cons i l ih =>
    obtain ⟨e, hei⟩ : ∃ e, es[i]? = some e :=
      ⟨_, List.getElem?_eq_getElem (hl i List.mem_cons_self)⟩
    obtain ⟨c, hc⟩ := getSlot_apply he cap (h.slots i e hei)
      (fun off hoff ↦ hu off (mem_locs (List.mem_of_getElem? hei) hoff)) hk
    rw [getScan, bind_apply, hc, Option.bind_some, List.findSome?_cons, hei, Option.bind_some]
    by_cases hkey : e.key = key
    · simp only [hkey, ↓reduceIte]
      exact ⟨c, rfl⟩
    · simp only [hkey, ↓reduceIte]
      obtain ⟨c', hc'⟩ := ih (fun j hj ↦ hl j (List.mem_cons_of_mem _ hj)) { fs with clock := c } h
      exact ⟨c', hc'⟩

theorem Links.suffix {fs : Fs} {pre L : Chain} (h : Links fs (pre ++ L)) : Links fs L := by
  induction pre with
  | nil => exact h
  | cons p pre ih => exact ih h.2

def found (es : List Ent) (key : Path) (cap : ℕ) : Except Rc (List UInt8) :=
  match lookup es key with
  | some e => answer e cap
  | none => .error .enoent

theorem Represents.getWalk_apply {env : Env} (he : Healthy env) {key : Path} (cap : ℕ)
    (hk : key.length < 2 ^ 32) {L : Chain} (pre S : Chain) (hL : L = pre ++ S) (n : ℕ)
    (hn : S.length < n) (fs : Fs) (h : Represents fs L) : ∃ fs',
      getWalk env (xxh64 key) key cap n (headOff S) fs = some (found (ents S) key cap, fs') ∧
        PagesOk fs' (offs L) ∧ Quiet (offs L) fs fs' := by
  induction S generalizing pre n fs with
  | nil =>
    obtain ⟨n, rfl⟩ : ∃ m, n = m + 1 := ⟨n - 1, by simp only [List.length_nil] at hn; omega⟩
    refine ⟨fs, ?_, h.pages, refl_of (Quiet _) fs⟩
    rw [getWalk, headOff, if_pos rfl]
    rfl
  | cons p S ih =>
    obtain ⟨n, rfl⟩ : ∃ m, n = m + 1 := ⟨n - 1, by omega⟩
    have hp : p ∈ L := by rw [hL]; exact List.mem_append_right _ List.mem_cons_self
    have hoff := mem_offs hp
    obtain ⟨fs₁, hload, hk₁, hq₁⟩ := pageLoad_apply he h.pages hoff
    have h₁ := h.quiet hk₁ hq₁
    have hrep : PageRep fs₁.img (pageAt fs p.1) p.2 := by
      rw [← hq₁.pages p.1 hoff]
      exact h₁.reps p hp
    obtain ⟨c, hscan⟩ := hrep.getScan_apply he cap hk (List.range p.2.length)
      (fun i hi ↦ List.mem_range.mp hi)
      (fun off ho ↦ h.usable (recs_subset_blocks (mem_recs hp ho))) fs₁
    have hq₂ : Quiet (offs L) fs { fs₁ with clock := c } :=
      trans_of (Quiet _) hq₁ (quiet_clock _ fs₁ c)
    rw [findSome?_range, findSome?_answer] at hscan
    have hwalk : getWalk env (xxh64 key) key cap (n + 1) (headOff (p :: S)) fs =
        ((lookup p.2 key).map fun e ↦ answer e cap).elim
          (getWalk env (xxh64 key) key cap n (pageAt fs p.1).overflowNext) pure
          { fs₁ with clock := c } := by
      rw [getWalk, headOff, if_neg (h.ne_zero (offs_subset_blocks hoff)), bind_apply, hload,
        Option.bind_some]
      dsimp only
      rewrite [(h.reps p hp).count, bind_apply, hscan, Option.bind_some]
      cases lookup p.2 key <;> rfl
    rw [hwalk]
    have hents : ents (p :: S) = p.2 ++ ents S := rfl
    cases hfind : lookup p.2 key with
    | some e =>
      refine ⟨_, ?_, hk₁.clock c, hq₂⟩
      rw [found, hents, lookup_append, hfind]
      rfl
    | none =>
      have hlinks : (pageAt fs p.1).overflowNext = headOff S := by
        have hl := h.links
        rw [hL] at hl
        exact hl.suffix.1
      rw [hlinks]
      obtain ⟨fs', hw, hk', hq'⟩ := ih (pre ++ [p]) (by simp [hL]) n
        (by simp only [List.length_cons] at hn; omega) { fs₁ with clock := c }
        (h.quiet (hk₁.clock c) hq₂)
      refine ⟨fs', ?_, hk', trans_of (Quiet _) hq₂ hq'⟩
      rw [found, hents, lookup_append, hfind, Option.none_or]
      exact hw

theorem length_le_of_nodup {l : List UInt64} (h : l.Nodup) {n : ℕ} (hn : ∀ o ∈ l, o.toNat < n) :
    l.length ≤ n := by
  have hnd : (l.map UInt64.toNat).Nodup :=
    List.Nodup.map (fun a b hab ↦ UInt64.toNat_inj.mp hab) h
  have hsub : l.map UInt64.toNat ⊆ List.range n := by
    intro x hx
    obtain ⟨o, ho, rfl⟩ := List.mem_map.mp hx
    exact List.mem_range.mpr (hn o ho)
  have hle := (List.subperm_of_subset hnd hsub).length_le
  rwa [List.length_map, List.length_range] at hle

theorem Represents.length_lt {fs : Fs} {L : Chain} (h : Represents fs L) :
    L.length < walkFuel := by
  have hnd : (offs L).Nodup := (List.nodup_append.mp h.nodup).1
  have hle := length_le_of_nodup hnd (n := 2 ^ 63) fun o ho ↦ by
    have := (h.usable (offs_subset_blocks ho)).bound
    omega
  rw [offs, List.length_map] at hle
  exact hle.trans_lt (by rw [walkFuel]; exact Nat.pow_lt_pow_right (by decide) (by decide))

theorem Represents.headOff_mem {fs : Fs} {L : Chain} (h : Represents fs L) :
    headOff L ∈ offs L := by
  cases L with
  | nil => exact (h.ne rfl).elim
  | cons p L => exact List.mem_cons_self

theorem Represents.headOff_used {fs : Fs} {L : Chain} (h : Represents fs L) :
    headOff L ≠ 0xFFFFFFFFFFFFFFFF := by
  intro heq
  have hb := (h.usable (offs_subset_blocks h.headOff_mem)).bound
  rw [heq] at hb
  exact absurd hb (by decide)

theorem pagedGet_apply {env : Env} (he : Healthy env) {key : Path} (cap : ℕ)
    (hk : key.length < 2 ^ 32) {fs : Fs} {L : Chain} (h : Represents fs L) : ∃ fs',
      pagedGet env key cap fs = some (found (ents L) key cap, fs') ∧ Represents fs' L ∧
        Quiet (offs L) fs fs' := by
  obtain ⟨fs', hw, hp, hq⟩ := Represents.getWalk_apply he cap hk [] L rfl walkFuel
    h.length_lt fs h
  refine ⟨fs', ?_, h.quiet hp hq, hq⟩
  have hb : hasBucket fs (dirIndex (xxh64 key) 0) = true := by
    simp [hasBucket, h.dir, dirIndex, h.headOff_used]
  simp only [pagedGet, bind_apply, get_apply, Option.bind_some, h.dir, hb, ↓reduceIte]
  exact hw

end Xxfs.IndexRep

import Mathlib.Logic.Function.Basic
import Xxfs.CacheKeys
import Xxfs.CacheMap
import Xxfs.IndexMap
import Xxfs.PathShape
import Xxfs.StoredInode

namespace Xxfs.IndexState

open Function
open Xxfs.DiskFormat Xxfs.Machine Xxfs.Allocator Xxfs.PagedIndex Xxfs.PageStore Xxfs.InodeCache
open Xxfs.Checksum Xxfs.Volume Xxfs.Hash Xxfs.PathName Xxfs.Frames Xxfs.IndexRep Xxfs.StoredInode
open Xxfs.CacheKeys Xxfs.CacheMap Xxfs.FreshIndex
open Xxfs.Lib Xxfs.Lib.Computation Xxfs.Lib.Computation.Comp

/-- Paths that a run may use: they are normalized, each fits with an inode into a record of one
block, no two have the same hash, and the inode cache has room for all of them. -/
structure Names (K : Path → Prop) : Prop where
  clean : ∀ p, K p → Clean p
  distinct : Distinct K
  roomy : Roomy K icacheInit
  short : ∀ p, K p → p.length ≤ 3528
  root : K rootPath
  parent : ∀ p, K p → K (getParentPath p)

/-- The index holds the inodes `m` under paths of `K` and keeps off the bytes `F`. -/
structure Backed (K : Path → Prop) (m : Path → Option Inode) (F : Set ℕ) (fs : Fs) (L : Chain) :
    Prop where
  rep : Represents fs L
  keys : PagedMap.AllKeys K (contents L)
  nodup : ∀ p ∈ contents L, PagedMap.KeysNodup p
  get : ∀ p, PagedMap.get (contents L) p = (m p).map inodeToVal
  whole : ∀ p n, m p = some n → Sealed n
  off : ∀ b ∈ blocks L, ∀ i, InBlock b i → i ∉ F
  below : ∀ i ∈ F, i < front fs.sb

/-- What a change to the index leaves alone: the other parts of the state, the bytes `F`, those
that stay free, and of the superblock all but the free blocks. -/
structure Kept (F : Set ℕ) (fs fs' : Fs) : Prop where
  only : IndexOnly (fun _ ↦ True) fs fs'
  sb : ∃ n, n ≤ fs.sb.sFreeBlocks ∧ fs'.sb = taken fs.sb n
  data : ∀ i ∈ F, fs'.img.data i = fs.img.data i
  free : ∀ i, front fs'.sb ≤ i → fs'.img.data i = fs.img.data i
  size : fs.img.size ≤ fs'.img.size

section kept

variable {F G : Set ℕ} {fs fs₁ fs₂ : Fs}

theorem Kept.refl (F : Set ℕ) (fs : Fs) : Kept F fs fs :=
  ⟨refl_of _ _, ⟨0, UInt64.zero_le, by rw [taken_zero]⟩, fun _ _ ↦ rfl, fun _ _ ↦ rfl, le_rfl⟩

theorem Kept.front_le (h : Kept F fs fs₁) : front fs.sb ≤ front fs₁.sb := by
  obtain ⟨n, hn, hsb⟩ := h.sb
  rw [hsb]
  exact front_le_taken hn

end kept

theorem Names.hash_inj {K : Path → Prop} (hK : Names K) {p q : Path} (hp : K p) (hq : K q)
    (h : xxh64 p = xxh64 q) : p = q :=
  hK.distinct p q hp hq h

theorem Names.normalize {K : Path → Prop} (hK : Names K) {p : Path} (hp : K p) :
    pathNormalize p = p := by
  have hmax : maxPath = 4096 := rfl
  have := hK.short _ hp
  exact (hK.clean p hp).normalize (by omega)

theorem Names.length_lt {K : Path → Prop} (hK : Names K) {p : Path} (hp : K p) :
    p.length < 2 ^ 32 := by
  have := hK.short p hp
  omega

theorem Names.untwinned {K : Path → Prop} (hK : Names K) {p : Path} (hp : K p) : Untwinned K p :=
  hK.distinct.untwinned hp

theorem Backed.names {K : Path → Prop} {m : Path → Option Inode} {F : Set ℕ} {fs : Fs} {L : Chain}
    (h : Backed K m F fs L) {p : Path} (hp : m p ≠ none) : K p := by
  refine h.keys.of_get ?_
  rw [h.get, ne_eq, Option.map_eq_none_iff]
  exact hp

def answered : Option Inode → Except Rc Inode
  | some n => .ok n
  | none => .error .enoent

section operations

variable {env : Env} (he : Healthy env) {K : Path → Prop} (hK : Names K)
  {m : Path → Option Inode} {F : Set ℕ} {fs : Fs} {L : Chain} (h : Backed K m F fs L)
include h

theorem Backed.mono {G : Set ℕ} (hG : G ⊆ F) : Backed K m G fs L :=
  ⟨h.rep, h.keys, h.nodup, h.get, h.whole, fun b hb i hi hG' ↦ h.off b hb i hi (hG hG'),
    fun i hi ↦ h.below i (hG hi)⟩

theorem Backed.same {fs' : Fs} (hi : fs'.img = fs.img) (hs : fs'.sb = fs.sb)
    (hd : fs'.pdir = fs.pdir) (hc : fs'.pcache = fs.pcache) : Backed K m F fs' L :=
  ⟨h.rep.same hi hs hd hc, h.keys, h.nodup, h.get, h.whole, h.off, by rw [hs]; exact h.below⟩

theorem Backed.moved {m' : Path → Option Inode} {fs' : Fs} {L' : Chain} (hR : Represents fs' L')
    (hM : Moved L L' fs fs') (hkeys : PagedMap.AllKeys K (contents L'))
    (hnodup : ∀ p ∈ contents L', PagedMap.KeysNodup p)
    (hget : ∀ p, PagedMap.get (contents L') p = (m' p).map inodeToVal)
    (hwhole : ∀ p n, m' p = some n → Sealed n) : Backed K m' F fs' L' := by
  have hle := hM.front_le h.rep.pool
  refine ⟨hR, hkeys, hnodup, hget, hwhole, fun b hb i hi hF ↦ ?_, fun i hi ↦ ?_⟩
  · have hlt := h.below i hF
    rcases hM.grow b hb with hold | ⟨hge, -⟩
    · exact h.off b hold i hi hF
    · have := hi.1
      omega
  · exact (h.below i hi).trans_le hle

theorem Backed.kept {fs' : Fs} {L' : Chain} (hM : Moved L L' fs fs')
    (ho : IndexOnly (fun _ ↦ True) fs fs') : Kept F fs fs' := by
  refine ⟨ho, hM.sb, fun i hi ↦ hM.data i (fun b hb hin ↦ h.off b hb i hin hi) ?_,
    fun i hi ↦ hM.data i (fun b hb hin ↦ ?_) fun hc ↦ ?_, hM.size⟩
  · have := h.below i hi
    omega
  · have := (h.rep.within b hb).2.2
    have := hin.2
    have := hM.front_le h.rep.pool
    omega
  · omega

include he

theorem Backed.inodePagedGet {key : Path} (hk : key.length < 2 ^ 32) : ∃ fs',
    inodePagedGet env key fs = some (answered (m key), fs') ∧ Backed K m F fs' L ∧
      Kept F fs fs' ∧ fs'.sb = fs.sb := by
  obtain ⟨fs', hget, hR, hq⟩ := inodePagedGet_apply he hk h.rep
  have hM : Moved L L fs fs' := .ofQuiet hq
  refine ⟨fs', ?_, h.moved hR hM h.keys h.nodup h.get h.whole,
    h.kept hM (inodePagedGet_indexOnly env _ _ _ _ hget), hq.sb⟩
  rw [hget]
  have hm := h.get key
  rw [← IndexMap.lookup_ents] at hm
  rw [found]
  cases hl : lookup (ents L) key with
  | none =>
    rw [hl, Option.map_none] at hm
    rw [Option.map_eq_none_iff.mp hm.symm]
    rfl
  | some e =>
    rw [hl, Option.map_some] at hm
    obtain ⟨n, hn, hv⟩ := Option.map_eq_some_iff.mp hm.symm
    dsimp only
    rw [hn, answer, ← hv, inodeToVal_length, if_neg (by decide), Except.map,
      readBack_sealed (h.whole key n hn)]
    rfl

include hK

theorem Backed.pagedPut {key : Path} (hk : K key) {n : Inode} (hn : Sealed n) (hl : Live fs) :
    ∃ rc fs', pagedPut env key (inodeToVal n) fs = some (rc, fs') ∧
      (Live fs' → rc = .ok ∧ Kept F fs fs' ∧ ∃ L', Backed K (update m key (some n)) F fs' L') := by
  have hsmall : 8 + key.length + (inodeToVal n).length ≤ 4096 := by
    have := inodeToVal_length n
    have := hK.short key hk
    omega
  obtain ⟨rc, fs', hput, hE⟩ := pagedPut_apply he hsmall h.rep hl
    (IndexMap.noClash (fun k k' hk hk' ↦ hK.hash_inj hk hk') h.keys hk)
  refine ⟨rc, fs', hput, fun hl' ↦ ?_⟩
  obtain ⟨hrc, L', hcont, hR, hM⟩ := hE.good hl'
  refine ⟨hrc, h.kept hM (pagedPut_indexOnly env _ trivial _ _ _ hput), L',
    h.moved hR hM ?_ ?_ (fun p ↦ ?_) fun p x hx ↦ ?_⟩
  · rw [hcont]
    exact h.keys.put hk
  · rw [hcont]
    exact PagedMap.put_keysNodup h.nodup
  · rw [hcont, PagedMap.get_put, h.get, update_apply]
    split <;> rfl
  · rw [update_apply] at hx
    split at hx
    · obtain rfl := Option.some.inj hx
      exact hn
    · exact h.whole p x hx

theorem Backed.pagedInsert {key : Path} (hk : K key) {n : Inode} (hn : Sealed n) (hl : Live fs)
    (hnew : m key = none) :
    ∃ rc fs', pagedInsert env key (inodeToVal n) fs = some (rc, fs') ∧
      (Live fs' → rc = .ok ∧ Kept F fs fs' ∧ ∃ L', Backed K (update m key (some n)) F fs' L') := by
  have hsmall : 8 + key.length + (inodeToVal n).length ≤ 4096 := by
    have := inodeToVal_length n
    have := hK.short key hk
    omega
  have hnone : PagedMap.get (contents L) key = none := by rw [h.get, hnew, Option.map_none]
  obtain ⟨rc, fs', hput, hE⟩ := pagedInsert_apply he hsmall h.rep hl
  refine ⟨rc, fs', hput, fun hl' ↦ ?_⟩
  obtain ⟨hrc, L', hcont, hR, hM⟩ := hE.good hl'
  refine ⟨hrc, h.kept hM (pagedInsert_indexOnly env _ trivial _ _ _ hput), L',
    h.moved hR hM ?_ ?_ (fun p ↦ ?_) fun p x hx ↦ ?_⟩
  · rw [hcont]
    exact h.keys.insert hk
  · rw [hcont]
    exact PagedMap.insert_keysNodup h.nodup hnone
  · rw [hcont, PagedMap.get_insert hnone, h.get, update_apply]
    split <;> rfl
  · rw [update_apply] at hx
    split at hx
    · obtain rfl := Option.some.inj hx
      exact hn
    · exact h.whole p x hx

end operations

section unique

variable {img : Image} {pg : PagedPage}

theorem slotRep_unique {s : PagedSlot} {e e' : Ent} (h : SlotRep img pg s e)
    (h' : SlotRep img pg s e') : e.key = e'.key ∧ e.val = e'.val := by
  have hsmall := h.small
  have hsmall' := h'.small
  have hk : e.key.length = e'.key.length := by
    have := congrArg UInt32.toNat (h.klen.symm.trans h'.klen)
    rw [UInt32.toNat_ofNat', UInt32.toNat_ofNat'] at this
    omega
  have hv : e.val.length = e'.val.length := by
    have := congrArg UInt32.toNat (h.vlen.symm.trans h'.vlen)
    rw [UInt32.toNat_ofNat', UInt32.toNat_ofNat'] at this
    omega
  have hb := h.body
  have hb' := h'.body
  unfold Body at hb hb'
  cases hl : e.loc with
  | none =>
    cases hl' : e'.loc with
    | none =>
      rw [hl] at hb
      rw [hl'] at hb'
      refine ⟨eq_of_bytesAt hk fun j hj ↦ ?_, eq_of_bytesAt hv fun j hj ↦ ?_⟩
      · rw [← hb.2.keyBytes j hj, ← hb'.2.keyBytes j (by omega)]
      · rw [← hb.2.valBytes j hj, ← hb'.2.valBytes j (by omega), hk]
    | some off =>
      rw [hl] at hb
      rw [hl'] at hb'
      exact (hb.1 hb'.1).elim
  | some off =>
    cases hl' : e'.loc with
    | none =>
      rw [hl] at hb
      rw [hl'] at hb'
      exact (hb'.1 hb.1).elim
    | some off' =>
      rw [hl] at hb
      rw [hl'] at hb'
      obtain rfl : off = off' := hb.2.1.symm.trans hb'.2.1
      refine ⟨eq_of_bytesAt hk fun j hj ↦ ?_, eq_of_bytesAt hv fun j hj ↦ ?_⟩
      · rw [← hb.2.2.keyBytes j hj, ← hb'.2.2.keyBytes j (by omega)]
      · rw [← hb.2.2.valBytes j hj, ← hb'.2.2.valBytes j (by omega), hk]

theorem pageRep_unique {l l' : List Ent} (h : PageRep img pg l) (h' : PageRep img pg l') :
    pairs l = pairs l' := by
  have hlen : l.length = l'.length := h.count.symm.trans h'.count
  refine List.ext_getElem (by simpa [pairs] using hlen) fun i hi hi' ↦ ?_
  simp only [pairs, List.length_map] at hi hi'
  obtain ⟨hk, hv⟩ := slotRep_unique (h.slots i _ (List.getElem?_eq_getElem hi))
    (h'.slots i _ (List.getElem?_eq_getElem hi'))
  simp only [pairs, List.getElem_map, hk, hv]

theorem contents_unique {fs : Fs} {L L' : Chain} (h : Represents fs L) (h' : Represents fs L') :
    contents L = contents L' := by
  have hwalk (A B : Chain) (hA : ∀ p ∈ A, p ∈ L) (hB : ∀ p ∈ B, p ∈ L') (hlA : Links fs A)
      (hlB : Links fs B) (hhead : headOff A = headOff B) : contents A = contents B := by
    induction A generalizing B with
    | nil =>
      cases B with
      | nil => rfl
      | cons q B =>
        exact (h'.ne_zero (offs_subset_blocks (mem_offs (hB q List.mem_cons_self))) hhead.symm).elim
    | cons p A ih =>
      cases B with
      | nil => exact (h.ne_zero (offs_subset_blocks (mem_offs (hA p List.mem_cons_self))) hhead).elim
      | cons q B =>
        have hoff : p.1 = q.1 := hhead
        have hq := h'.reps q (hB q List.mem_cons_self)
        rw [← hoff] at hq
        rw [contents_cons, contents_cons, pageRep_unique (h.reps p (hA p List.mem_cons_self)) hq,
          ih B (fun x hx ↦ hA x (List.mem_cons_of_mem _ hx))
            (fun x hx ↦ hB x (List.mem_cons_of_mem _ hx)) hlA.2 hlB.2 ?_]
        rw [← hlA.1, ← hlB.1, hoff]
  refine hwalk L L' (fun _ ↦ id) (fun _ ↦ id) h.links h'.links ?_
  have := h.dir.symm.trans h'.dir
  simpa using this

end unique

def Single (fs : Fs) (key : Path) : Prop :=
  ∀ L, Represents fs L → PagedMap.copies (contents L) key ≤ 1

theorem Single.of_represents {fs fs' : Fs} {key : Path} {L : Chain} (hs : Single fs key)
    (h : Represents fs L) (h' : Represents fs' L) : Single fs' key := by
  intro L' hL'
  rw [contents_unique hL' h']
  exact hs L h

section more

variable {env : Env} (he : Healthy env) {K : Path → Prop} (hK : Names K)
  {m : Path → Option Inode} {F : Set ℕ} {fs : Fs} {L : Chain} (h : Backed K m F fs L)
include he hK h

theorem Backed.pagedDel {key : Path} (hk : K key) (hs : Single fs key) : ∃ fs' L',
    pagedDel env key fs = some (if (m key).isSome then .ok else .enoent, fs') ∧
      Backed K (update m key none) F fs' L' ∧ Kept F fs fs' ∧ fs'.sb = fs.sb := by
  have hshort := hK.short key hk
  obtain ⟨fs', L', hdel, hcont, hR, hM, hsb⟩ := pagedDel_apply he (by omega) h.rep
    (IndexMap.noClash (fun k k' hk hk' ↦ hK.hash_inj hk hk') h.keys hk)
  refine ⟨fs', L', ?_, h.moved hR hM ?_ ?_ (fun p ↦ ?_) fun p x hx ↦ ?_,
    h.kept hM (pagedDel_indexOnly env _ _ _ _ hdel), hsb⟩
  · have hsome : (m key).isSome ↔ ∃ e ∈ ents L, e.key = key := by
      have hm := h.get key
      rw [← IndexMap.lookup_ents] at hm
      have hiff : (lookup (ents L) key).isSome = (m key).isSome := by
        have := congrArg Option.isSome hm
        rwa [Option.isSome_map, Option.isSome_map] at this
      rw [← hiff, Option.isSome_iff_ne_none, ne_eq, lookup_eq_none]
      simp
    rw [hdel]
    by_cases hm : (m key).isSome
    · rw [if_pos hm, if_pos (hsome.mp hm)]
    · rw [if_neg hm, if_neg (hm ∘ hsome.mpr)]
  · rw [hcont]
    exact h.keys.del
  · rw [hcont]
    exact PagedMap.del_keysNodup h.nodup
  · rw [hcont, update_apply]
    split
    · rename_i hp
      rw [hp, Option.map_none]
      exact (PagedMap.get_del_self h.nodup).mpr (hs L h.rep)
    · rename_i hp
      rw [PagedMap.get_del_ne h.nodup hp, h.get]
  · rw [update_apply] at hx
    split at hx
    · cases hx
    · exact h.whole p x hx

end more

/-- The index does not see what happens to the pool and to the bytes of others. -/
theorem Backed.outside {K : Path → Prop} {m : Path → Option Inode} {F G : Set ℕ} {fs fs' : Fs}
    {L : Chain} (h : Backed K m F fs L) (hd : fs'.pdir = fs.pdir) (hc : fs'.pcache = fs.pcache)
    (hp : PoolOk fs'.sb) (hD : fs'.sb.sDataOff = fs.sb.sDataOff) (hle : front fs.sb ≤ front fs'.sb)
    (hb : front fs'.sb < 2 ^ 63)
    (hdata : ∀ i, i ∉ F → i < front fs.sb → fs'.img.data i = fs.img.data i)
    (hsize : fs.img.size ≤ fs'.img.size)
    (hG : ∀ i ∈ G, i < front fs'.sb ∧ (i ∈ F ∨ front fs.sb ≤ i)) : Backed K m G fs' L := by
  have hR := h.rep
  have hblock (b : UInt64) (hb : b ∈ blocks L) (i : ℕ) (hi : InBlock b i) :
      fs'.img.data i = fs.img.data i := by
    refine hdata i (h.off b hb i hi) ?_
    have := (hR.within b hb).2.2
    have := hi.2
    omega
  have hoffs (o : UInt64) (ho : o ∈ offs L) := hblock o (offs_subset_blocks ho)
  refine ⟨⟨hR.ne, hd.trans hR.dir, hp, hb, hR.pages.of_data hc hoffs, fun p hpL ↦ ?_,
    hR.links.congr fun o ho ↦ pageAt_of_data hc hoffs ho, hR.nodup, fun b hb ↦ ?_⟩,
    h.keys, h.nodup, h.get, h.whole, fun b hb i hi hiG ↦ ?_, fun i hi ↦ (hG i hi).1⟩
  · rw [pageAt_of_data hc hoffs (mem_offs hpL)]
    exact (hR.reps p hpL).congr
      (fun o ho ↦ hblock o (recs_subset_blocks (mem_recs hpL ho))) hsize
  · obtain ⟨ha, hlow, hhigh⟩ := hR.within b hb
    exact ⟨ha, by rw [hD]; exact hlow, hhigh.trans hle⟩
  · rcases (hG i hiG).2 with hF | hge
    · exact h.off b hb i hi hF
    · have := (hR.within b hb).2.2
      have := hi.2
      omega

section pool

variable {env : Env} {K : Path → Prop} {m : Path → Option Inode} {F : Set ℕ} {fs : Fs} {L : Chain}
  (h : Backed K m F fs L)
include h

/-- The bytes of the next `n` blocks of the pool. -/
def nextBytes (fs : Fs) (n : ℕ) : Set ℕ := Set.Ico (front fs.sb) (front fs.sb + n * 4096)

theorem Backed.take {n : UInt64} (hn : n ≤ fs.sb.sFreeBlocks)
    (hb : front (taken fs.sb n) < 2 ^ 63) :
    Backed K m (F ∪ nextBytes fs n.toNat) { fs with sb := taken fs.sb n } L := by
  have hfront := taken_front hn h.rep.pool
  refine h.outside rfl rfl (taken_ok hn h.rep.pool) rfl ?_ hb (fun _ _ _ ↦ rfl) le_rfl
    fun i hi ↦ ?_
  · dsimp only
    omega
  · dsimp only
    rcases hi with hi | hi
    · have := h.below i hi
      exact ⟨by omega, .inl hi⟩
    · exact ⟨by rw [hfront]; exact hi.2, .inr hi.1⟩

theorem Backed.write (src : ℕ → UInt8) {len off : ℕ} (c : ℕ)
    (hin : ∀ i, off ≤ i → i < off + len → i ∈ F) :
    Backed K m F { fs with img := fs.img.write src len off, clock := c } L := by
  refine h.outside rfl rfl h.rep.pool rfl le_rfl h.rep.bound (fun i hi _ ↦ ?_) (Image.write_size _ _ _ _)
    fun i hi ↦ ⟨h.below i hi, .inl hi⟩
  refine Image.write_out _ _ ?_
  by_contra hc
  exact hi (hin i (by omega) (by omega))

end pool

end Xxfs.IndexState

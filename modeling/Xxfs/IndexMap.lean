import Mathlib.Data.List.Dedup
import Xxfs.FreshIndex

namespace Xxfs.IndexMap

open Xxfs.DiskFormat Xxfs.Machine Xxfs.PagedIndex Xxfs.Volume Xxfs.Hash Xxfs.IndexRep
open Xxfs.FreshVolume Xxfs.FreshIndex Xxfs.Lib Xxfs.Lib.Computation Xxfs.Lib.Computation.Comp

inductive Call
  | put (key : Path) (val : List UInt8)
  | del (key : Path)
  deriving DecidableEq

def Call.key : Call → Path
  | .put key _ => key
  | .del key => key

def Call.Small : Call → Prop
  | .put key val => 8 + key.length + val.length ≤ 4096
  | .del key => 8 + key.length ≤ 4096

instance : DecidablePred Call.Small
  | .put key val => inferInstanceAs (Decidable (8 + key.length + val.length ≤ 4096))
  | .del key => inferInstanceAs (Decidable (8 + key.length ≤ 4096))

def Call.run (env : Env) : Call → FsM Rc
  | .put key val => pagedPut env key val
  | .del key => pagedDel env key

def runAll (env : Env) : List Call → FsM Unit
  | [] => pure ()
  | c :: calls => do
    discard (c.run env)
    runAll env calls

def Call.apply (m : Path → Option (List UInt8)) : Call → Path → Option (List UInt8)
  | .put key val => fun k ↦ if k = key then some val else m k
  | .del key => fun k ↦ if k = key then none else m k

theorem apply_del_self (m : Path → Option (List UInt8)) (key : Path) :
    Call.apply m (.del key) key = none :=
  if_pos rfl

/-- The value of the last put of each key that no del follows. `xxfs_mkfs` has put the root. -/
def lastPut (root : List UInt8) (calls : List Call) : Path → Option (List UInt8) :=
  calls.foldl Call.apply fun k ↦ if k = rootPath then some root else none

def Call.turn (ps : List (List (Path × List UInt8))) : Call → List (List (Path × List UInt8))
  | .put key val => PagedMap.put slotsPerPage key val ps
  | .del key => PagedMap.del key ps

/-- Which keys stand in which page after the calls. -/
def pagesAfter (root : List UInt8) (calls : List Call) : List (List (Path × List UInt8)) :=
  calls.foldl Call.turn [[(rootPath, root)]]

def expected : Option (List UInt8) → Except Rc (List UInt8)
  | some val => .ok val
  | none => .error .enoent

section run

variable {env : Env} {K : Path → Prop}

theorem lookup_ents (L : Chain) (key : Path) :
    (lookup (ents L) key).map Ent.val = PagedMap.get (contents L) key := by
  induction L with
  | nil => rfl
  | cons p L ih =>
    have hpage : (lookup p.2 key).map Ent.val = PagedMap.pageGet (pairs p.2) key := by
      rw [lookup, PagedMap.pageGet, pairs, List.find?_map, Option.map_map]
      congr 2
      funext e
      simp [Bool.beq_eq_decide_eq]
    rw [show ents (p :: L) = p.2 ++ ents L from rfl, lookup_append, contents_cons, PagedMap.get,
      ← ih, ← hpage]
    cases lookup p.2 key <;> rfl

theorem found_eq {fs : Fs} {L : Chain} (h : Represents fs L) (key : Path) {cap : ℕ}
    (hcap : 4096 ≤ cap) :
    found (ents L) key cap = expected (PagedMap.get (contents L) key) := by
  rw [← lookup_ents, found]
  cases hl : lookup (ents L) key with
  | none => rfl
  | some e =>
    obtain ⟨hmem, -⟩ := lookup_some hl
    obtain ⟨p, hp, he⟩ := List.mem_flatMap.mp hmem
    obtain ⟨i, hi⟩ := List.getElem?_of_mem he
    have hsmall := ((h.reps p hp).slots i e hi).small
    change answer e cap = .ok e.val
    rw [answer, if_neg (by omega)]

theorem noClash {L : Chain} {key : Path} (hK : ∀ k k', K k → K k' → xxh64 k = xxh64 k' → k = k')
    (h : PagedMap.AllKeys K (contents L)) (hk : K key) : NoClash (ents L) key := by
  intro e he hh
  obtain ⟨p, hp, hep⟩ := List.mem_flatMap.mp he
  exact hK _ _ (h _ (List.mem_map_of_mem hp) _ (List.mem_map_of_mem hep)) hk hh

theorem call_apply (he : Healthy env) {c : Call} (hs : c.Small) {fs : Fs} {L : Chain}
    (h : Represents fs L) (hl : Live fs) (hc : NoClash (ents L) c.key) : ∃ rc fs',
      c.run env fs = some (rc, fs') ∧
      (Live fs' → ∃ L', contents L' = c.turn (contents L) ∧ Represents fs' L') ∧
      (Ample 2 fs → Cost 2 fs fs') := by
  cases c with
  | put key val =>
    obtain ⟨rc, fs', hrun, hE⟩ := pagedPut_apply he hs h hl hc
    refine ⟨rc, fs', hrun, fun hl' ↦ ?_, hE.cheap⟩
    obtain ⟨-, L', hcont, hR, -⟩ := hE.good hl'
    exact ⟨L', hcont, hR⟩
  | del key =>
    have hk : key.length < 2 ^ 32 := by
      have : 8 + key.length ≤ 4096 := hs
      omega
    obtain ⟨fs', L', hrun, hcont, hR, -, hsb⟩ := pagedDel_apply he hk h hc
    exact ⟨_, fs', hrun, fun _ ↦ ⟨L', hcont, hR⟩, fun _ ↦ cost_of_sb hsb 2⟩

/-- The pool is never exhausted while the calls run. -/
def Unexhausted (env : Env) (calls : List Call) (fs : Fs) : Prop :=
  ∀ pre, pre <+: calls → ∀ fs', runAll env pre fs = some ((), fs') → Live fs'

theorem runAll_cons {c : Call} {calls : List Call} {fs fs₁ : Fs} {rc : Rc}
    (h : c.run env fs = some (rc, fs₁)) : runAll env (c :: calls) fs = runAll env calls fs₁ := by
  rw [runAll, bind_apply, discard_apply, h]
  rfl

theorem turn_allKeys {c : Call} {ps : List (List (Path × List UInt8))}
    (h : PagedMap.AllKeys K ps) (hk : K c.key) : PagedMap.AllKeys K (c.turn ps) := by
  cases c with
  | put key val => exact h.put hk
  | del key => exact h.del

theorem run_apply (he : Healthy env) (hK : ∀ k k', K k → K k' → xxh64 k = xxh64 k' → k = k')
    {calls : List Call} (hs : ∀ c ∈ calls, c.Small ∧ K c.key) {fs : Fs} {L : Chain}
    (h : Represents fs L) (hk : PagedMap.AllKeys K (contents L)) (hu : Unexhausted env calls fs) :
    ∃ fs' L', runAll env calls fs = some ((), fs') ∧
      contents L' = calls.foldl Call.turn (contents L) ∧ Represents fs' L' := by
  induction calls generalizing fs L with
  | nil => exact ⟨fs, L, rfl, rfl, h⟩
  | cons c calls ih =>
    obtain ⟨hsmall, hkey⟩ := hs c List.mem_cons_self
    have hl : Live fs := hu [] List.nil_prefix fs rfl
    obtain ⟨rc, fs₁, hrun, hgood, -⟩ := call_apply he hsmall h hl (noClash hK hk hkey)
    have hcons {rest : List Call} : runAll env (c :: rest) fs = runAll env rest fs₁ :=
      runAll_cons hrun
    have hl₁ : Live fs₁ := hu [c] (List.prefix_append [c] calls) fs₁ (by rw [hcons]; rfl)
    obtain ⟨L₁, hcont, h₁⟩ := hgood hl₁
    have hu₁ : Unexhausted env calls fs₁ := fun pre hpre fs' hpr ↦
      hu (c :: pre) ((List.prefix_cons_inj c).mpr hpre) fs' (by rw [hcons, hpr])
    obtain ⟨fs', L', hrest, hcont', hR⟩ := ih (fun c' hc' ↦ hs c' (List.mem_cons_of_mem _ hc')) h₁
      (by rw [hcont]; exact turn_allKeys hk hkey) hu₁
    exact ⟨fs', L', by rw [hcons, hrest], by rw [hcont', hcont, List.foldl_cons], hR⟩

end run

section pages

variable {ps : List (List (Path × List UInt8))} {m : Path → Option (List UInt8)}

theorem turn_keysNodup {c : Call} (h : ∀ p ∈ ps, PagedMap.KeysNodup p) :
    ∀ p ∈ c.turn ps, PagedMap.KeysNodup p := by
  cases c with
  | put key val => exact PagedMap.put_keysNodup h
  | del key => exact PagedMap.del_keysNodup h

/-- The pages keep up with the map as long as no key is deleted that stands in two of them. -/
theorem get_turns (hm : ∀ k, PagedMap.get ps k = m k) (hn : ∀ p ∈ ps, PagedMap.KeysNodup p)
    {calls : List Call}
    (ho : ∀ pre k, pre ++ [.del k] <+: calls → PagedMap.copies (pre.foldl Call.turn ps) k ≤ 1)
    (k : Path) : PagedMap.get (calls.foldl Call.turn ps) k = calls.foldl Call.apply m k := by
  induction calls generalizing ps m with
  | nil => exact hm k
  | cons c calls ih =>
    rw [List.foldl_cons, List.foldl_cons]
    refine ih (fun j ↦ ?_) (turn_keysNodup hn) fun pre j hpre ↦ ?_
    · cases c with
      | put key val =>
        change PagedMap.get (PagedMap.put _ _ _ _) _ = if _ then _ else _
        rw [PagedMap.get_put, hm]
      | del key =>
        change PagedMap.get (PagedMap.del _ _) _ = if _ then _ else _
        have honce := ho [] key (List.prefix_append [Call.del key] calls)
        by_cases hj : j = key
        · rw [if_pos hj, hj]
          exact (PagedMap.get_del_self hn).mpr honce
        · rw [if_neg hj, PagedMap.get_del_ne hn hj, hm]
    · exact ho (c :: pre) j ((List.prefix_cons_inj c).mpr hpre)

theorem turns_keysNodup (hn : ∀ p ∈ ps, PagedMap.KeysNodup p) (calls : List Call) :
    ∀ p ∈ calls.foldl Call.turn ps, PagedMap.KeysNodup p := by
  induction calls generalizing ps with
  | nil => exact hn
  | cons c calls ih => exact ih (turn_keysNodup hn)

end pages

/-- The root's record as `xxfs_mkfs` wrote it. -/
def rootVal (env : Env) : List UInt8 := inodeToVal (rootInode (env.time 1))

theorem contents_fresh (env : Env) (sizeMb : UInt64) :
    contents (freshChain (totalBlocks sizeMb) (env.time 1)) = [[(rootPath, rootVal env)]] := by
  simp only [contents, freshChain, pairs, List.map_cons, List.map_nil, rootVal]

/-- After each of the calls `paged_get` answers with the last put. -/
def IsMap (env : Env) (calls : List Call) (fs : Fs) : Prop :=
  ∀ pre, pre <+: calls → ∃ fs', runAll env pre fs = some ((), fs') ∧
    ∀ key cap, key.length < 2 ^ 32 → 4096 ≤ cap → ∃ fs'',
      pagedGet env key cap fs' = some (expected (lastPut (rootVal env) pre key), fs'')

/-- No key is deleted while it stands in two pages of the chain. -/
def DelOnce (root : List UInt8) (calls : List Call) : Prop :=
  ∀ pre key, pre ++ [.del key] <+: calls → PagedMap.copies (pagesAfter root pre) key ≤ 1

/-- The keys of the calls and the root's have distinct hashes. -/
def Distinct (calls : List Call) : Prop :=
  ∀ k ∈ rootPath :: calls.map Call.key, ∀ k' ∈ rootPath :: calls.map Call.key,
    xxh64 k = xxh64 k' → k = k'

section fresh

variable {env : Env} (he : Healthy env) {sizeMb flags : UInt64} {fs : Fs}
  (hf : fresh env sizeMb flags = some fs)
include he hf

theorem fresh_get {calls : List Call} (hs : ∀ c ∈ calls, c.Small) (hd : Distinct calls)
    (hu : Unexhausted env calls fs) : ∃ fs', runAll env calls fs = some ((), fs') ∧
      ∀ key cap, key.length < 2 ^ 32 → 4096 ≤ cap → ∃ fs'', pagedGet env key cap fs' =
        some (expected (PagedMap.get (pagesAfter (rootVal env) calls) key), fs'') := by
  have h := fresh_represents env (goodSize_of_fresh hf) flags
  rw [← eq_freshFs he hf] at h
  obtain ⟨fs', L', hrun, hc, hR⟩ := run_apply he (K := fun k ↦ k ∈ rootPath :: calls.map Call.key)
    (fun k k' hk hk' ↦ hd k hk k' hk')
    (fun c hc ↦ ⟨hs c hc, List.mem_cons_of_mem _ (List.mem_map_of_mem hc)⟩) h
    (by rw [contents_fresh]; simp [PagedMap.AllKeys]) hu
  refine ⟨fs', hrun, fun key cap hk hcap ↦ ?_⟩
  obtain ⟨fs'', hget, -, -⟩ := pagedGet_apply he cap hk hR
  refine ⟨fs'', ?_⟩
  rw [hget, found_eq hR key hcap, hc, contents_fresh]
  rfl

omit he hf in
theorem root_keysNodup (root : List UInt8) :
    ∀ p ∈ [[(rootPath, root)]], PagedMap.KeysNodup p := by
  simp [PagedMap.KeysNodup]

omit he hf in
theorem get_pagesAfter {root : List UInt8} {calls : List Call} (ho : DelOnce root calls)
    (key : Path) : PagedMap.get (pagesAfter root calls) key = lastPut root calls key := by
  refine get_turns (fun k ↦ ?_) (root_keysNodup root) ho key
  by_cases hk : k = rootPath
  · simp [PagedMap.get, PagedMap.pageGet, hk]
  · have hk' : rootPath ≠ k := fun h ↦ hk h.symm
    simp [PagedMap.get, PagedMap.pageGet, hk, hk']

omit he hf in
theorem expected_injective {a b : Option (List UInt8)} (h : expected a = expected b) : a = b := by
  cases a <;> cases b <;> simp_all [expected]

/-- The index of a fresh image behaves as a finite map exactly as long as no key is deleted
that has a copy in a second page. -/
theorem isMap_iff_delOnce {calls : List Call} (hs : ∀ c ∈ calls, c.Small) (hd : Distinct calls)
    (hu : Unexhausted env calls fs) : IsMap env calls fs ↔ DelOnce (rootVal env) calls := by
  have hpre {pre : List Call} (hp : pre <+: calls) : (∀ c ∈ pre, c.Small) ∧ Distinct pre ∧
      Unexhausted env pre fs := by
    have hkeys {k : Path} (hk : k ∈ rootPath :: pre.map Call.key) :
        k ∈ rootPath :: calls.map Call.key := by
      rcases List.mem_cons.mp hk with rfl | hk
      · exact List.mem_cons_self
      · exact List.mem_cons_of_mem _ (List.map_subset _ hp.subset hk)
    exact ⟨fun c hc ↦ hs c (hp.subset hc), fun k hk k' hk' ↦ hd k (hkeys hk) k' (hkeys hk'),
      fun q hq ↦ hu q (hq.trans hp)⟩
  constructor
  · intro hm pre key hp
    obtain ⟨hs', hd', hu'⟩ := hpre hp
    obtain ⟨fs₁, hrun, hget⟩ := fresh_get he hf hs' hd' hu'
    obtain ⟨fs₂, hrun', hget'⟩ := hm _ hp
    obtain rfl : fs₁ = fs₂ := by
      rw [hrun] at hrun'
      exact (Prod.mk.inj (Option.some.inj hrun')).2
    have hsmall : (Call.del key).Small := hs' _ (by simp)
    have hk : key.length < 2 ^ 32 := by
      have : 8 + key.length ≤ 4096 := hsmall
      omega
    obtain ⟨fs₃, h₃⟩ := hget key 4096 hk le_rfl
    obtain ⟨fs₄, h₄⟩ := hget' key 4096 hk le_rfl
    rw [h₃] at h₄
    have hnone := expected_injective (Prod.mk.inj (Option.some.inj h₄)).1
    have hlast : lastPut (rootVal env) (pre ++ [.del key]) key = none := by
      rw [lastPut, List.foldl_append]
      exact apply_del_self _ _
    have hpages : pagesAfter (rootVal env) (pre ++ [.del key]) =
        PagedMap.del key (pagesAfter (rootVal env) pre) := by
      rw [pagesAfter, List.foldl_append]
      rfl
    rw [hlast, hpages] at hnone
    exact (PagedMap.get_del_self (turns_keysNodup (root_keysNodup _) pre)).mp hnone
  · intro ho pre hp
    obtain ⟨hs', hd', hu'⟩ := hpre hp
    obtain ⟨fs₁, hrun, hget⟩ := fresh_get he hf hs' hd' hu'
    have ho' : DelOnce (rootVal env) pre := fun q k hq ↦ ho q k (hq.trans hp)
    exact ⟨fs₁, hrun, fun key cap hk hcap ↦ by
      rw [← get_pagesAfter ho' key]
      exact hget key cap hk hcap⟩

end fresh

section pool

variable {env : Env} (he : Healthy env) {K : Path → Prop}
  (hK : ∀ k k', K k → K k' → xxh64 k = xxh64 k' → k = k')
include he hK

/-- A call takes at most two blocks, so a large enough pool outlasts the run. -/
theorem unexhausted_of_ample {calls : List Call} (hs : ∀ c ∈ calls, c.Small ∧ K c.key) {fs : Fs}
    {L : Chain} (h : Represents fs L) (hk : PagedMap.AllKeys K (contents L))
    (ha : Ample (2 * calls.length) fs) : Unexhausted env calls fs := by
  induction calls generalizing fs L with
  | nil =>
    intro pre hpre fs' hrun
    obtain rfl := List.prefix_nil.mp hpre
    obtain ⟨-, rfl⟩ := Prod.mk.inj (Option.some.inj hrun)
    exact ha.live
  | cons c calls ih =>
    intro pre hpre fs' hrun
    cases pre with
    | nil =>
      obtain ⟨-, rfl⟩ := Prod.mk.inj (Option.some.inj hrun)
      exact ha.live
    | cons c' pre =>
      obtain ⟨rfl, hrest⟩ := List.cons_prefix_cons.mp hpre
      obtain ⟨hsmall, hkey⟩ := hs c' List.mem_cons_self
      obtain ⟨rc, fs₁, hc, hgood, hcost⟩ :=
        call_apply he hsmall h ha.live (noClash hK hk hkey)
      rw [List.length_cons] at ha
      have ha₁ : Ample (2 * calls.length) fs₁ := (hcost (ha.mono (by omega))).ample h.pool
        (ha.mono (by omega))
      obtain ⟨L₁, hcont, h₁⟩ := hgood ha₁.live
      rw [runAll_cons hc] at hrun
      exact ih (fun x hx ↦ hs x (List.mem_cons_of_mem _ hx)) h₁
        (by rw [hcont]; exact turn_allKeys hk hkey) ha₁ pre hrest fs' hrun

end pool

theorem distinct_of_nodup {calls : List Call}
    (h : ((rootPath :: calls.map Call.key).dedup.map xxh64).Nodup) : Distinct calls := by
  intro k hk k' hk' hh
  exact List.inj_on_of_nodup_map h (List.mem_dedup.mpr hk) (List.mem_dedup.mpr hk') hh

/-- A run on a one-megabyte file system that is short enough for its pool. -/
theorem freshOne_unexhausted {calls : List Call} (hs : ∀ c ∈ calls, c.Small) (hd : Distinct calls)
    (hl : 2 * calls.length ≤ 240) : Unexhausted steady calls (freshFs steady 1 0) := by
  exact unexhausted_of_ample steady_healthy (K := fun k ↦ k ∈ rootPath :: calls.map Call.key)
    (fun k k' hk hk' ↦ hd k hk k' hk')
    (fun c hc ↦ ⟨hs c hc, List.mem_cons_of_mem _ (List.mem_map_of_mem hc)⟩)
    (fresh_represents steady goodSize_one 0) (by rw [contents_fresh]; simp [PagedMap.AllKeys])
    (freshOne_ample.mono hl)

theorem isMap_put_del : IsMap steady [.put [97] [1], .del [97]] (freshFs steady 1 0) := by
  have hs : ∀ c ∈ [Call.put [97] [1], .del [97]], c.Small := by decide
  have hd : Distinct [Call.put [97] [1], .del [97]] := distinct_of_nodup (by decide +kernel)
  refine (isMap_iff_delOnce steady_healthy (fresh_apply steady_healthy goodSize_one 0) hs hd
    (freshOne_unexhausted hs hd (by decide))).mpr fun pre key hpre ↦ ?_
  obtain rfl : pre = [.put [97] [1]] := by
    have hlen := hpre.length_le
    rcases pre with _ | ⟨c, _ | ⟨c', pre⟩⟩
    · cases (List.cons_prefix_cons.mp hpre).1
    · rw [(List.cons_prefix_cons.mp hpre).1]
    · simp at hlen
  exact List.countP_le_length

/-- The first page of the bucket is filled up; the key of 200 goes to a second page, and after a
deletion in the first page a newer copy of it goes there. -/
def fill : List (Path × List UInt8) :=
  (List.range 55).map fun i ↦ ([UInt8.ofNat (100 + i)], [0])

def refill : List Call :=
  fill.map (fun e ↦ .put e.1 e.2) ++ [.put [200] [1], .del [100], .put [200] [2], .del [200]]

theorem turns_fill (p q : List (Path × List UInt8)) (hn : PagedMap.KeysNodup (p ++ q))
    (hl : (p ++ q).length ≤ slotsPerPage) :
    (q.map fun e ↦ Call.put e.1 e.2).foldl Call.turn [p] = [p ++ q] := by
  induction q generalizing p with
  | nil => simp
  | cons e q ih =>
    have hk : PagedMap.holds p e.1 = false := by
      rw [PagedMap.holds_eq_false]
      intro hmem
      rw [PagedMap.KeysNodup, List.map_append] at hn
      exact (List.nodup_append.mp hn).2.2 _ hmem _ (by simp) rfl
    rw [List.map_cons, List.foldl_cons, Call.turn, PagedMap.put_room hk (by simp at hl; omega)]
    have hassoc : p ++ e :: q = (p ++ [(e.1, e.2)]) ++ q := by simp
    rw [ih _ (by rwa [← hassoc]) (by rwa [← hassoc]), ← hassoc]

theorem get_refill (root : List UInt8) :
    PagedMap.get (pagesAfter root refill) [200] = some [1] := by
  have hn : PagedMap.KeysNodup ((rootPath, root) :: fill) := by
    rw [PagedMap.KeysNodup]
    change (rootPath :: fill.map Prod.fst).Nodup
    decide
  have h200 : PagedMap.holds ((rootPath, root) :: fill) [200] = false := by
    rw [PagedMap.holds_eq_false]
    change [200] ∉ rootPath :: fill.map Prod.fst
    decide
  have h100 : PagedMap.holds ((rootPath, root) :: fill) [100] = true := by
    rw [PagedMap.holds_iff]
    change [100] ∈ rootPath :: fill.map Prod.fst
    decide
  have hlen : ((rootPath, root) :: fill).length = 56 := rfl
  have hfill := turns_fill [(rootPath, root)] fill hn hlen.le
  rw [pagesAfter, refill, List.foldl_append, hfill, List.singleton_append]
  generalize (rootPath, root) :: fill = p at hn h200 h100 hlen
  simp only [List.foldl_cons, List.foldl_nil, Call.turn]
  rw [PagedMap.put_full h200 (by rw [hlen]; decide), PagedMap.del, if_pos h100]
  refine PagedMap.get_del_put (hn.removeFirst h100) ?_ ?_
  · rw [← PagedMap.pageGet_eq_none, PagedMap.pageGet_removeFirst hn h100, if_neg (by decide)]
    exact PagedMap.pageGet_eq_none.mpr h200
  · rw [PagedMap.removeFirst, SwapRemove.length_swapRemove, hlen]
    decide

theorem refill_not_isMap : ¬∀ (env : Env) (sizeMb flags : UInt64) (fs : Fs) (calls : List Call),
    Healthy env → fresh env sizeMb flags = some fs → (∀ c ∈ calls, c.Small) → Distinct calls →
    Unexhausted env calls fs → IsMap env calls fs := by
  intro hall
  have hs : ∀ c ∈ refill, c.Small := by decide
  have hd : Distinct refill := distinct_of_nodup (by decide +kernel)
  have hu := freshOne_unexhausted hs hd (by decide)
  have hf := fresh_apply steady_healthy goodSize_one 0
  obtain ⟨fs₁, hrun, hget⟩ := hall steady 1 0 _ refill steady_healthy hf hs hd hu refill
    List.prefix_rfl
  obtain ⟨fs₂, hrun', hget'⟩ := fresh_get steady_healthy hf hs hd hu
  obtain rfl : fs₁ = fs₂ := by
    rw [hrun] at hrun'
    exact (Prod.mk.inj (Option.some.inj hrun')).2
  obtain ⟨fs₃, h₃⟩ := hget [200] 4096 (by decide) le_rfl
  obtain ⟨fs₄, h₄⟩ := hget' [200] 4096 (by decide) le_rfl
  have hlast : lastPut (rootVal steady) refill [200] = none := by
    rw [lastPut, refill, List.foldl_append]
    simp only [List.foldl_cons, List.foldl_nil]
    exact apply_del_self _ _
  rw [h₃, hlast, get_refill] at h₄
  cases (Prod.mk.inj (Option.some.inj h₄)).1

end Xxfs.IndexMap

import Xxfs.InsertOnly

namespace Xxfs.IndexEffect

open Xxfs.DiskFormat Xxfs.Machine Xxfs.PagedIndex Xxfs.Volume Xxfs.Hash Xxfs.IndexRep
open Xxfs.IndexMap (rootVal contents_fresh expected expected_injective found_eq)
open Xxfs.FreshVolume Xxfs.FreshIndex Xxfs.Lib Xxfs.Lib.Computation Xxfs.Lib.Computation.Comp

inductive Update
  | insert (key : Path) (val : List UInt8)
  | put (key : Path) (val : List UInt8)
  | del (key : Path)
  deriving DecidableEq

namespace Update

def key : Update → Path
  | .insert key _ => key
  | .put key _ => key
  | .del key => key

def val : Update → List UInt8
  | .insert _ val => val
  | .put _ val => val
  | .del _ => []

def Small (u : Update) : Prop := 8 + u.key.length + u.val.length ≤ 4096

instance : DecidablePred Small :=
  fun u ↦ inferInstanceAs (Decidable (8 + u.key.length + u.val.length ≤ 4096))

def run (env : Env) : Update → FsM Rc
  | .insert key val => pagedInsert env key val
  | .put key val => pagedPut env key val
  | .del key => pagedDel env key

/-- What an update does to the pages of the bucket. -/
def turn (ps : List (List (Path × List UInt8))) : Update → List (List (Path × List UInt8))
  | .insert key val => PagedMap.insert slotsPerPage key val ps
  | .put key val => putPages key val ps
  | .del key => delPages key ps

/-- The entry that the update takes for its key's is not one of `j`, and it moves no second
entry of `j` within a page. -/
def Spares (ps : List (List (Path × List UInt8))) (j : Path) : Update → Prop
  | .insert _ _ => True
  | .put key _ => ∀ p e,
    PagedMap.hit (fun k ↦ decide (Alike key k)) (fun p ↦ decide (p.length < slotsPerPage)) ps =
      some (p, e) → e.1 ≠ j
  | .del key => ∀ p e,
    PagedMap.hit (fun k ↦ decide (Alike key k)) (fun _ ↦ false) ps = some (p, e) →
      e.1 ≠ j ∧ PagedMap.Settled p j

end Update

def runAll (env : Env) : List Update → FsM Unit
  | [] => pure ()
  | u :: us => do
    discard (u.run env)
    runAll env us

def pagesAfter (root : List UInt8) (us : List Update) : List (List (Path × List UInt8)) :=
  us.foldl Update.turn [[(rootPath, root)]]

/-- The pool is never exhausted while the updates run. -/
def Unexhausted (env : Env) (us : List Update) (fs : Fs) : Prop :=
  ∀ pre, pre <+: us → ∀ fs', runAll env pre fs = some ((), fs') → Live fs'

/-- `paged_get` of the key has the same outcome in both states. -/
def SameAnswer (env : Env) (key : Path) (fs fs' : Fs) : Prop :=
  ∀ cap, ∃ r fs₁ fs₂, pagedGet env key cap fs = some (r, fs₁) ∧
    pagedGet env key cap fs' = some (r, fs₂)

theorem pagesAfter_concat (root : List UInt8) (us : List Update) (u : Update) :
    pagesAfter root (us ++ [u]) = u.turn (pagesAfter root us) := by
  rw [pagesAfter, List.foldl_append]
  rfl

theorem turn_put (ps : List (List (Path × List UInt8))) (key : Path) (val : List UInt8) :
    (Update.put key val).turn ps = putPages key val ps := rfl

section pages

variable {ps : List (List (Path × List UInt8))} {j : Path}

theorem get_turn {u : Update} (hj : j ≠ u.key) (hs : u.Spares ps j) :
    PagedMap.get (u.turn ps) j = PagedMap.get ps j := by
  cases u with
  | insert key val => exact PagedMap.get_insert_ne hj
  | put key val =>
    refine PagedMap.get_putBy_ne hj (fun e ↦ ?_) hs
    rw [overwrite]
    dsimp only
    split
    · exact .inl rfl
    · exact .inr rfl
  | del key => exact PagedMap.get_delBy_ne hs

end pages

section run

variable {env : Env} (he : Healthy env)
include he

theorem update_apply {u : Update} (hs : u.Small) {fs : Fs} {L : Chain} (h : Represents fs L)
    (hl : Live fs) : ∃ rc fs', u.run env fs = some (rc, fs') ∧
      (Live fs' → ∃ L', contents L' = u.turn (contents L) ∧ Represents fs' L') ∧
      (Ample 2 fs → Cost 2 fs fs') := by
  have hends {rc : Rc} {fs' : Fs} {ps : List (List (Path × List UInt8))}
      (hE : Ends 2 L ps fs rc fs') (hl' : Live fs') :
      ∃ L', contents L' = ps ∧ Represents fs' L' := by
    obtain ⟨-, L', hcont, hR, -⟩ := hE.good hl'
    exact ⟨L', hcont, hR⟩
  cases u with
  | insert key val =>
    obtain ⟨rc, fs', hrun, hE⟩ := pagedInsert_apply he hs h hl
    exact ⟨rc, fs', hrun, hends hE, hE.cheap⟩
  | put key val =>
    obtain ⟨rc, fs', hrun, hE⟩ := pagedPut_pages he hs h hl
    exact ⟨rc, fs', hrun, hends hE, hE.cheap⟩
  | del key =>
    have hk : key.length < 2 ^ 32 := by
      have : 8 + key.length + 0 ≤ 4096 := hs
      omega
    obtain ⟨fs', L', hrun, hcont, hR, -, hsb⟩ := pagedDel_pages he hk h
    exact ⟨_, fs', hrun, fun _ ↦ ⟨L', hcont, hR⟩, fun _ ↦ cost_of_sb hsb 2⟩

omit he in
theorem runAll_cons {u : Update} {us : List Update} {fs fs₁ : Fs} {rc : Rc}
    (h : u.run env fs = some (rc, fs₁)) : runAll env (u :: us) fs = runAll env us fs₁ := by
  rw [runAll, bind_apply, discard_apply, h]
  rfl

/-- A run of updates does to the chain what it does to the pages, whatever the hashes are. -/
theorem run_apply {us : List Update} (hs : ∀ u ∈ us, u.Small) {fs : Fs} {L : Chain}
    (h : Represents fs L) (hu : Unexhausted env us fs) : ∃ fs' L',
      runAll env us fs = some ((), fs') ∧ contents L' = us.foldl Update.turn (contents L) ∧
      Represents fs' L' := by
  induction us generalizing fs L with
  | nil => exact ⟨fs, L, rfl, rfl, h⟩
  | cons u us ih =>
    have hl : Live fs := hu [] List.nil_prefix fs rfl
    obtain ⟨rc, fs₁, hrun, hgood, -⟩ := update_apply he (hs u List.mem_cons_self) h hl
    have hcons {rest : List Update} : runAll env (u :: rest) fs = runAll env rest fs₁ :=
      runAll_cons hrun
    have hl₁ : Live fs₁ := hu [u] (List.prefix_append [u] us) fs₁ (by rw [hcons]; rfl)
    obtain ⟨L₁, hcont, h₁⟩ := hgood hl₁
    have hu₁ : Unexhausted env us fs₁ := fun pre hpre fs' hpr ↦
      hu (u :: pre) ((List.prefix_cons_inj u).mpr hpre) fs' (by rw [hcons, hpr])
    obtain ⟨fs', L', hrest, hcont', hR⟩ :=
      ih (fun x hx ↦ hs x (List.mem_cons_of_mem _ hx)) h₁ hu₁
    exact ⟨fs', L', by rw [hcons, hrest], by rw [hcont', hcont, List.foldl_cons], hR⟩

omit he in
theorem found_congr {L L' : Chain} {key : Path} (cap : ℕ)
    (h : PagedMap.get (contents L) key = PagedMap.get (contents L') key) :
    found (ents L) key cap = found (ents L') key cap := by
  have hfound (M : Chain) : found (ents M) key cap =
      (PagedMap.get (contents M) key).elim (.error .enoent) fun val ↦
        if val.length > cap then .error .enospc else .ok val := by
    rw [← IndexMap.lookup_ents, found]
    cases lookup (ents M) key <;> rfl
  rw [hfound, hfound, h]

theorem fresh_run {sizeMb flags : UInt64} {fs : Fs} (hf : fresh env sizeMb flags = some fs)
    {us : List Update} (hs : ∀ u ∈ us, u.Small) (hu : Unexhausted env us fs) : ∃ fs' L',
      runAll env us fs = some ((), fs') ∧ contents L' = pagesAfter (rootVal env) us ∧
      Represents fs' L' := by
  have h := fresh_represents env (goodSize_of_fresh hf) flags
  rw [← eq_freshFs he hf] at h
  obtain ⟨fs', L', hrun, hcont, hR⟩ := run_apply he hs h hu
  exact ⟨fs', L', hrun, by rw [hcont, contents_fresh, pagesAfter], hR⟩

/-- In every state that updates of a fresh index lead to, an update leaves the outcome of
`paged_get` for each other key that it spares. -/
theorem update_leaves_others {sizeMb flags : UInt64} {fs : Fs}
    (hf : fresh env sizeMb flags = some fs) {pre : List Update} {u : Update}
    (hs : ∀ x ∈ pre ++ [u], x.Small) (hu : Unexhausted env (pre ++ [u]) fs) : ∃ fs₁ fs₂,
      runAll env pre fs = some ((), fs₁) ∧ runAll env (pre ++ [u]) fs = some ((), fs₂) ∧
      ∀ j, j.length < 2 ^ 32 → j ≠ u.key → u.Spares (pagesAfter (rootVal env) pre) j →
        SameAnswer env j fs₁ fs₂ := by
  have hpre : pre <+: pre ++ [u] := List.prefix_append pre [u]
  obtain ⟨fs₁, L₁, hrun₁, hcont₁, hR₁⟩ := fresh_run he hf (fun x hx ↦ hs x (hpre.subset hx))
    fun q hq ↦ hu q (hq.trans hpre)
  obtain ⟨fs₂, L₂, hrun₂, hcont₂, hR₂⟩ := fresh_run he hf hs hu
  refine ⟨fs₁, fs₂, hrun₁, hrun₂, fun j hk hj hsp cap ↦ ?_⟩
  have hget : PagedMap.get (contents L₁) j = PagedMap.get (contents L₂) j := by
    rw [hcont₁, hcont₂, pagesAfter_concat, get_turn hj hsp]
  obtain ⟨fs₃, hg₁, -, -⟩ := pagedGet_apply he cap hk hR₁
  obtain ⟨fs₄, hg₂, -, -⟩ := pagedGet_apply he cap hk hR₂
  exact ⟨_, fs₃, fs₄, hg₁, by rw [hg₂, found_congr cap hget]⟩

/-- An update takes at most two blocks, so a large enough pool outlasts the run. -/
theorem unexhausted_of_ample {us : List Update} (hs : ∀ u ∈ us, u.Small) {fs : Fs} {L : Chain}
    (h : Represents fs L) (ha : Ample (2 * us.length) fs) : Unexhausted env us fs := by
  induction us generalizing fs L with
  | nil =>
    intro pre hpre fs' hrun
    obtain rfl := List.prefix_nil.mp hpre
    obtain ⟨-, rfl⟩ := Prod.mk.inj (Option.some.inj hrun)
    exact ha.live
  | cons u us ih =>
    intro pre hpre fs' hrun
    cases pre with
    | nil =>
      obtain ⟨-, rfl⟩ := Prod.mk.inj (Option.some.inj hrun)
      exact ha.live
    | cons u' pre =>
      obtain ⟨rfl, hrest⟩ := List.cons_prefix_cons.mp hpre
      obtain ⟨rc, fs₁, hrun₁, hgood, hcost⟩ :=
        update_apply he (hs u' List.mem_cons_self) h ha.live
      rw [List.length_cons] at ha
      have ha₁ : Ample (2 * us.length) fs₁ := (hcost (ha.mono (by omega))).ample h.pool
        (ha.mono (by omega))
      obtain ⟨L₁, -, h₁⟩ := hgood ha₁.live
      rw [runAll_cons hrun₁] at hrun
      exact ih (fun x hx ↦ hs x (List.mem_cons_of_mem _ hx)) h₁ ha₁ pre hrest fs' hrun

end run

theorem freshOne_unexhausted {us : List Update} (hs : ∀ u ∈ us, u.Small)
    (hl : 2 * us.length ≤ 240) : Unexhausted steady us (freshFs steady 1 0) :=
  unexhausted_of_ample steady_healthy hs (fresh_represents steady goodSize_one 0)
    (freshOne_ample.mono hl)

section second

variable {m : Path → Bool} {f : Path × List UInt8 → Path × List UInt8} {cap : ℕ}
  {e : Path × List UInt8} {root val : List UInt8} {key k : Path}

theorem putBy_room_one (hr : m rootPath = false) (hcap : 1 < cap) :
    PagedMap.putBy m f cap e [[(rootPath, root)]] = [[(rootPath, root), e]] :=
  PagedMap.putBy_room (by simp [hr]) hcap

theorem find_second (hr : m rootPath = false) (hk : m k = true) :
    [(rootPath, root), (k, val)].find? (fun x ↦ m x.1) = some (k, val) := by
  simp [hr, hk]

theorem putBy_second (hr : m rootPath = false) (hk : m k = true) :
    PagedMap.putBy m f cap e [[(rootPath, root), (k, val)]] =
      [[(rootPath, root), f (k, val)]] := by
  simp [PagedMap.putBy, PagedMap.updateFirst, hr, hk]

theorem pagesAfter_put (h : ¬Alike key rootPath) :
    pagesAfter root [.put key val] = [[(rootPath, root), (key, val)]] := by
  rw [← List.nil_append [Update.put key val], pagesAfter_concat, turn_put, pagesAfter,
    List.foldl_nil, putPages,
    putBy_room_one (m := fun k ↦ decide (Alike key k)) (decide_eq_false h) (by decide)]

/-- A value no longer than the one there is written behind the key that stands there. -/
theorem pagesAfter_put_alike {val' : List UInt8} (h : ¬Alike k rootPath)
    (h' : ¬Alike key rootPath) (hk : Alike key k) (hl : val'.length ≤ val.length) :
    pagesAfter root [.put k val, .put key val'] = [[(rootPath, root), (k, val')]] := by
  have happend : [Update.put k val, .put key val'] = [.put k val] ++ [.put key val'] := rfl
  rw [happend, pagesAfter_concat, turn_put, pagesAfter_put h, putPages,
    putBy_second (m := fun k ↦ decide (Alike key k)) (decide_eq_false h') (decide_eq_true hk),
    overwrite, if_pos hl]

end second

theorem put_leaves_root : ∃ fs₁ fs₂,
    runAll steady [.put [97] [1]] (freshFs steady 1 0) = some ((), fs₁) ∧
    runAll steady [.put [97] [1], .put [97] [2]] (freshFs steady 1 0) = some ((), fs₂) ∧
    SameAnswer steady rootPath fs₁ fs₂ := by
  have hs : ∀ u ∈ [Update.put [97] [1]] ++ [.put [97] [2]], u.Small := by decide
  obtain ⟨fs₁, fs₂, h₁, h₂, hall⟩ := update_leaves_others steady_healthy
    (fresh_apply steady_healthy goodSize_one 0) hs (freshOne_unexhausted hs (by decide))
  refine ⟨fs₁, fs₂, h₁, h₂, hall rootPath (by decide) (by decide) fun p e hit ↦ ?_⟩
  have hroot : ¬Alike [97] rootPath := by decide +kernel
  rw [pagesAfter_put hroot, PagedMap.hit_here (find_second (m := fun k ↦ decide (Alike [97] k))
    (decide_eq_false hroot) (decide_eq_true (.refl _)))] at hit
  obtain ⟨-, rfl⟩ := Prod.mk.inj (Option.some.inj hit)
  decide

/-- Two keys of one length with the same first bytes and the same hash. -/
def twin : Path :=
  47 :: List.replicate 47 97 ++ [113, 100, 120, 101, 110, 97, 105, 109] ++ List.replicate 8 97

def twin' : Path :=
  47 :: List.replicate 15 97 ++ [109, 109, 116, 117, 112, 101, 107, 104] ++ List.replicate 24 97 ++
    [104, 104, 46, 48, 43, 122, 54, 100] ++ List.replicate 8 97

theorem twins_alike : Alike twin twin' := by decide +kernel

/-- A put of one twin changes what is found for the other. -/
theorem twin_put_changes : ¬∀ (env : Env) (sizeMb flags : UInt64) (fs : Fs) (pre : List Update)
    (u : Update), Healthy env → fresh env sizeMb flags = some fs → (∀ x ∈ pre ++ [u], x.Small) →
    Unexhausted env (pre ++ [u]) fs → (∀ key val, u ≠ .insert key val) → ∃ fs₁ fs₂,
      runAll env pre fs = some ((), fs₁) ∧ runAll env (pre ++ [u]) fs = some ((), fs₂) ∧
      ∀ j, j.length < 2 ^ 32 → j ≠ u.key → SameAnswer env j fs₁ fs₂ := by
  intro hall
  have hs : ∀ u ∈ [Update.put twin' [1]] ++ [.put twin [2]], u.Small := by decide
  have hu := freshOne_unexhausted hs (by decide)
  have hf := fresh_apply steady_healthy goodSize_one 0
  have hpre : [Update.put twin' [1]] <+: [Update.put twin' [1]] ++ [.put twin [2]] :=
    List.prefix_append _ _
  obtain ⟨fs₁, fs₂, h₁, h₂, hsame⟩ := hall steady 1 0 _ [.put twin' [1]] (.put twin [2])
    steady_healthy hf hs hu fun _ _ h ↦ by cases h
  obtain ⟨fs₃, L₁, hrun₁, hcont₁, hR₁⟩ := fresh_run steady_healthy hf
    (fun x hx ↦ hs x (hpre.subset hx)) fun q hq ↦ hu q (hq.trans hpre)
  obtain ⟨fs₄, L₂, hrun₂, hcont₂, hR₂⟩ := fresh_run steady_healthy hf hs hu
  obtain rfl : fs₁ = fs₃ := (Prod.mk.inj (Option.some.inj (h₁.symm.trans hrun₁))).2
  obtain rfl : fs₂ = fs₄ := (Prod.mk.inj (Option.some.inj (h₂.symm.trans hrun₂))).2
  have hk : twin'.length < 2 ^ 32 := by decide
  obtain ⟨r, fs₅, fs₆, hr₁, hr₂⟩ := hsame twin' hk (by decide) 4096
  obtain ⟨fs₇, hg₁, -, -⟩ := pagedGet_apply steady_healthy 4096 hk hR₁
  obtain ⟨fs₈, hg₂, -, -⟩ := pagedGet_apply steady_healthy 4096 hk hR₂
  have hroot : ¬Alike twin rootPath ∧ ¬Alike twin' rootPath := by decide +kernel
  have hget (root v : List UInt8) :
      PagedMap.get [[(rootPath, root), (twin', v)]] twin' = some v := by
    have hne : rootPath ≠ twin' := by decide
    simp [PagedMap.get, PagedMap.pageGet, hne]
  rw [hg₁, found_eq hR₁ twin' le_rfl, hcont₁, pagesAfter_put hroot.2, hget] at hr₁
  rw [hg₂, found_eq hR₂ twin' le_rfl, hcont₂, List.singleton_append,
    pagesAfter_put_alike hroot.2 hroot.1 twins_alike (by decide), hget] at hr₂
  have hval := (Prod.mk.inj (Option.some.inj hr₁)).1.trans (Prod.mk.inj (Option.some.inj hr₂)).1.symm
  cases hval

end Xxfs.IndexEffect

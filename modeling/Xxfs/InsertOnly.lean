import Xxfs.IndexMap

namespace Xxfs.InsertOnly

open Xxfs.DiskFormat Xxfs.Machine Xxfs.PagedIndex Xxfs.Volume Xxfs.Hash Xxfs.IndexRep
open Xxfs.FreshVolume Xxfs.FreshIndex Xxfs.IndexMap Xxfs.Lib Xxfs.Lib.Computation
open Xxfs.Lib.Computation.Comp

/-- A run of `paged_insert`, with what each call returns. -/
def insertAll (env : Env) : List (Path × List UInt8) → FsM (List Rc)
  | [] => pure []
  | e :: es => do
    let rc ← pagedInsert env e.1 e.2
    let rcs ← insertAll env es
    return rc :: rcs

/-- `paged_get` of the key answers `r`, whatever buffer of at least `need` bytes it is given. -/
def Answers (env : Env) (fs : Fs) (key : Path) (need : ℕ) (r : Except Rc (List UInt8)) : Prop :=
  ∀ cap ≥ need, ∃ fs', pagedGet env key cap fs = some (r, fs')

section found

variable {L : Chain} {key : Path}

theorem found_none (cap : ℕ) (h : PagedMap.get (contents L) key = none) :
    found (ents L) key cap = .error .enoent := by
  have hl : lookup (ents L) key = none := by
    rw [← lookup_ents] at h
    exact Option.map_eq_none_iff.mp h
  rw [found, hl]

theorem found_some {cap : ℕ} {val : List UInt8} (h : PagedMap.get (contents L) key = some val)
    (hcap : val.length ≤ cap) : found (ents L) key cap = .ok val := by
  rw [← lookup_ents] at h
  obtain ⟨e, hl, rfl⟩ := Option.map_eq_some_iff.mp h
  rw [found, hl]
  exact if_neg (Nat.not_lt.mpr hcap)

end found

section run

variable {env : Env} (he : Healthy env)
include he

/-- Each insertion takes at most two blocks and adds its pair to the first page with room. -/
theorem insertAll_apply {es : List (Path × List UInt8)}
    (hs : ∀ e ∈ es, 8 + e.1.length + e.2.length ≤ 4096) {fs : Fs} {L : Chain}
    (h : Represents fs L) (ha : Ample (2 * es.length) fs) : ∃ fs' L',
      insertAll env es fs = some (List.replicate es.length .ok, fs') ∧
      contents L' = es.foldl (fun ps e ↦ PagedMap.insert slotsPerPage e.1 e.2 ps) (contents L) ∧
      Represents fs' L' := by
  induction es generalizing fs L with
  | nil => exact ⟨fs, L, rfl, rfl, h⟩
  | cons e es ih =>
    rw [List.length_cons] at ha
    obtain ⟨rc, fs₁, hins, hE⟩ := pagedInsert_apply he (hs e List.mem_cons_self) h ha.live
    have ha₁ : Ample (2 * es.length) fs₁ :=
      (hE.cheap (ha.mono (by omega))).ample h.pool (ha.mono (by omega))
    obtain ⟨rfl, L₁, hcont, h₁, -⟩ := hE.good ha₁.live
    obtain ⟨fs', L', hrest, hcont', h'⟩ :=
      ih (fun x hx ↦ hs x (List.mem_cons_of_mem _ hx)) h₁ ha₁
    refine ⟨fs', L', ?_, by rw [hcont', hcont, List.foldl_cons], h'⟩
    rw [insertAll, bind_apply, hins, Option.bind_some, bind_apply, hrest]
    rfl

theorem Represents.answers_some {fs : Fs} {L : Chain} (h : Represents fs L) {key : Path}
    (hk : key.length < 2 ^ 32) {val : List UInt8} (hv : PagedMap.get (contents L) key = some val) :
    Answers env fs key val.length (.ok val) := by
  intro cap hcap
  obtain ⟨fs', hget, -, -⟩ := pagedGet_apply he cap hk h
  exact ⟨fs', by rw [hget, found_some hv hcap]⟩

theorem Represents.answers_none {fs : Fs} {L : Chain} (h : Represents fs L) {key : Path}
    (hk : key.length < 2 ^ 32) (hv : PagedMap.get (contents L) key = none) :
    Answers env fs key 0 (.error .enoent) := by
  intro cap _
  obtain ⟨fs', hget, -, -⟩ := pagedGet_apply he cap hk h
  exact ⟨fs', by rw [hget, found_none cap hv]⟩

/-- After insertions of distinct keys into a fresh index `paged_get` finds each of them and the
root with its value, and nothing else. No hash has to be distinct. -/
theorem inserted_exact {sizeMb flags : UInt64} {fs : Fs} (hf : fresh env sizeMb flags = some fs)
    {es : List (Path × List UInt8)} (hd : (es.map Prod.fst).Nodup)
    (hroot : ∀ e ∈ es, e.1 ≠ rootPath) (hs : ∀ e ∈ es, 8 + e.1.length + e.2.length ≤ 4096)
    (ha : Ample (2 * es.length) fs) : ∃ fs',
      insertAll env es fs = some (List.replicate es.length .ok, fs') ∧
      (∀ e ∈ es, Answers env fs' e.1 e.2.length (.ok e.2)) ∧
      Answers env fs' rootPath inodeSize (.ok (rootVal env)) ∧
      ∀ key, key.length < 2 ^ 32 → key ≠ rootPath → (∀ e ∈ es, e.1 ≠ key) →
        Answers env fs' key 0 (.error .enoent) := by
  have h := fresh_represents env (goodSize_of_fresh hf) flags
  rw [← eq_freshFs he hf] at h
  obtain ⟨fs', L', hrun, hcont, hR⟩ := insertAll_apply he hs h ha
  have hstart (k : Path) (hk : k ≠ rootPath) :
      PagedMap.get [[(rootPath, rootVal env)]] k = none := by
    have hk' : rootPath ≠ k := fun h ↦ hk h.symm
    simp [PagedMap.get, PagedMap.pageGet, hk']
  have hget (k : Path) : PagedMap.get (contents L') k =
      (PagedMap.pageGet es k).or (PagedMap.get [[(rootPath, rootVal env)]] k) := by
    rw [hcont, contents_fresh]
    exact PagedMap.get_insertAll hd (fun e he ↦ hstart e.1 (hroot e he)) k
  refine ⟨fs', hrun, fun e hmem ↦ ?_, ?_, fun key hk hne hno ↦ ?_⟩
  · have hsmall := hs e hmem
    refine Represents.answers_some he hR (by omega) ?_
    rw [hget, (PagedMap.pageGet_eq_some hd).mpr hmem]
    rfl
  · have hnone : PagedMap.pageGet es rootPath = none := by
      refine PagedMap.pageGet_eq_none.mpr (PagedMap.holds_eq_false.mpr fun hmem ↦ ?_)
      obtain ⟨e, he', hek⟩ := List.mem_map.mp hmem
      exact hroot e he' hek
    have hlen : (rootVal env).length = inodeSize := inodeToVal_length _
    rw [← hlen]
    refine Represents.answers_some he hR (by decide) ?_
    rw [hget, hnone]
    simp [PagedMap.get, PagedMap.pageGet]
  · have hnone : PagedMap.pageGet es key = none := by
      refine PagedMap.pageGet_eq_none.mpr (PagedMap.holds_eq_false.mpr fun hmem ↦ ?_)
      obtain ⟨e, he', hek⟩ := List.mem_map.mp hmem
      exact hno e he' hek
    refine Represents.answers_none he hR hk ?_
    rw [hget, hnone, hstart key hne]
    rfl

end run

theorem inserted_pair : ∃ fs', insertAll steady [([97], [1]), ([98], [2])] (freshFs steady 1 0) =
      some ([.ok, .ok], fs') ∧
    (∀ e ∈ [(([97] : Path), ([1] : List UInt8)), ([98], [2])],
      Answers steady fs' e.1 e.2.length (.ok e.2)) ∧
    Answers steady fs' rootPath inodeSize (.ok (rootVal steady)) ∧
    ∀ key, key.length < 2 ^ 32 → key ≠ rootPath →
      (∀ e ∈ [(([97] : Path), ([1] : List UInt8)), ([98], [2])], e.1 ≠ key) →
      Answers steady fs' key 0 (.error .enoent) :=
  inserted_exact steady_healthy (fresh_apply steady_healthy goodSize_one 0) (by decide) (by decide)
    (by decide) (freshOne_ample.mono (by decide))

end Xxfs.InsertOnly

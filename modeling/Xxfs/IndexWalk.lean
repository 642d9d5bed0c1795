import Xxfs.IndexAppend

namespace Xxfs.IndexRep

open Xxfs.DiskFormat Xxfs.Machine Xxfs.Allocator Xxfs.PageCache Xxfs.PagedIndex Xxfs.PageStore
open Xxfs.Hash Xxfs.Frames Xxfs.Lib.Computation Xxfs.Lib.Computation.Comp
open Xxfs.Lib Xxfs.Lib.SwapRemove

def pairs (es : List Ent) : List (Path × List UInt8) := es.map fun e ↦ (e.key, e.val)

def contents (L : Chain) : List (List (Path × List UInt8)) := L.map fun p ↦ pairs p.2

@[simp] theorem contents_append (L L' : Chain) : contents (L ++ L') = contents L ++ contents L' :=
  List.map_append

@[simp] theorem contents_cons (p : UInt64 × List Ent) (L : Chain) :
    contents (p :: L) = pairs p.2 :: contents L := rfl

@[simp] theorem contents_nil : contents [] = [] := rfl

@[simp] theorem pairs_nil : pairs [] = [] := rfl

@[simp] theorem pairs_append (es es' : List Ent) : pairs (es ++ es') = pairs es ++ pairs es' :=
  List.map_append

@[simp] theorem pairs_cons (e : Ent) (es : List Ent) :
    pairs (e :: es) = (e.key, e.val) :: pairs es := rfl

/-- What `paged_put` makes of an entry it takes for its key's. -/
def overwrite (key : Path) (val : List UInt8) (e : Path × List UInt8) : Path × List UInt8 :=
  (if val.length ≤ e.2.length then e.1 else key, val)

/-- What `paged_put` does to the pages of the bucket. -/
def putPages (key : Path) (val : List UInt8) (ps : List (List (Path × List UInt8))) :
    List (List (Path × List UInt8)) :=
  PagedMap.putBy (fun k ↦ decide (Alike key k)) (overwrite key val) slotsPerPage (key, val) ps

def delPages (key : Path) (ps : List (List (Path × List UInt8))) :
    List (List (Path × List UInt8)) :=
  PagedMap.delBy (fun k ↦ decide (Alike key k)) ps

theorem any_pairs {es : List Ent} {key : Path} :
    ((pairs es).any fun x ↦ decide (Alike key x.1)) = true ↔ ∃ e ∈ es, Alike key e.key := by
  rw [List.any_eq_true]
  constructor
  · rintro ⟨x, hx, h⟩
    obtain ⟨e, he, rfl⟩ := List.mem_map.mp hx
    exact ⟨e, he, of_decide_eq_true h⟩
  · rintro ⟨e, he, h⟩
    exact ⟨(e.key, e.val), List.mem_map_of_mem he, decide_eq_true h⟩

/-- No other key of the entries has the key's hash. -/
def NoClash (es : List Ent) (key : Path) : Prop := ∀ e ∈ es, xxh64 e.key = xxh64 key → e.key = key

section clash

variable {L : Chain} {key : Path} (hc : NoClash (ents L) key)
include hc

theorem NoClash.alike_iff {e : Ent} (he : e ∈ ents L) : Alike key e.key ↔ e.key = key := by
  constructor
  · intro ha
    exact hc e he ha.1
  · rintro rfl
    exact .refl _

theorem NoClash.matches_iff : ∀ p ∈ contents L, ∀ x ∈ p,
    decide (Alike key x.1) = true ↔ x.1 = key := by
  intro p hp x hx
  obtain ⟨q, hq, rfl⟩ := List.mem_map.mp hp
  obtain ⟨e, he, rfl⟩ := List.mem_map.mp hx
  rw [decide_eq_true_iff]
  exact hc.alike_iff (List.mem_flatMap.mpr ⟨q, hq, he⟩)

theorem NoClash.putPages_eq (val : List UInt8) :
    putPages key val (contents L) = PagedMap.put slotsPerPage key val (contents L) := by
  refine PagedMap.putBy_eq_put hc.matches_iff fun x hx ↦ ?_
  rw [overwrite, hx, ite_self]

theorem NoClash.delPages_eq : delPages key (contents L) = PagedMap.del key (contents L) :=
  PagedMap.delBy_eq_del hc.matches_iff

end clash

section find

variable {img : Image} {pg : PagedPage} {es : List Ent} {key : Path}

theorem PageRep.matches_iff (h : PageRep img pg es) (hk : key.length < 2 ^ 32) {i : ℕ} {e : Ent}
    (he : es[i]? = some e) : slotMatches (pg.slot i) (xxh64 key) key = true ↔ Alike key e.key :=
  (h.slots i e he).matches_iff hk

theorem PageRep.findSlot_none (h : PageRep img pg es) (hk : key.length < 2 ^ 32) :
    findSlot pg (xxh64 key) key = none ↔ ∀ e ∈ es, ¬Alike key e.key := by
  rw [findSlot, List.find?_eq_none, h.count]
  constructor
  · intro hn e hmem halike
    obtain ⟨i, he⟩ := List.getElem?_of_mem hmem
    exact hn i (List.mem_range.mpr (List.getElem?_eq_some_iff.mp he).1)
      ((h.matches_iff hk he).mpr halike)
  · intro hn i hi hm
    have he := List.getElem?_eq_getElem (List.mem_range.mp hi)
    exact hn _ (List.getElem_mem _) ((h.matches_iff hk he).mp hm)

theorem PageRep.findSlot_some (h : PageRep img pg es) (hk : key.length < 2 ^ 32) {i : ℕ}
    (hf : findSlot pg (xxh64 key) key = some i) : ∃ l₁ e l₂, es = l₁ ++ e :: l₂ ∧ l₁.length = i ∧
      Alike key e.key ∧ ∀ x ∈ l₁, ¬Alike key x.key := by
  obtain ⟨hm, hi, hbefore⟩ := List.find?_range_eq_some.mp hf
  have hlt : i < es.length := by rw [← h.count]; exact List.mem_range.mp hi
  refine ⟨es.take i, es[i], es.drop (i + 1), ?_, ?_, ?_, fun x hx halike ↦ ?_⟩
  · rw [← List.drop_eq_getElem_cons hlt, List.take_append_drop]
  · rw [List.length_take]
    omega
  · exact (h.matches_iff hk (List.getElem?_eq_getElem hlt)).mp hm
  · obtain ⟨j, hj⟩ := List.getElem?_of_mem hx
    have hji : j < i := by
      have := (List.getElem?_eq_some_iff.mp hj).1
      rw [List.length_take] at this
      omega
    rw [List.getElem?_take_of_lt hji] at hj
    have hno := hbefore j hji
    rw [(h.matches_iff hk hj).mpr halike] at hno
    cases hno

end find

section load

variable {env : Env} {fs : Fs} {pre post : Chain} {o : UInt64} {es : List Ent}

theorem Represents.load (he : Healthy env) (h : Represents fs (pre ++ (o, es) :: post)) :
    ∃ fs₁, pageLoad env o fs = some (some (pageAt fs₁ o), fs₁) ∧
      Represents fs₁ (pre ++ (o, es) :: post) ∧
      Moved (pre ++ (o, es) :: post) (pre ++ (o, es) :: post) fs fs₁ ∧ fs₁.sb = fs.sb ∧
      PageRep fs₁.img (pageAt fs₁ o) es ∧ (pageAt fs₁ o).overflowNext = headOff post ∧ o ≠ 0 := by
  have ho : o ∈ offs (pre ++ (o, es) :: post) := mid_mem_offs
  obtain ⟨fs₁, hload, hk₁, hq⟩ := pageLoad_apply he h.pages ho
  have h₁ := h.quiet hk₁ hq
  refine ⟨fs₁, by rw [hload, hq.pages o ho], h₁, .ofQuiet hq, hq.sb, h₁.reps (o, es) (by simp),
    h₁.links.suffix.1, h.ne_zero (offs_subset_blocks ho)⟩

theorem Live.of_sb {fs fs' : Fs} (h : Live fs) (hs : fs'.sb = fs.sb) : Live fs' :=
  ⟨by rw [hs]; exact h.pool, by rw [hs]; exact h.addr⟩

end load

section put

variable {env : Env} {key : Path} {val : List UInt8}

/-- How an operation that turns the chain `L` into one with the contents `ps` ends, unless it
exhausts the pool. Of an ample pool it takes at most `k` blocks. -/
structure Ends (k : ℕ) (L : Chain) (ps : List (List (Path × List UInt8))) (fs : Fs) (rc : Rc)
    (fs' : Fs) : Prop where
  good : Live fs' → rc = .ok ∧ ∃ L', contents L' = ps ∧ Represents fs' L' ∧ Moved L L' fs fs'
  cheap : Ample k fs → Cost k fs fs'

theorem Ends.after {j k : ℕ} {L L₁ : Chain} {ps : List (List (Path × List UInt8))}
    {fs fs₁ fs' : Fs} {rc : Rc} (h : Ends k L₁ ps fs₁ rc fs') (hm : Moved L L₁ fs fs₁)
    (hc : Cost j fs fs₁) (hp : PoolOk fs.sb) : Ends (j + k) L ps fs rc fs' := by
  refine ⟨fun hl ↦ ?_, fun ha ↦ hc.trans (h.cheap (hc.ample hp ha))⟩
  obtain ⟨hrc, L', hcont, hR, hM⟩ := h.good hl
  exact ⟨hrc, L', hcont, hR, hm.trans hM hp⟩

theorem Ends.mono {j k : ℕ} {L : Chain} {ps : List (List (Path × List UInt8))} {fs fs' : Fs}
    {rc : Rc} (h : Ends j L ps fs rc fs') (hjk : j ≤ k) : Ends k L ps fs rc fs' :=
  ⟨h.good, fun ha ↦ (h.cheap (ha.mono hjk)).mono hjk⟩

theorem notePassed_apply (val : List UInt8) (fs : Fs) :
    notePassed val fs = some ((), { fs with passed := val :: fs.passed }) := rfl

theorem Ends.noted {k : ℕ} {L : Chain} {ps : List (List (Path × List UInt8))} {fs fs' : Fs} {rc : Rc}
    {vals : List (List UInt8)} (h : Ends k L ps { fs with passed := vals } rc fs') :
    Ends k L ps fs rc fs' := by
  refine ⟨fun hl ↦ ?_, fun ha ↦ h.cheap ⟨ha.pool, ha.addr⟩⟩
  obtain ⟨hrc, L', hcont, hR, hM⟩ := h.good hl
  exact ⟨hrc, L', hcont, hR, hM.sb, hM.grow, hM.data, hM.size⟩

/-- A page with room takes the entry, if the pool can still give it a record. -/
theorem Represents.append_ends (he : Healthy env) {fs : Fs} {pre post : Chain} {o : UInt64}
    {es : List Ent} (h : Represents fs (pre ++ (o, es) :: post)) (hroom : es.length < slotsPerPage)
    (hsmall : 8 + key.length + val.length ≤ 4096) : ∃ rc fs',
      appendSlot env (pageAt fs o) o (xxh64 key) key val fs = some (rc, fs') ∧
      Ends 1 (pre ++ (o, es) :: post)
        (contents pre ++ (pairs es ++ [(key, val)]) :: contents post) fs rc fs' := by
  by_cases hl : Live fs
  · obtain ⟨fs', loc, ha, hcost, hR, hM⟩ := h.appendSlot_apply he hl hroom hsmall
    exact ⟨_, fs', ha, fun _ ↦ ⟨rfl, _, by simp [pairs], hR, hM⟩, fun _ ↦ hcost⟩
  · obtain ⟨rc, fs', ha⟩ := appendSlot_total env (pageAt fs o) o (xxh64 key) key val fs
    refine ⟨rc, fs', ha, fun hl' ↦ (hl ?_).elim, fun hc ↦ (hl hc.live).elim⟩
    exact hl'.of_spent (appendSlot_indexOnly (P := fun _ ↦ True) env _ _ _ _ _ _ _ _ ha).spent

theorem key_lt (hsmall : 8 + key.length + val.length ≤ 4096) : key.length < 2 ^ 32 := by
  omega

theorem any_of_none {es : List Ent} (h : ∀ e ∈ es, ¬Alike key e.key) :
    ¬((pairs es).any fun x ↦ decide (Alike key x.1)) = true := by
  rw [any_pairs]
  rintro ⟨e, he, hk⟩
  exact h e he hk

theorem length_pairs (es : List Ent) : (pairs es).length = es.length := List.length_map _

theorem putWalk_room (he : Healthy env) (retry : FsM Rc) {fs : Fs} {pre post : Chain} {o : UInt64}
    {es : List Ent} (h : Represents fs (pre ++ (o, es) :: post)) (hroom : es.length < slotsPerPage)
    (hsmall : 8 + key.length + val.length ≤ 4096) (hno : ∀ e ∈ es, ¬Alike key e.key)
    (n : ℕ) : ∃ rc fs',
      putWalk env retry (xxh64 key) key val (n + 1) o fs = some (rc, fs') ∧
      Ends 1 (pre ++ (o, es) :: post)
        (contents pre ++ (pairs es ++ [(key, val)]) :: contents post) fs rc fs' := by
  obtain ⟨fs₁, hload, h₁, hM, hsb, hrep, -, hne⟩ := h.load he
  obtain ⟨rc, fs', ha, hE⟩ := h₁.append_ends he hroom hsmall
  refine ⟨rc, fs', ?_, by simpa using hE.after hM (cost_of_sb hsb 0) h.pool⟩
  rw [putWalk, if_neg hne, bind_apply, hload, Option.bind_some]
  dsimp only
  rw [(hrep.findSlot_none (key_lt hsmall)).mpr hno]
  dsimp only
  rw [if_neg (by rw [hrep.count]; omega)]
  exact ha

theorem updateFirst_pairs {l₁ l₂ : List Ent} {e : Ent} (he : Alike key e.key)
    (hno : ∀ x ∈ l₁, ¬Alike key x.key) (loc : Option UInt64) :
    pairs (l₁ ++ ⟨if val.length ≤ e.val.length then e.key else key, val, loc⟩ :: l₂) =
      PagedMap.updateFirst (fun k ↦ decide (Alike key k)) (overwrite key val)
        (pairs (l₁ ++ e :: l₂)) := by
  have hno' : ∀ x ∈ pairs l₁, decide (Alike key x.1) = false := by
    intro x hx
    obtain ⟨y, hy, rfl⟩ := List.mem_map.mp hx
    exact decide_eq_false (hno y hy)
  have he' : decide (Alike key (e.key, e.val).1) = true := decide_eq_true he
  rw [pairs_append, pairs_append, pairs_cons, pairs_cons,
    PagedMap.updateFirst_middle (m := fun k ↦ decide (Alike key k)) hno' he']
  rfl

/-- What the walk of `paged_put` does at a page; `next` is the rest of the walk. -/
def putPage (env : Env) (retry : FsM Rc) (key : Path) (val : List UInt8) (next : UInt64 → FsM Rc)
    (pg : PagedPage) (o : UInt64) : FsM Rc :=
  match findSlot pg (xxh64 key) key with
  | some i => updateSlot env pg o i key val
  | none =>
    if pg.count.toNat ≥ slotsPerPage then
      if pg.overflowNext = 0 then do
        match ← addOverflow env pg o with
        | none => pageSplitAndRetry env retry o
        | some (.error rc) => return rc
        | some (.ok off) => next off
      else next pg.overflowNext
    else appendSlot env pg o (xxh64 key) key val

/-- One page of the walk: the entry is put there, or the page is full of other keys. -/
theorem putWalk_page (he : Healthy env) (retry : FsM Rc)
    (hsmall : 8 + key.length + val.length ≤ 4096) {fs : Fs} {pre post : Chain} {o : UInt64}
    {es : List Ent} (n : ℕ) (h : Represents fs (pre ++ (o, es) :: post)) (hl : Live fs) :
    (∃ rc fs', putWalk env retry (xxh64 key) key val (n + 1) o fs = some (rc, fs') ∧
      Ends 1 (pre ++ (o, es) :: post)
        (contents pre ++ putPages key val (pairs es :: contents post)) fs rc fs') ∨
    (putPages key val (pairs es :: contents post) =
        pairs es :: putPages key val (contents post) ∧
      ∃ fs₁, Represents fs₁ (pre ++ (o, es) :: post) ∧ fs₁.sb = fs.sb ∧
        Moved (pre ++ (o, es) :: post) (pre ++ (o, es) :: post) fs fs₁ ∧
        putWalk env retry (xxh64 key) key val (n + 1) o fs =
          (if headOff post = 0 then do
            match ← addOverflow env (pageAt fs₁ o) o with
            | none => pageSplitAndRetry env retry o
            | some (.error rc) => return rc
            | some (.ok off) => putWalk env retry (xxh64 key) key val n off
          else putWalk env retry (xxh64 key) key val n (headOff post)) fs₁) := by
  have hk := key_lt hsmall
  obtain ⟨fs₁, hload, h₁, hM, hsb, hrep, hnext, hne⟩ := h.load he
  have hwalk : putWalk env retry (xxh64 key) key val (n + 1) o fs =
      putPage env retry key val (putWalk env retry (xxh64 key) key val n) (pageAt fs₁ o) o fs₁ := by
    rw [putWalk, if_neg hne, bind_apply, hload]
    rfl
  cases hf : findSlot (pageAt fs₁ o) (xxh64 key) key with
  | some i =>
    obtain ⟨l₁, e, l₂, rfl, rfl, hek, hbefore⟩ := hrep.findSlot_some hk hf
    obtain ⟨fs', k, loc, rfl, hu, hcost, hR, hM'⟩ :=
      h₁.updateSlot_apply he (hl.of_sb hsb) hek hsmall
    have hin := any_pairs.mpr ⟨e, List.mem_append_right l₁ (List.mem_cons_self (l := l₂)), hek⟩
    refine .inl ⟨.ok, fs', ?_, fun _ ↦ ⟨rfl, _, ?_, hR, hM.trans hM' h.pool⟩,
      fun _ ↦ by simpa using (cost_of_sb hsb 0).trans hcost⟩
    · rw [hwalk, putPage, hf]
      exact hu
    · rw [contents_append, contents_cons, putPages, PagedMap.putBy, if_pos hin,
        updateFirst_pairs hek hbefore]
  | none =>
    have hno := any_of_none ((hrep.findSlot_none hk).mp hf)
    by_cases hroom : es.length < slotsPerPage
    · obtain ⟨rc, fs', ha, hE⟩ := h₁.append_ends he hroom hsmall
      refine .inl ⟨rc, fs', ?_, ?_⟩
      · rw [hwalk, putPage, hf]
        dsimp only
        rw [if_neg (by rw [hrep.count]; omega)]
        exact ha
      · rw [putPages, PagedMap.putBy_room hno (by rwa [length_pairs])]
        simpa using hE.after hM (cost_of_sb hsb 0) h.pool
    · refine .inr ⟨PagedMap.putBy_full hno (by rwa [length_pairs]), fs₁, h₁, hsb,
        hM, ?_⟩
      rw [hwalk, putPage, hf]
      dsimp only
      rw [if_pos (by rw [hrep.count]; omega), hnext]

/-- The walk of `paged_put` through the part of the chain that starts at `p`. -/
theorem Represents.putWalk_apply (he : Healthy env) (retry : FsM Rc)
    (hsmall : 8 + key.length + val.length ≤ 4096) {L : Chain} (pre : Chain)
    (p : UInt64 × List Ent) (S : Chain) (hL : L = pre ++ p :: S) (n : ℕ) (hn : S.length + 1 < n)
    (fs : Fs) (h : Represents fs L) (hl : Live fs) : ∃ rc fs',
      putWalk env retry (xxh64 key) key val n p.1 fs = some (rc, fs') ∧
      Ends 2 L (contents pre ++ putPages key val (contents (p :: S))) fs rc fs' := by
  induction S generalizing pre p n fs with
  | nil =>
    obtain ⟨o, es⟩ := p
    subst hL
    obtain ⟨n, rfl⟩ : ∃ m, n = m + 2 := ⟨n - 2, by simp only [List.length_nil] at hn; omega⟩
    rcases putWalk_page he retry hsmall (n + 1) h hl with
      ⟨rc, fs', hw, hE⟩ | ⟨hput, fs₁, h₁, hsb, hM, hw⟩
    · exact ⟨rc, fs', hw, hE.mono (by decide)⟩
    · obtain ⟨fs₂, hadd, hcost, h₂, hM₂⟩ := h₁.addOverflow_apply he (hl.of_sb hsb)
      have hL₂ : pre ++ [(o, es), (nextOff fs₁.sb, [])] =
          (pre ++ [(o, es)]) ++ (nextOff fs₁.sb, []) :: [] := by simp
      rw [hL₂] at h₂ hM₂
      obtain ⟨rc, fs', hwalk, hE⟩ := putWalk_room he retry h₂ (by decide) hsmall
        (fun e he ↦ by cases he) n
      refine ⟨rc, fs', ?_, ?_⟩
      · rw [hw, headOff, if_pos rfl, bind_apply, hadd]
        exact hwalk
      · have hE' := (hE.after hM₂ hcost h₁.pool).after hM (cost_of_sb hsb 0) h.pool
        rw [contents_cons, hput]
        simpa [putPages, PagedMap.putBy] using hE'
  | cons q S ih =>
    obtain ⟨o, es⟩ := p
    obtain ⟨n, rfl⟩ : ∃ m, n = m + 1 := ⟨n - 1, by omega⟩
    rw [hL] at h
    rcases putWalk_page he retry hsmall n h hl with
      ⟨rc, fs', hw, hE⟩ | ⟨hput, fs₁, h₁, hsb, hM, hw⟩
    · exact ⟨rc, fs', hw, by rw [hL]; exact hE.mono (by decide)⟩
    · have hq : q.1 ≠ 0 := h.ne_zero (offs_subset_blocks (by simp))
      rw [← hL] at h₁
      obtain ⟨rc, fs', hwalk, hE⟩ := ih (pre ++ [(o, es)]) q (by simp [hL]) n
        (by simp only [List.length_cons] at hn; omega) fs₁ h₁ (hl.of_sb hsb)
      refine ⟨rc, fs', ?_, ?_⟩
      · rw [hw, headOff, if_neg hq]
        exact hwalk
      · rw [contents_cons, hput]
        have hE' := hE.after (by rw [← hL] at hM; exact hM) (cost_of_sb hsb 0) h.pool
        simpa using hE'

theorem Represents.ensureBucket_apply {fs : Fs} {L : Chain} (h : Represents fs L) (env : Env) :
    ensureBucket env 0 fs = some (.ok, fs) := by
  simp only [ensureBucket, bind_apply, get_apply, Option.bind_some, h.dir, List.getD_cons_zero,
    h.headOff_used, ↓reduceIte, pure_apply]

theorem Represents.exists_cons {fs : Fs} {L : Chain} (h : Represents fs L) :
    ∃ p S, L = p :: S ∧ headOff L = p.1 := by
  cases L with
  | nil => exact (h.ne rfl).elim
  | cons p S => exact ⟨p, S, rfl, rfl⟩

theorem pagedPut_pages (he : Healthy env) (hsmall : 8 + key.length + val.length ≤ 4096) {fs : Fs}
    {L : Chain} (h : Represents fs L) (hl : Live fs) : ∃ rc fs',
      pagedPut env key val fs = some (rc, fs') ∧
      Ends 2 L (putPages key val (contents L)) fs rc fs' := by
  obtain ⟨p, S, hL, hhead⟩ := h.exists_cons
  obtain ⟨m, hm⟩ : ∃ m, walkFuel = m + 1 := ⟨walkFuel - 1, by decide⟩
  have hlen := h.length_lt
  rw [hL, List.length_cons] at hlen
  have h₀ : Represents { fs with passed := val :: fs.passed } L := h.same rfl rfl rfl rfl
  obtain ⟨rc, fs', hw, hE⟩ := Represents.putWalk_apply he (pagedPutN env m key val) hsmall [] p S
    hL walkFuel hlen _ h₀ (hl.of_sb rfl)
  refine ⟨rc, fs', ?_, by rw [hL] at hE ⊢; exact hE.noted⟩
  rw [pagedPut, hm, pagedPutN, bind_apply, notePassed_apply, Option.bind_some]
  generalize { fs with passed := val :: fs.passed } = fs₀ at h₀ hw ⊢
  simp only [bind_apply, get_apply, Option.bind_some, h₀.dir]
  rw [show dirIndex (xxh64 key) 0 = 0 from rfl, h₀.ensureBucket_apply env, Option.bind_some]
  simp only [bind_apply, get_apply, Option.bind_some, h₀.dir, List.getD_cons_zero]
  rw [hhead]
  exact hw

theorem pagedPut_apply (he : Healthy env) (hsmall : 8 + key.length + val.length ≤ 4096) {fs : Fs}
    {L : Chain} (h : Represents fs L) (hl : Live fs) (hc : NoClash (ents L) key) : ∃ rc fs',
      pagedPut env key val fs = some (rc, fs') ∧
      Ends 2 L (PagedMap.put slotsPerPage key val (contents L)) fs rc fs' := by
  rw [← hc.putPages_eq]
  exact pagedPut_pages he hsmall h hl

end put

section insert

variable {env : Env} {key : Path} {val : List UInt8}

theorem insertWalk_room (he : Healthy env) {fs : Fs} {pre post : Chain} {o : UInt64}
    {es : List Ent} (h : Represents fs (pre ++ (o, es) :: post)) (hroom : es.length < slotsPerPage)
    (hsmall : 8 + key.length + val.length ≤ 4096) (n : ℕ) : ∃ rc fs',
      insertWalk env (xxh64 key) key val (n + 1) o fs = some (rc, fs') ∧
      Ends 1 (pre ++ (o, es) :: post)
        (contents pre ++ (pairs es ++ [(key, val)]) :: contents post) fs rc fs' := by
  obtain ⟨fs₁, hload, h₁, hM, hsb, hrep, -, hne⟩ := h.load he
  obtain ⟨rc, fs', ha, hE⟩ := h₁.append_ends he hroom hsmall
  refine ⟨rc, fs', ?_, by simpa using hE.after hM (cost_of_sb hsb 0) h.pool⟩
  rw [insertWalk, if_neg hne, bind_apply, hload, Option.bind_some]
  dsimp only
  rw [if_neg (by rw [hrep.count]; omega)]
  exact ha

theorem Represents.insertWalk_apply (he : Healthy env)
    (hsmall : 8 + key.length + val.length ≤ 4096) {L : Chain} (pre : Chain)
    (p : UInt64 × List Ent) (S : Chain) (hL : L = pre ++ p :: S) (n : ℕ) (hn : S.length + 1 < n)
    (fs : Fs) (h : Represents fs L) (hl : Live fs) : ∃ rc fs',
      insertWalk env (xxh64 key) key val n p.1 fs = some (rc, fs') ∧
      Ends 2 L (contents pre ++ PagedMap.insert slotsPerPage key val (contents (p :: S))) fs rc
        fs' := by
  induction S generalizing pre p n fs with
  | nil =>
    obtain ⟨o, es⟩ := p
    subst hL
    obtain ⟨n, rfl⟩ : ∃ m, n = m + 2 := ⟨n - 2, by simp only [List.length_nil] at hn; omega⟩
    by_cases hroom : es.length < slotsPerPage
    · rw [contents_cons, PagedMap.insert, if_pos (by rwa [length_pairs])]
      obtain ⟨rc, fs', hw, hE⟩ := insertWalk_room he h hroom hsmall (n + 1)
      exact ⟨rc, fs', hw, hE.mono (by decide)⟩
    · obtain ⟨fs₁, hload, h₁, hM, hsb, hrep, hnext, hne⟩ := h.load he
      obtain ⟨fs₂, hadd, hcost, h₂, hM₂⟩ := h₁.addOverflow_apply he (hl.of_sb hsb)
      have hL₂ : pre ++ [(o, es), (nextOff fs₁.sb, [])] =
          (pre ++ [(o, es)]) ++ (nextOff fs₁.sb, []) :: [] := by simp
      rw [hL₂] at h₂ hM₂
      obtain ⟨rc, fs', hwalk, hE⟩ := insertWalk_room he h₂ (by decide) hsmall n
       
      refine ⟨rc, fs', ?_, ?_⟩
      · rw [insertWalk, if_neg hne, bind_apply, hload, Option.bind_some]
        dsimp only
        rw [if_pos (by rw [hrep.count]; omega), hnext, headOff, if_pos rfl, bind_apply, hadd]
        exact hwalk
      · have hE' := (hE.after hM₂ hcost h₁.pool).after hM (cost_of_sb hsb 0) h.pool
        rw [contents_cons, PagedMap.insert, if_neg (by rwa [length_pairs])]
        simpa [PagedMap.insert] using hE'
  | cons q S ih =>
    obtain ⟨o, es⟩ := p
    obtain ⟨n, rfl⟩ : ∃ m, n = m + 1 := ⟨n - 1, by omega⟩
    by_cases hroom : es.length < slotsPerPage
    · rw [contents_cons, PagedMap.insert, if_pos (by rwa [length_pairs]), hL]
      rw [hL] at h
      obtain ⟨rc, fs', hw, hE⟩ := insertWalk_room he h hroom hsmall n
      exact ⟨rc, fs', hw, hE.mono (by decide)⟩
    · have h' := h
      rw [hL] at h'
      obtain ⟨fs₁, hload, h₁, hM, hsb, hrep, hnext, hne⟩ := h'.load he
      have hq : q.1 ≠ 0 := h'.ne_zero (offs_subset_blocks (by simp))
      rw [← hL] at h₁ hM
      obtain ⟨rc, fs', hwalk, hE⟩ := ih (pre ++ [(o, es)]) q (by simp [hL]) n
        (by simp only [List.length_cons] at hn; omega) fs₁ h₁ (hl.of_sb hsb)
      refine ⟨rc, fs', ?_, ?_⟩
      · rw [insertWalk, if_neg hne, bind_apply, hload, Option.bind_some]
        dsimp only
        rw [if_pos (by rw [hrep.count]; omega), hnext, headOff, if_neg hq]
        exact hwalk
      · rw [contents_cons, PagedMap.insert, if_neg (by rwa [length_pairs])]
        simpa using hE.after hM (cost_of_sb hsb 0) h.pool

theorem pagedInsert_apply (he : Healthy env) (hsmall : 8 + key.length + val.length ≤ 4096)
    {fs : Fs} {L : Chain} (h : Represents fs L) (hl : Live fs) : ∃ rc fs',
      pagedInsert env key val fs = some (rc, fs') ∧
      Ends 2 L (PagedMap.insert slotsPerPage key val (contents L)) fs rc fs' := by
  obtain ⟨p, S, hL, hhead⟩ := h.exists_cons
  have hlen := h.length_lt
  rw [hL, List.length_cons] at hlen
  have h₀ : Represents { fs with passed := val :: fs.passed } L := h.same rfl rfl rfl rfl
  obtain ⟨rc, fs', hw, hE⟩ := Represents.insertWalk_apply he hsmall [] p S hL walkFuel hlen _ h₀
    (hl.of_sb rfl)
  refine ⟨rc, fs', ?_, by rw [hL] at hE ⊢; exact hE.noted⟩
  rw [pagedInsert, bind_apply, notePassed_apply, Option.bind_some]
  generalize { fs with passed := val :: fs.passed } = fs₀ at h₀ hw ⊢
  simp only [bind_apply, get_apply, Option.bind_some, h₀.dir]
  rw [show dirIndex (xxh64 key) 0 = 0 from rfl, h₀.ensureBucket_apply env, Option.bind_some]
  simp only [bind_apply, get_apply, Option.bind_some, h₀.dir, List.getD_cons_zero]
  rw [hhead]
  exact hw

end insert

section delete

variable {env : Env} {key : Path}

theorem pairs_swapRemove (es : List Ent) (i : ℕ) :
    pairs (swapRemove es i) = swapRemove (pairs es) i := by
  rw [pairs, swapRemove, pairs, swapRemove, List.getLast?_map]
  cases es.getLast? with
  | none => rfl
  | some x => simp [List.map_dropLast, List.map_set]

theorem swapRemove_pairs {l₁ l₂ : List Ent} {e : Ent} (he : Alike key e.key)
    (hno : ∀ x ∈ l₁, ¬Alike key x.key) : pairs (swapRemove (l₁ ++ e :: l₂) l₁.length) =
      swapRemove (pairs (l₁ ++ e :: l₂))
        ((pairs (l₁ ++ e :: l₂)).findIdx fun x ↦ decide (Alike key x.1)) := by
  have hidx : ((pairs (l₁ ++ e :: l₂)).findIdx fun x ↦ decide (Alike key x.1)) = l₁.length := by
    rw [pairs_append, List.findIdx_append, if_neg, pairs_cons, List.findIdx_cons]
    · simp [he, length_pairs]
    · rw [List.findIdx_lt_length]
      simpa [pairs] using hno
  rw [pairs_swapRemove, hidx]

/-- What the walk of `paged_del` does at a page; `next` is the rest of the walk. -/
def delPage (env : Env) (key : Path) (next : UInt64 → FsM Rc) (pg : PagedPage) (o : UInt64) :
    FsM Rc :=
  match findSlot pg (xxh64 key) key with
  | some i => do
    pageWriteback env (removeSlot pg i) o
    return .ok
  | none => next pg.overflowNext

/-- The walk of `paged_del` through the part `S` of the chain. -/
theorem Represents.delWalk_apply (he : Healthy env) (hk : key.length < 2 ^ 32) {L : Chain}
    (pre S : Chain) (hL : L = pre ++ S) (n : ℕ) (hn : S.length < n) (fs : Fs)
    (h : Represents fs L) : ∃ fs' S',
      delWalk env (xxh64 key) key n (headOff S) fs =
        some (if ∃ e ∈ ents S, Alike key e.key then .ok else .enoent, fs') ∧
      contents S' = delPages key (contents S) ∧ Represents fs' (pre ++ S') ∧
      Moved L (pre ++ S') fs fs' ∧ fs'.sb = fs.sb := by
  induction S generalizing pre n fs with
  | nil =>
    obtain ⟨n, rfl⟩ : ∃ m, n = m + 1 := ⟨n - 1, by simp only [List.length_nil] at hn; omega⟩
    refine ⟨fs, [], ?_, rfl, by rwa [← hL], ?_, rfl⟩
    · rw [delWalk, headOff, if_pos rfl, if_neg (by simp [ents])]
      rfl
    · rw [hL]
      exact .ofQuiet (refl_of (Quiet _) fs)
  | cons p S ih =>
    obtain ⟨o, es⟩ := p
    obtain ⟨n, rfl⟩ : ∃ m, n = m + 1 := ⟨n - 1, by omega⟩
    rw [hL] at h
    obtain ⟨fs₁, hload, h₁, hM, hsb, hrep, hnext, hne⟩ := h.load he
    have hwalk : delWalk env (xxh64 key) key (n + 1) o fs =
        delPage env key (delWalk env (xxh64 key) key n) (pageAt fs₁ o) o fs₁ := by
      rw [delWalk, if_neg hne, bind_apply, hload]
      rfl
    cases hf : findSlot (pageAt fs₁ o) (xxh64 key) key with
    | some i =>
      obtain ⟨l₁, e, l₂, rfl, rfl, hek, hbefore⟩ := hrep.findSlot_some hk hf
      have hi : l₁.length < (l₁ ++ e :: l₂).length := by simp
      have hrep' := hrep.remove hi (fun _ _ _ _ ↦ rfl) le_rfl
      have hperm : (locs (swapRemove (l₁ ++ e :: l₂) l₁.length)).Perm
          (locs ((l₁ ++ e :: l₂).eraseIdx l₁.length)) := (swapRemove_perm hi).filterMap _
      have hsub : (locs ((l₁ ++ e :: l₂).eraseIdx l₁.length)).Sublist (locs (l₁ ++ e :: l₂)) :=
        (List.eraseIdx_sublist _ _).filterMap _
      obtain ⟨fs', hwb, hsb', hR, hM'⟩ := h₁.store he fs₁
        (removeSlot (pageAt fs₁ o) l₁.length) rfl rfl ⟨0, UInt64.zero_le, (taken_zero _).symm⟩ h₁.bound (fun _ _ _ ↦ rfl) le_rfl
        (by unfold removeSlot; dsimp only; split <;> rfl)
        hrep' (hperm.nodup_iff.mpr (h₁.locs_nodup.sublist hsub))
        (fun b hb ↦ .inl (hsub.subset (hperm.mem_iff.mp hb)))
      have hin := any_pairs.mpr ⟨e, List.mem_append_right l₁ (List.mem_cons_self (l := l₂)), hek⟩
      refine ⟨fs', (o, swapRemove (l₁ ++ e :: l₂) l₁.length) :: S, ?_, ?_, hR, ?_, ?_⟩
      · rw [headOff, hwalk, delPage, hf, if_pos ⟨e, by simp [ents], hek⟩]
        dsimp only
        rw [bind_apply, hwb]
        rfl
      · rw [contents_cons, contents_cons, delPages, PagedMap.delBy, if_pos hin,
          swapRemove_pairs hek hbefore]
      · rw [hL]
        exact hM.trans hM' h.pool
      · exact hsb'.trans hsb
    | none =>
      have hno := (hrep.findSlot_none hk).mp hf
      rw [← hL] at h₁ hM
      obtain ⟨fs', S', hw, hcont, hR, hM', hsb'⟩ := ih (pre ++ [(o, es)]) (by simp [hL]) n
        (by simp only [List.length_cons] at hn; omega) fs₁ h₁
      refine ⟨fs', (o, es) :: S', ?_, ?_, by simpa using hR, ?_, hsb'.trans hsb⟩
      · rw [headOff, hwalk, delPage, hf]
        dsimp only
        rw [hnext, hw]
        have hiff : (∃ e ∈ ents ((o, es) :: S), Alike key e.key) ↔
            ∃ e ∈ ents S, Alike key e.key := by
          constructor
          · rintro ⟨e, hmem, hek⟩
            rcases List.mem_append.mp (show e ∈ es ++ ents S from hmem) with hmem | hmem
            · exact (hno e hmem hek).elim
            · exact ⟨e, hmem, hek⟩
          · rintro ⟨e, hmem, hek⟩
            exact ⟨e, List.mem_append_right es hmem, hek⟩
        simp only [hiff]
      · rw [contents_cons, hcont, contents_cons, delPages, delPages, PagedMap.delBy,
          if_neg (any_of_none hno)]
      · simpa using hM.trans hM' h.pool

theorem pagedDel_pages (he : Healthy env) (hk : key.length < 2 ^ 32) {fs : Fs} {L : Chain}
    (h : Represents fs L) : ∃ fs' L',
      pagedDel env key fs = some (if ∃ e ∈ ents L, Alike key e.key then .ok else .enoent, fs') ∧
      contents L' = delPages key (contents L) ∧ Represents fs' L' ∧ Moved L L' fs fs' ∧
      fs'.sb = fs.sb := by
  obtain ⟨fs', L', hw, hcont, hR, hM, hsb⟩ := Represents.delWalk_apply he hk [] L rfl walkFuel
    h.length_lt fs h
  refine ⟨fs', L', ?_, hcont, hR, hM, hsb⟩
  have hb : hasBucket fs (dirIndex (xxh64 key) 0) = true := by
    simp [hasBucket, h.dir, dirIndex, h.headOff_used]
  simp only [pagedDel, bind_apply, get_apply, Option.bind_some, h.dir, hb, ↓reduceIte]
  exact hw

theorem pagedDel_apply (he : Healthy env) (hk : key.length < 2 ^ 32) {fs : Fs} {L : Chain}
    (h : Represents fs L) (hc : NoClash (ents L) key) : ∃ fs' L',
      pagedDel env key fs = some (if ∃ e ∈ ents L, e.key = key then .ok else .enoent, fs') ∧
      contents L' = PagedMap.del key (contents L) ∧ Represents fs' L' ∧ Moved L L' fs fs' ∧
      fs'.sb = fs.sb := by
  have hiff : (∃ e ∈ ents L, Alike key e.key) ↔ ∃ e ∈ ents L, e.key = key := by
    refine exists_congr fun e ↦ and_congr_right fun hmem ↦ ?_
    exact hc.alike_iff hmem
  rw [← hc.delPages_eq]
  simpa only [hiff] using pagedDel_pages he hk h

end delete

end Xxfs.IndexRep

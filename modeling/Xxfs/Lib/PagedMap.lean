import Mathlib.Data.List.Nodup
import Xxfs.Lib.SwapRemove

namespace Xxfs.Lib.PagedMap

open Xxfs.Lib.SwapRemove

variable {K V : Type} [DecidableEq K]

def holds (p : List (K × V)) (k : K) : Bool := p.any fun e ↦ e.1 = k

/-- The pair that a search through one page meets first. -/
def pageGet (p : List (K × V)) (k : K) : Option V := (p.find? fun e ↦ e.1 = k).map Prod.snd

/-- A map kept as a chain of pages: a search takes the first pair it meets. -/
def get : List (List (K × V)) → K → Option V
  | [], _ => none
  | p :: ps, k => (pageGet p k).or (get ps k)

def setFirst (k : K) (v : V) : List (K × V) → List (K × V)
  | [] => []
  | e :: p => if e.1 = k then (k, v) :: p else e :: setFirst k v p

/-- The pair goes to the first page that holds the key or has room for it. -/
def put (cap : ℕ) (k : K) (v : V) : List (List (K × V)) → List (List (K × V))
  | [] => [[(k, v)]]
  | p :: ps =>
    if holds p k then setFirst k v p :: ps
    else if p.length < cap then (p ++ [(k, v)]) :: ps
    else p :: put cap k v ps

/-- The pair goes to the first page with room, wherever the key may be. -/
def insert (cap : ℕ) (k : K) (v : V) : List (List (K × V)) → List (List (K × V))
  | [] => [[(k, v)]]
  | p :: ps => if p.length < cap then (p ++ [(k, v)]) :: ps else p :: insert cap k v ps

def removeFirst (k : K) (p : List (K × V)) : List (K × V) :=
  swapRemove p (p.findIdx fun e ↦ e.1 = k)

def del (k : K) : List (List (K × V)) → List (List (K × V))
  | [] => []
  | p :: ps => if holds p k then removeFirst k p :: ps else p :: del k ps

section loose

variable (m : K → Bool) (f : K × V → K × V)

/-- `f` is applied to the first pair whose key `m` accepts. -/
def updateFirst : List (K × V) → List (K × V)
  | [] => []
  | e :: p => if m e.1 then f e :: p else e :: updateFirst p

/-- A put that takes the first pair `m` accepts for its own. -/
def putBy (cap : ℕ) (e : K × V) : List (List (K × V)) → List (List (K × V))
  | [] => [[e]]
  | p :: ps =>
    if p.any fun x ↦ m x.1 then updateFirst m f p :: ps
    else if p.length < cap then (p ++ [e]) :: ps
    else p :: putBy cap e ps

def delBy : List (List (K × V)) → List (List (K × V))
  | [] => []
  | p :: ps =>
    if p.any fun x ↦ m x.1 then swapRemove p (p.findIdx fun x ↦ m x.1) :: ps else p :: delBy ps

/-- The page and the pair that a walk comes to first, if no page before it makes it stop. -/
def hit (stop : List (K × V) → Bool) : List (List (K × V)) → Option (List (K × V) × (K × V))
  | [] => none
  | p :: ps =>
    match p.find? fun x ↦ m x.1 with
    | some e => some (p, e)
    | none => if stop p then none else hit stop ps

end loose

/-- The last pair of the page is not a second one of the key. -/
def Settled (p : List (K × V)) (j : K) : Prop :=
  ∀ x, p.getLast? = some x → x.1 = j → (p.countP fun y ↦ y.1 = j) ≤ 1

def copies (ps : List (List (K × V))) (k : K) : ℕ := ps.countP fun p ↦ holds p k

def KeysNodup (p : List (K × V)) : Prop := (p.map Prod.fst).Nodup

section page

variable {p : List (K × V)} {k j : K} {v : V}

theorem holds_iff : holds p k = true ↔ k ∈ p.map Prod.fst := by
  simp [holds]

theorem holds_eq_false : holds p k = false ↔ k ∉ p.map Prod.fst := by
  rw [← holds_iff, Bool.not_eq_true]

theorem pageGet_eq_none : pageGet p k = none ↔ holds p k = false := by
  simp [pageGet, holds]

theorem pageGet_append (p q : List (K × V)) (k : K) :
    pageGet (p ++ q) k = (pageGet p k).or (pageGet q k) := by
  rw [pageGet, List.find?_append]
  cases h : p.find? fun e ↦ e.1 = k with
  | none => simp [pageGet, h]
  | some e => simp [pageGet, h]

theorem pageGet_eq_some (hp : KeysNodup p) : pageGet p k = some v ↔ (k, v) ∈ p := by
  induction p with
  | nil => simp [pageGet]
  | cons e p ih =>
    obtain ⟨hnot, hnd⟩ := List.nodup_cons.mp hp
    rw [pageGet, List.find?_cons]
    by_cases h : e.1 = k
    · simp only [h, decide_true, Option.map_some, Option.some.injEq, List.mem_cons]
      constructor
      · rintro rfl
        exact .inl (by rw [← h])
      · rintro (rfl | hmem)
        · rfl
        · exact (hnot (h ▸ List.mem_map_of_mem (f := Prod.fst) hmem)).elim
    · simp only [h, decide_false, List.mem_cons]
      refine (ih hnd).trans ⟨.inr, ?_⟩
      rintro (rfl | hmem)
      · exact (h rfl).elim
      · exact hmem

theorem keys_setFirst (k : K) (v : V) (p : List (K × V)) :
    (setFirst k v p).map Prod.fst = p.map Prod.fst := by
  induction p with
  | nil => rfl
  | cons e p ih =>
    rw [setFirst]
    split
    · rename_i h
      simp [h]
    · simp [ih]

theorem pageGet_setFirst (h : holds p k = true) :
    pageGet (setFirst k v p) j = if j = k then some v else pageGet p j := by
  induction p with
  | nil => cases h
  | cons e p ih =>
    rw [setFirst]
    by_cases he : e.1 = k
    · rw [if_pos he]
      by_cases hj : j = k
      · simp [pageGet, hj]
      · have hk : k ≠ j := fun hc ↦ hj hc.symm
        simp [pageGet, hj, he, hk]
    · rw [if_neg he]
      have hp : holds p k = true := by simpa [holds, he] using h
      have := ih hp
      simp only [pageGet, List.find?_cons] at this ⊢
      by_cases hj : e.1 = j
      · have hjk : j ≠ k := fun hc ↦ he (hj.trans hc)
        simp [hj, hjk]
      · simpa only [hj, decide_false] using this

theorem findIdx_lt (h : holds p k = true) : (p.findIdx fun e ↦ e.1 = k) < p.length := by
  rw [List.findIdx_lt_length]
  simpa [holds] using h

theorem removeFirst_perm (h : holds p k = true) :
    (removeFirst k p).Perm (p.eraseP fun e ↦ e.1 = k) := by
  refine (swapRemove_perm (findIdx_lt h)).trans ?_
  rw [List.eraseP_eq_eraseIdx, List.findIdx?_eq_some_of_exists]
  · simpa [holds] using h

theorem KeysNodup.removeFirst (hp : KeysNodup p) (h : holds p k = true) :
    KeysNodup (removeFirst k p) := by
  refine ((removeFirst_perm h).map Prod.fst).nodup_iff.mpr ?_
  exact hp.sublist (List.eraseP_sublist.map Prod.fst)

theorem KeysNodup.concat {p : List (K × V)} (hp : KeysNodup p) (hk : holds p k = false) :
    KeysNodup (p ++ [(k, v)]) := by
  rw [KeysNodup, List.map_append, List.map_singleton]
  exact List.Nodup.append hp (List.nodup_singleton k)
    (List.disjoint_singleton.mpr (holds_eq_false.mp hk))

theorem mem_eraseP (hp : KeysNodup p) {e : K × V} :
    e ∈ p.eraseP (fun e ↦ e.1 = k) ↔ e ∈ p ∧ e.1 ≠ k := by
  induction p with
  | nil => simp
  | cons x p ih =>
    obtain ⟨hnot, hnd⟩ := List.nodup_cons.mp hp
    by_cases hx : x.1 = k
    · rw [List.eraseP_cons_of_pos (by simpa using hx)]
      constructor
      · intro he
        refine ⟨List.mem_cons_of_mem _ he, fun hk ↦ hnot ?_⟩
        rw [hx, ← hk]
        exact List.mem_map_of_mem he
      · rintro ⟨he, hk⟩
        rcases List.mem_cons.mp he with rfl | he
        · exact (hk hx).elim
        · exact he
    · rw [List.eraseP_cons_of_neg (by simpa using hx), List.mem_cons, ih hnd, List.mem_cons]
      constructor
      · rintro (rfl | ⟨he, hk⟩)
        · exact ⟨.inl rfl, hx⟩
        · exact ⟨.inr he, hk⟩
      · rintro ⟨rfl | he, hk⟩
        · exact .inl rfl
        · exact .inr ⟨he, hk⟩

theorem pageGet_removeFirst (hp : KeysNodup p) (h : holds p k = true) :
    pageGet (removeFirst k p) j = if j = k then none else pageGet p j := by
  have hmem (v : V) : pageGet (removeFirst k p) j = some v ↔ (j, v) ∈ p ∧ j ≠ k := by
    rw [pageGet_eq_some (hp.removeFirst h), (removeFirst_perm h).mem_iff, mem_eraseP hp]
  refine Option.ext fun v ↦ ?_
  rw [hmem]
  by_cases hj : j = k
  · simp [hj]
  · rw [if_neg hj, pageGet_eq_some hp]
    exact and_iff_left hj

end page

section chain

variable {cap : ℕ} {k j : K} {v : V}

theorem get_put (cap : ℕ) (k : K) (v : V) (ps : List (List (K × V))) (j : K) :
    get (put cap k v ps) j = if j = k then some v else get ps j := by
  induction ps with
  | nil =>
    by_cases hj : j = k
    · simp [put, get, pageGet, hj]
    · have hk : k ≠ j := fun hc ↦ hj hc.symm
      simp [put, get, pageGet, hj, hk]
  | cons p ps ih =>
    rw [put]
    split
    · rename_i h
      rw [get, pageGet_setFirst h, get]
      split <;> simp
    · rename_i h
      have hn : pageGet p k = none := pageGet_eq_none.mpr (by simpa using h)
      split
      · rw [get, pageGet_append, get]
        by_cases hj : j = k
        · rw [hj, hn]
          simp [pageGet]
        · have hk : k ≠ j := fun hc ↦ hj hc.symm
          simp [hj, pageGet, hk]
      · rw [get, ih, get]
        by_cases hj : j = k
        · simp [hj, hn]
        · simp [hj]

theorem put_keysNodup {ps : List (List (K × V))} (h : ∀ p ∈ ps, KeysNodup p) :
    ∀ p ∈ put cap k v ps, KeysNodup p := by
  induction ps with
  | nil => simp [put, KeysNodup]
  | cons p ps ih =>
    have hp := h p List.mem_cons_self
    have hps := fun q hq ↦ h q (List.mem_cons_of_mem _ hq)
    rw [put]
    split
    · refine List.forall_mem_cons.mpr ⟨?_, hps⟩
      rw [KeysNodup, keys_setFirst]
      exact hp
    · rename_i hk
      split
      · refine List.forall_mem_cons.mpr ⟨?_, hps⟩
        exact hp.concat (by simpa using hk)
      · exact List.forall_mem_cons.mpr ⟨hp, ih hps⟩

theorem del_keysNodup {ps : List (List (K × V))} (h : ∀ p ∈ ps, KeysNodup p) :
    ∀ p ∈ del k ps, KeysNodup p := by
  induction ps with
  | nil => simp [del]
  | cons p ps ih =>
    have hp := h p List.mem_cons_self
    have hps := fun q hq ↦ h q (List.mem_cons_of_mem _ hq)
    rw [del]
    split
    · exact List.forall_mem_cons.mpr ⟨hp.removeFirst ‹_›, hps⟩
    · exact List.forall_mem_cons.mpr ⟨hp, ih hps⟩

def AllKeys (P : K → Prop) (ps : List (List (K × V))) : Prop := ∀ p ∈ ps, ∀ e ∈ p, P e.1

omit [DecidableEq K] in
theorem allKeys_cons {P : K → Prop} {p : List (K × V)} {ps : List (List (K × V))} :
    AllKeys P (p :: ps) ↔ (∀ e ∈ p, P e.1) ∧ AllKeys P ps :=
  List.forall_mem_cons

theorem allKeys_setFirst {P : K → Prop} {p : List (K × V)} (h : ∀ e ∈ p, P e.1) :
    ∀ e ∈ setFirst k v p, P e.1 := by
  intro e he
  have hk : e.1 ∈ (setFirst k v p).map Prod.fst := List.mem_map_of_mem he
  rw [keys_setFirst] at hk
  obtain ⟨x, hx, hxe⟩ := List.mem_map.mp hk
  rw [← hxe]
  exact h x hx

omit [DecidableEq K] in
theorem allKeys_append {P : K → Prop} {p : List (K × V)} (h : ∀ e ∈ p, P e.1) (hk : P k) :
    ∀ e ∈ p ++ [(k, v)], P e.1 := by
  intro e he
  rcases List.mem_append.mp he with he | he
  · exact h e he
  · obtain rfl := List.mem_singleton.mp he
    exact hk

theorem AllKeys.put {P : K → Prop} {ps : List (List (K × V))} (h : AllKeys P ps) (hk : P k) :
    AllKeys P (put cap k v ps) := by
  induction ps with
  | nil => simpa [PagedMap.put, AllKeys] using hk
  | cons p ps ih =>
    obtain ⟨hp, hps⟩ := allKeys_cons.mp h
    rw [PagedMap.put]
    split
    · exact allKeys_cons.mpr ⟨allKeys_setFirst hp, hps⟩
    · split
      · exact allKeys_cons.mpr ⟨allKeys_append hp hk, hps⟩
      · exact allKeys_cons.mpr ⟨hp, ih hps⟩

theorem AllKeys.del {P : K → Prop} {ps : List (List (K × V))} (h : AllKeys P ps) :
    AllKeys P (del k ps) := by
  induction ps with
  | nil => exact h
  | cons p ps ih =>
    obtain ⟨hp, hps⟩ := allKeys_cons.mp h
    rw [PagedMap.del]
    split
    · refine allKeys_cons.mpr ⟨fun e he ↦ hp e ?_, hps⟩
      exact List.eraseP_subset ((removeFirst_perm ‹_›).mem_iff.mp he)
    · exact allKeys_cons.mpr ⟨hp, ih hps⟩

theorem AllKeys.of_get {P : K → Prop} {ps : List (List (K × V))} (h : AllKeys P ps)
    (hg : get ps k ≠ none) : P k := by
  induction ps with
  | nil => exact (hg rfl).elim
  | cons p ps ih =>
    obtain ⟨hp, hps⟩ := allKeys_cons.mp h
    rw [PagedMap.get] at hg
    cases hf : pageGet p k with
    | none =>
      rw [hf, Option.none_or] at hg
      exact ih hps hg
    | some v =>
      obtain ⟨e, he, -⟩ := Option.map_eq_some_iff.mp hf
      have hk : e.1 = k := by simpa using List.find?_some he
      exact hk ▸ hp e (List.mem_of_find?_eq_some he)

theorem get_eq_none {ps : List (List (K × V))} : get ps k = none ↔ copies ps k = 0 := by
  induction ps with
  | nil => simp [get, copies]
  | cons p ps ih =>
    rw [get, Option.or_eq_none_iff, ih, pageGet_eq_none, copies, copies, List.countP_cons]
    cases holds p k <;> simp

theorem get_del_ne {ps : List (List (K × V))} (h : ∀ p ∈ ps, KeysNodup p) (hj : j ≠ k) :
    get (del k ps) j = get ps j := by
  induction ps with
  | nil => rfl
  | cons p ps ih =>
    rw [del]
    split
    · rw [get, pageGet_removeFirst (h p List.mem_cons_self) ‹_›, if_neg hj, get]
    · rw [get, ih fun q hq ↦ h q (List.mem_cons_of_mem _ hq), get]

theorem copies_del {ps : List (List (K × V))} (h : ∀ p ∈ ps, KeysNodup p) :
    copies (del k ps) k = copies ps k - 1 := by
  induction ps with
  | nil => rfl
  | cons p ps ih =>
    rw [del]
    split
    · rename_i hk
      have hn : holds (removeFirst k p) k = false := by
        rw [← pageGet_eq_none, pageGet_removeFirst (h p List.mem_cons_self) hk, if_pos rfl]
      simp [copies, hk, hn]
    · rename_i hk
      have := ih fun q hq ↦ h q (List.mem_cons_of_mem _ hq)
      simpa [copies, List.countP_cons, hk] using this

/-- Deleting a key takes away one copy: it is gone exactly if there was no other. -/
theorem get_del_self {ps : List (List (K × V))} (h : ∀ p ∈ ps, KeysNodup p) :
    get (del k ps) k = none ↔ copies ps k ≤ 1 := by
  rw [get_eq_none, copies_del h]
  omega

theorem get_insert_ne {ps : List (List (K × V))} (hj : j ≠ k) :
    get (insert cap k v ps) j = get ps j := by
  have hk : k ≠ j := fun hc ↦ hj hc.symm
  induction ps with
  | nil => simp [insert, get, pageGet, hk]
  | cons p ps ih =>
    rw [insert]
    split
    · rw [get, pageGet_append, get]
      simp [pageGet, hk]
    · rw [get, ih, get]

/-- A pair inserted under a new key is found, and no other search changes. -/
theorem get_insert {ps : List (List (K × V))} (h : get ps k = none) (j : K) :
    get (insert cap k v ps) j = if j = k then some v else get ps j := by
  by_cases hj : j = k
  · subst hj
    rw [if_pos rfl]
    induction ps with
    | nil => simp [insert, get, pageGet]
    | cons p ps ih =>
      rw [get, Option.or_eq_none_iff] at h
      rw [insert]
      split
      · rw [get, pageGet_append, h.1]
        simp [pageGet]
      · rw [get, ih h.2, h.1]
        rfl
  · rw [if_neg hj, get_insert_ne hj]

theorem copies_insert (cap : ℕ) (k : K) (v : V) (ps : List (List (K × V))) :
    copies (insert cap k v ps) k ≤ copies ps k + 1 := by
  induction ps with
  | nil => simp [insert, copies, holds]
  | cons p ps ih =>
    rw [insert]
    split
    · simp only [copies, List.countP_cons]
      split <;> omega
    · simp only [copies, List.countP_cons] at ih ⊢
      omega

theorem get_insertAll {es : List (K × V)} {ps : List (List (K × V))} (hd : KeysNodup es)
    (hn : ∀ e ∈ es, get ps e.1 = none) (j : K) :
    get (es.foldl (fun ps e ↦ insert cap e.1 e.2 ps) ps) j = (pageGet es j).or (get ps j) := by
  induction es generalizing ps with
  | nil => rfl
  | cons e es ih =>
    obtain ⟨hnot, hnd⟩ := List.nodup_cons.mp hd
    have hget (x : K) : get (insert cap e.1 e.2 ps) x = if x = e.1 then some e.2 else get ps x :=
      get_insert (hn e List.mem_cons_self) x
    have hn' : ∀ x ∈ es, get (insert cap e.1 e.2 ps) x.1 = none := by
      intro x hx
      have hne : x.1 ≠ e.1 := fun h ↦ hnot (h ▸ List.mem_map_of_mem hx)
      rw [hget, if_neg hne]
      exact hn x (List.mem_cons_of_mem _ hx)
    rw [List.foldl_cons, ih hnd hn', hget]
    have hcons : pageGet (e :: es) j = if j = e.1 then some e.2 else pageGet es j := by
      by_cases hj : j = e.1
      · simp [pageGet, hj]
      · have hj' : e.1 ≠ j := fun h ↦ hj h.symm
        simp [pageGet, hj, hj']
    rw [hcons]
    by_cases hj : j = e.1
    · have hnone : pageGet es j = none :=
        pageGet_eq_none.mpr (holds_eq_false.mpr (by rw [hj]; exact hnot))
      simp [hj ▸ hnone, hj]
    · simp [hj]

theorem insert_keysNodup {ps : List (List (K × V))} (h : ∀ p ∈ ps, KeysNodup p)
    (hk : get ps k = none) : ∀ p ∈ insert cap k v ps, KeysNodup p := by
  induction ps with
  | nil => simp [insert, KeysNodup]
  | cons p ps ih =>
    have hp := h p List.mem_cons_self
    have hps := fun q hq ↦ h q (List.mem_cons_of_mem _ hq)
    rw [get, Option.or_eq_none_iff] at hk
    rw [insert]
    split
    · exact List.forall_mem_cons.mpr ⟨hp.concat (pageGet_eq_none.mp hk.1), hps⟩
    · exact List.forall_mem_cons.mpr ⟨hp, ih hps hk.2⟩

omit [DecidableEq K] in
theorem AllKeys.insert {P : K → Prop} {ps : List (List (K × V))} (h : AllKeys P ps) (hk : P k) :
    AllKeys P (insert cap k v ps) := by
  induction ps with
  | nil => simpa [PagedMap.insert, AllKeys] using hk
  | cons p ps ih =>
    obtain ⟨hp, hps⟩ := allKeys_cons.mp h
    rw [PagedMap.insert]
    split
    · exact allKeys_cons.mpr ⟨allKeys_append hp hk, hps⟩
    · exact allKeys_cons.mpr ⟨hp, ih hps⟩

theorem put_room {p : List (K × V)} {ps : List (List (K × V))} (hk : holds p k = false)
    (hroom : p.length < cap) : put cap k v (p :: ps) = (p ++ [(k, v)]) :: ps := by
  rw [put, if_neg (by simp [hk]), if_pos hroom]

theorem put_full {p : List (K × V)} {ps : List (List (K × V))} (hk : holds p k = false)
    (hroom : ¬p.length < cap) : put cap k v (p :: ps) = p :: put cap k v ps := by
  rw [put, if_neg (by simp [hk]), if_neg hroom]

/-- A key put into an earlier page than the one it stands in hides the old pair; deleting it
brings the old pair back. -/
theorem get_del_put {p : List (K × V)} {ps : List (List (K × V))} (hp : KeysNodup p)
    (hk : holds p k = false) (hroom : p.length < cap) :
    get (del k (put cap k v (p :: ps))) k = get ps k := by
  have hin : holds (p ++ [(k, v)]) k = true := by simp [holds]
  rw [put_room hk hroom, del, if_pos hin, get, pageGet_removeFirst (hp.concat hk) hin, if_pos rfl,
    Option.none_or]

end chain

section loose

variable {m : K → Bool} {f : K × V → K × V} {cap : ℕ} {k j : K} {v : V}

omit [DecidableEq K] in
theorem updateFirst_middle {p q : List (K × V)} {e : K × V} (hp : ∀ x ∈ p, m x.1 = false)
    (he : m e.1 = true) : updateFirst m f (p ++ e :: q) = p ++ f e :: q := by
  induction p with
  | nil => rw [List.nil_append, updateFirst, if_pos he, List.nil_append]
  | cons x p ih =>
    have hx : ¬m x.1 = true := by simp [hp x List.mem_cons_self]
    rw [List.cons_append, updateFirst, if_neg hx, ih fun y hy ↦ hp y (List.mem_cons_of_mem _ hy),
      List.cons_append]

omit [DecidableEq K] in
theorem putBy_room {e : K × V} {p : List (K × V)} {ps : List (List (K × V))}
    (hp : ¬(p.any fun x ↦ m x.1) = true) (hroom : p.length < cap) :
    putBy m f cap e (p :: ps) = (p ++ [e]) :: ps := by
  rw [putBy, if_neg hp, if_pos hroom]

omit [DecidableEq K] in
theorem putBy_full {e : K × V} {p : List (K × V)} {ps : List (List (K × V))}
    (hp : ¬(p.any fun x ↦ m x.1) = true) (hroom : ¬p.length < cap) :
    putBy m f cap e (p :: ps) = p :: putBy m f cap e ps := by
  rw [putBy, if_neg hp, if_neg hroom]

theorem updateFirst_eq {p : List (K × V)} (hm : ∀ x ∈ p, m x.1 = true ↔ x.1 = k)
    (hf : ∀ x, x.1 = k → f x = (k, v)) : updateFirst m f p = setFirst k v p := by
  induction p with
  | nil => rfl
  | cons x p ih =>
    rw [updateFirst, setFirst, ih fun y hy ↦ hm y (List.mem_cons_of_mem _ hy)]
    by_cases hx : x.1 = k
    · rw [if_pos ((hm x List.mem_cons_self).mpr hx), if_pos hx, hf x hx]
    · rw [if_neg fun h ↦ hx ((hm x List.mem_cons_self).mp h), if_neg hx]

theorem any_eq_holds {p : List (K × V)} (hm : ∀ x ∈ p, m x.1 = true ↔ x.1 = k) :
    (p.any fun x ↦ m x.1) = holds p k := by
  rw [Bool.eq_iff_iff, holds, List.any_eq_true, List.any_eq_true]
  constructor
  · rintro ⟨x, hx, h⟩
    exact ⟨x, hx, by simpa using (hm x hx).mp h⟩
  · rintro ⟨x, hx, h⟩
    exact ⟨x, hx, (hm x hx).mpr (by simpa using h)⟩

theorem findIdx_eq {p : List (K × V)} (hm : ∀ x ∈ p, m x.1 = true ↔ x.1 = k) :
    (p.findIdx fun x ↦ m x.1) = p.findIdx fun x ↦ x.1 = k := by
  induction p with
  | nil => rfl
  | cons x p ih =>
    have hx : m x.1 = decide (x.1 = k) := by
      rw [Bool.eq_iff_iff, hm x List.mem_cons_self, decide_eq_true_iff]
    rw [List.findIdx_cons, List.findIdx_cons, hx, ih fun y hy ↦ hm y (List.mem_cons_of_mem _ hy)]

/-- Where only the key itself is accepted, the loose put is the strict one. -/
theorem putBy_eq_put {ps : List (List (K × V))} (hm : ∀ p ∈ ps, ∀ x ∈ p, m x.1 = true ↔ x.1 = k)
    (hf : ∀ x, x.1 = k → f x = (k, v)) : putBy m f cap (k, v) ps = put cap k v ps := by
  induction ps with
  | nil => rfl
  | cons p ps ih =>
    have hp := hm p List.mem_cons_self
    rw [putBy, put, any_eq_holds hp, updateFirst_eq hp hf,
      ih fun q hq ↦ hm q (List.mem_cons_of_mem _ hq)]

theorem delBy_eq_del {ps : List (List (K × V))}
    (hm : ∀ p ∈ ps, ∀ x ∈ p, m x.1 = true ↔ x.1 = k) : delBy m ps = del k ps := by
  induction ps with
  | nil => rfl
  | cons p ps ih =>
    have hp := hm p List.mem_cons_self
    rw [delBy, del, any_eq_holds hp, findIdx_eq hp, ih fun q hq ↦ hm q (List.mem_cons_of_mem _ hq)]
    rfl

omit [DecidableEq K] in
theorem exists_split {p : List (K × V)} (h : (p.any fun x ↦ m x.1) = true) : ∃ l₁ e l₂,
    p = l₁ ++ e :: l₂ ∧ m e.1 = true ∧ (∀ x ∈ l₁, m x.1 = false) ∧
      p.find? (fun x ↦ m x.1) = some e ∧ (p.findIdx fun x ↦ m x.1) = l₁.length := by
  obtain ⟨e, he⟩ := Option.isSome_iff_exists.mp (show (p.find? fun x ↦ m x.1).isSome by
    rw [List.find?_isSome]
    simpa using h)
  obtain ⟨hme, l₁, l₂, rfl, hno⟩ := List.find?_eq_some_iff_append.mp he
  have hno' : ∀ x ∈ l₁, m x.1 = false := fun x hx ↦ by simpa using hno x hx
  refine ⟨l₁, e, l₂, rfl, hme, hno', he, ?_⟩
  have hlt : ¬(l₁.findIdx fun x ↦ m x.1) < l₁.length := by
    rw [List.findIdx_lt_length]
    rintro ⟨x, hx, h⟩
    rw [hno' x hx] at h
    cases h
  rw [List.findIdx_append, if_neg hlt, List.findIdx_cons, hme, cond_true, Nat.zero_add]

omit [DecidableEq K] in
theorem hit_here {p : List (K × V)} {ps : List (List (K × V))} {stop : List (K × V) → Bool}
    {e : K × V} (h : p.find? (fun x ↦ m x.1) = some e) : hit m stop (p :: ps) = some (p, e) := by
  rw [hit, h]

omit [DecidableEq K] in
theorem hit_later {p : List (K × V)} {ps : List (List (K × V))} {stop : List (K × V) → Bool}
    (h : ¬(p.any fun x ↦ m x.1) = true) (hs : stop p = false) :
    hit m stop (p :: ps) = hit m stop ps := by
  have hnone : p.find? (fun x ↦ m x.1) = none := by simpa using h
  rw [hit, hnone, hs]
  rfl

/-- A loose put changes no other search, unless the pair it takes is the one searched for. -/
theorem get_putBy_ne {e : K × V} {ps : List (List (K × V))} (hj : j ≠ e.1)
    (hf : ∀ x, (f x).1 = x.1 ∨ (f x).1 = e.1)
    (hit : ∀ p x, hit m (fun p ↦ decide (p.length < cap)) ps = some (p, x) → x.1 ≠ j) :
    get (putBy m f cap e ps) j = get ps j := by
  induction ps with
  | nil =>
    have hj' : e.1 ≠ j := hj.symm
    simp [putBy, get, pageGet, hj']
  | cons p ps ih =>
    rw [putBy]
    split
    · rename_i hany
      obtain ⟨l₁, x, l₂, rfl, hmx, hno, hfind, -⟩ := exists_split hany
      have hx : x.1 ≠ j := hit _ x (hit_here hfind)
      have hfx : (f x).1 ≠ j := by
        rcases hf x with h | h
        · rwa [h]
        · rw [h]; exact hj.symm
      rw [updateFirst_middle hno hmx, get, get, pageGet_append, pageGet_append]
      congr 2
      simp [pageGet, hx, hfx]
    · rename_i hany
      split
      · have hj' : e.1 ≠ j := hj.symm
        rw [get, pageGet_append, get]
        simp [pageGet, hj']
      · rename_i hfull
        rw [get, get, ih fun q x hq ↦ hit q x ?_]
        rw [hit_later hany (by simpa using hfull)]
        exact hq

theorem pageGet_cons_ne {p : List (K × V)} {e : K × V} (h : e.1 ≠ j) :
    pageGet (e :: p) j = pageGet p j := by
  simp [pageGet, h]

/-- Taking another pair out of the page changes no search for `j`, unless a second pair of `j`
moves into the hole. -/
theorem pageGet_swapRemove_ne {l₁ l₂ : List (K × V)} {e : K × V} (he : e.1 ≠ j)
    (hs : Settled (l₁ ++ e :: l₂) j) :
    pageGet (swapRemove (l₁ ++ e :: l₂) l₁.length) j = pageGet (l₁ ++ e :: l₂) j := by
  rcases List.eq_nil_or_concat l₂ with rfl | ⟨l, x, rfl⟩
  · rw [swapRemove_last, pageGet_append, pageGet_cons_ne he]
    simp [pageGet]
  · rw [List.concat_eq_append] at hs ⊢
    rw [swapRemove_middle, pageGet_append, pageGet_append, pageGet_cons_ne he, pageGet_append]
    by_cases hx : x.1 = j
    · have hassoc : l₁ ++ e :: (l ++ [x]) = (l₁ ++ e :: l) ++ [x] := by simp
      have hone := hs x (by rw [hassoc, List.getLast?_concat]) hx
      have hzero : (l₁.countP fun y ↦ y.1 = j) = 0 ∧ (l.countP fun y ↦ y.1 = j) = 0 := by
        simp only [List.countP_append, List.countP_cons, List.countP_nil, hx, decide_true,
          ↓reduceIte] at hone
        omega
      have hnone {p : List (K × V)} (h : (p.countP fun y ↦ y.1 = j) = 0) : pageGet p j = none := by
        rw [pageGet_eq_none, ← Bool.not_eq_true, holds, List.any_eq_true]
        rintro ⟨y, hy, hyj⟩
        exact List.countP_eq_zero.mp h y hy hyj
      rw [hnone hzero.1, hnone hzero.2]
      simp [pageGet, hx]
    · rw [pageGet_cons_ne hx, pageGet_cons_ne hx]
      simp [pageGet]

theorem get_delBy_ne {ps : List (List (K × V))}
    (hit : ∀ p x, hit m (fun _ ↦ false) ps = some (p, x) → x.1 ≠ j ∧ Settled p j) :
    get (delBy m ps) j = get ps j := by
  induction ps with
  | nil => rfl
  | cons p ps ih =>
    rw [delBy]
    split
    · rename_i hany
      obtain ⟨l₁, x, l₂, rfl, hmx, hno, hfind, hidx⟩ := exists_split hany
      obtain ⟨hx, hs⟩ := hit _ x (hit_here hfind)
      rw [hidx, get, get, pageGet_swapRemove_ne hx hs]
    · rename_i hany
      rw [get, get, ih fun q x hq ↦ hit q x ?_]
      rw [hit_later hany rfl]
      exact hq

end loose

end Xxfs.Lib.PagedMap

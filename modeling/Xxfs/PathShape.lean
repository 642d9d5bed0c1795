import Xxfs.PathName

namespace Xxfs.PathName

open Xxfs.DiskFormat

/-- A component of a path. -/
structure Plain (c : Path) : Prop where
  ne : c ≠ []
  noSlash : slash ∉ c
  noDot : c ≠ [dot]

def absPath (cs : List Path) : Path := cs.flatMap fun c ↦ slash :: c

def joinPath (cs : List Path) : Path := if cs = [] then [slash] else absPath cs

/-- A path of components: what `path_normalize` makes of a path that is not too long. -/
def Clean (p : Path) : Prop := ∃ cs, (∀ c ∈ cs, Plain c) ∧ p = joinPath cs

/-- The bytes of an output of the loop, last component first. -/
def revPath : List Path → Path
  | [] => []
  | c :: cs => c.reverse ++ slash :: revPath cs

section length

theorem normLoop_length {path out : Path} (h : out.length < maxPath - 1) :
    (normLoop path out).length ≤ maxPath - 1 := by
  induction path generalizing out with
  | nil => exact h.le
  | cons c rest ih =>
    rw [normLoop]
    split
    · exact ih h
    · split
      · exact ih h
      · split
        · rw [List.length_cons]
          omega
        · rename_i hlen
          exact ih (Nat.not_le.mp hlen)

theorem stripSlashes_length (p : Path) : (stripSlashes p).length ≤ p.length := by
  induction p with
  | nil => exact le_rfl
  | cons c p ih =>
    cases p with
    | nil => exact le_rfl
    | cons d rest =>
      rw [stripSlashes]
      split
      · exact ih.trans (Nat.le_succ _)
      · exact le_rfl

theorem pathNormalize_length (path : Path) : (pathNormalize path).length < maxPath := by
  have hstart : (if path.head? = some slash then ([] : Path) else [slash]).length < maxPath - 1 := by
    split
    · decide
    · decide
  have hloop := @normLoop_length path _ hstart
  have hmax : maxPath = 4096 := rfl
  rw [pathNormalize, List.length_reverse]
  have := stripSlashes_length
    (normLoop path (if path.head? = some slash then [] else [slash]))
  omega

end length

section shapes

variable {cs : List Path} {c : Path}

theorem absPath_append (cs ds : List Path) : absPath (cs ++ ds) = absPath cs ++ absPath ds :=
  List.flatMap_append

theorem absPath_singleton (c : Path) : absPath [c] = slash :: c := by simp [absPath]

theorem revPath_reverse (cs : List Path) : (revPath cs).reverse = absPath cs.reverse := by
  induction cs with
  | nil => rfl
  | cons c cs ih =>
    rw [revPath, List.reverse_append, List.reverse_cons, ih, List.reverse_reverse, List.reverse_cons,
      absPath_append, absPath_singleton, List.append_assoc]
    rfl

theorem head_component (hne : c ≠ []) (hs : slash ∉ c) (r : Path) :
    (c.reverse ++ r).head? ≠ some slash := by
  obtain ⟨d, x, rfl⟩ := (List.eq_nil_or_concat c).resolve_left hne
  rw [List.concat_eq_append, List.reverse_append]
  simp only [List.reverse_cons, List.reverse_nil, List.nil_append, List.cons_append,
    List.head?_cons, ne_eq, Option.some.injEq]
  rintro rfl
  exact hs (by simp)

theorem revPath_head (hcs : ∀ c ∈ cs, Plain c) : (revPath cs).head? ≠ some slash := by
  cases cs with
  | nil => exact fun h ↦ by cases h
  | cons c cs =>
    have hc := hcs c List.mem_cons_self
    exact head_component hc.ne hc.noSlash _

end shapes

/-- What the loop has when it ends: components, perhaps with a slash behind them, or as many bytes
as it may have. -/
def Ended (out : Path) : Prop :=
  (∃ cs, (∀ c ∈ cs, Plain c) ∧ (cs ≠ [] ∧ out = revPath cs ∨ out = slash :: revPath cs)) ∨
    maxPath - 2 ≤ (stripSlashes out).length

theorem ended_full {b : UInt8} {out : Path} (hb : ¬(b = slash ∧ out.head? = some slash))
    (hlen : (b :: out).length ≥ maxPath - 1) : Ended (b :: out) := by
  refine .inr ?_
  rw [List.length_cons] at hlen
  cases out with
  | nil => exact absurd hlen (by decide)
  | cons d r =>
    rw [stripSlashes]
    split
    · rename_i hbs
      have hd : ¬d = slash := fun h ↦ hb ⟨hbs, by rw [h]; rfl⟩
      cases r with
      | nil => exact absurd (show 2 ≥ maxPath - 1 from hlen) (by decide)
      | cons e r =>
        rw [stripSlashes, if_neg hd]
        omega
    · rw [List.length_cons]
      omega

section loop

variable {cs : List Path} (hcs : ∀ c ∈ cs, Plain c)
include hcs

theorem normLoop_ended (rest : Path) :
    Ended (normLoop rest (slash :: revPath cs)) ∧
      ∀ c, c ≠ [] → slash ∉ c → (c = [dot] → rest ≠ [] ∧ rest.head? ≠ some slash) →
        Ended (normLoop rest (c.reverse ++ slash :: revPath cs)) := by
  induction rest generalizing cs with
  | nil =>
    refine ⟨.inl ⟨cs, hcs, .inr rfl⟩, fun c hne hs hd ↦
      .inl ⟨c :: cs, fun x hx ↦ ?_, .inl ⟨List.cons_ne_nil c cs, rfl⟩⟩⟩
    rcases List.mem_cons.mp hx with rfl | hx
    · exact ⟨hne, hs, fun h ↦ ((hd h).1 rfl).elim⟩
    · exact hcs x hx
  | cons b rest ih =>
    constructor
    · rw [normLoop]
      split
      · exact (ih hcs).1
      · split
        · exact (ih hcs).1
        · split
          · exact ended_full ‹_› ‹_›
          · rename_i hb hdot _
            have hb' : b ≠ slash := fun h ↦ hb ⟨h, rfl⟩
            refine (ih hcs).2 [b] (by simp) (by simpa using hb'.symm) fun hd ↦ ?_
            obtain rfl : b = dot := by simpa using hd
            rw [← not_or]
            exact fun h ↦ hdot ⟨rfl, h.symm, .inr rfl⟩
    · intro c hne hs hd
      have hhead := head_component hne hs (slash :: revPath cs)
      rw [normLoop, if_neg (fun h ↦ hhead h.2), if_neg (fun h ↦ h.2.2.elim (by simp) hhead)]
      split
      · exact ended_full (fun h ↦ hhead h.2) ‹_›
      · by_cases hb : b = slash
        · subst hb
          have hc : Plain c := ⟨hne, hs, fun h ↦ (hd h).2 rfl⟩
          exact (ih (List.forall_mem_cons.mpr ⟨hc, hcs⟩)).1
        · have hlong := (ih hcs).2 (c ++ [b]) (by simp) (by simpa [hs] using Ne.symm hb) fun h ↦ ?_
          · rwa [List.reverse_append] at hlong
          · rcases List.append_eq_singleton_iff.mp h with ⟨hnil, -⟩ | ⟨-, hnil⟩
            · exact (hne hnil).elim
            · cases hnil

end loop

section strip

variable {cs : List Path} (hcs : ∀ c ∈ cs, Plain c)
include hcs

theorem stripSlashes_revPath : stripSlashes (revPath cs) = revPath cs := by
  have hhead := revPath_head hcs
  generalize revPath cs = r at hhead ⊢
  cases r with
  | nil => rfl
  | cons b r =>
    cases r with
    | nil => rfl
    | cons d r =>
      rw [stripSlashes, if_neg]
      exact fun h ↦ hhead (by rw [h]; rfl)

theorem stripSlashes_slash (hne : cs ≠ []) : stripSlashes (slash :: revPath cs) = revPath cs := by
  have hstrip := stripSlashes_revPath hcs
  have hlen : revPath cs ≠ [] := by
    cases cs with
    | nil => exact (hne rfl).elim
    | cons c cs => simp [revPath]
  generalize revPath cs = r at hstrip hlen ⊢
  cases r with
  | nil => exact (hlen rfl).elim
  | cons b r => rw [stripSlashes, if_pos rfl, hstrip]

theorem joinPath_reverse : (stripSlashes (slash :: revPath cs)).reverse = joinPath cs.reverse := by
  by_cases hne : cs = []
  · subst hne
    rfl
  · rw [stripSlashes_slash hcs hne, revPath_reverse, joinPath, if_neg (by simpa using hne)]

end strip

theorem pathNormalize_clean {path : Path} (h : (pathNormalize path).length + 2 < maxPath) :
    Clean (pathNormalize path) := by
  have hstart : ∃ rest, normLoop path (if path.head? = some slash then [] else [slash]) =
      normLoop rest (slash :: revPath []) := by
    split
    · rename_i hs
      obtain ⟨rest, rfl⟩ := List.head?_eq_some_iff.mp hs
      refine ⟨rest, ?_⟩
      rw [normLoop, if_neg (by simp), if_neg (fun hd ↦ absurd hd.1 (by decide)), if_neg]
      · rfl
      · decide
    · exact ⟨path, rfl⟩
  obtain ⟨rest, hrest⟩ := hstart
  rw [pathNormalize, hrest] at h ⊢
  have hmax : maxPath = 4096 := rfl
  have hnil : ∀ c ∈ ([] : List Path), Plain c := fun c hc ↦ absurd hc List.not_mem_nil
  rcases (normLoop_ended hnil rest).1 with ⟨cs, hcs, ⟨hne, hout⟩ | hout⟩ | hlong
  · rw [hout, stripSlashes_revPath hcs, ← stripSlashes_slash hcs hne, joinPath_reverse hcs]
    exact ⟨cs.reverse, fun c hc ↦ hcs c (List.mem_reverse.mp hc), rfl⟩
  · rw [hout, joinPath_reverse hcs]
    exact ⟨cs.reverse, fun c hc ↦ hcs c (List.mem_reverse.mp hc), rfl⟩
  · rw [List.length_reverse] at h
    omega

section fixed

theorem normLoop_component {c rest out : Path} (hs : slash ∉ c) (hne : out ≠ [])
    (hd : out.head? = some slash → c ≠ [dot])
    (hlen : c.length + out.length < maxPath - 1) :
    normLoop (c ++ rest) out = normLoop rest (c.reverse ++ out) := by
  induction c generalizing out with
  | nil => rfl
  | cons b c ih =>
    rw [List.mem_cons, not_or] at hs
    rw [List.length_cons] at hlen
    have hdot : ¬(b = dot ∧ ((c ++ rest).head? = some slash ∨ c ++ rest = []) ∧
        (out = [] ∨ out.head? = some slash)) := by
      rintro ⟨rfl, hnext, hout⟩
      have hnil : c = [] := by
        cases c with
        | nil => rfl
        | cons e c =>
          have he : e = slash := by simpa using hnext
          exact (hs.2 (by rw [he]; exact List.mem_cons_self)).elim
      exact hd (hout.resolve_left hne) (by rw [hnil])
    rw [List.cons_append, normLoop, if_neg (fun h ↦ hs.1 h.1.symm), if_neg hdot, if_neg]
    · rw [ih hs.2 (List.cons_ne_nil b out) (fun h ↦ ?_) (by rw [List.length_cons]; omega)]
      · rw [List.reverse_cons, List.append_assoc]
        rfl
      · have hb : b = slash := by simpa using h
        exact (hs.1 hb.symm).elim
    · rw [List.length_cons]
      omega

theorem normLoop_absPath {ds cs : List Path} (hds : ∀ c ∈ ds, Plain c) (hcs : ∀ c ∈ cs, Plain c)
    (hlen : (absPath ds).length + (revPath cs).length < maxPath - 1) :
    normLoop (absPath ds) (revPath cs) = revPath (ds.reverse ++ cs) := by
  induction ds generalizing cs with
  | nil => rfl
  | cons c ds ih =>
    have hc := hds c List.mem_cons_self
    have hds' : ∀ c ∈ ds, Plain c := fun x hx ↦ hds x (List.mem_cons_of_mem _ hx)
    have habs : absPath (c :: ds) = slash :: (c ++ absPath ds) := rfl
    have hhead := revPath_head hcs
    rw [habs, List.length_cons, List.length_append] at hlen
    rw [habs, normLoop, if_neg (fun h ↦ hhead h.2), if_neg (fun h ↦ absurd h.1 (by decide)),
      if_neg (by rw [List.length_cons]; omega),
      normLoop_component hc.noSlash (List.cons_ne_nil _ _) (fun _ ↦ hc.noDot)
        (by rw [List.length_cons]; omega)]
    have hrev : c.reverse ++ slash :: revPath cs = revPath (c :: cs) := rfl
    rw [hrev, ih hds' (List.forall_mem_cons.mpr ⟨hc, hcs⟩), List.reverse_cons, List.append_assoc]
    · rfl
    · rw [revPath, List.length_append, List.length_cons, List.length_reverse]
      omega

theorem Clean.normalize {p : Path} (h : Clean p) (hlen : p.length < maxPath - 1) :
    pathNormalize p = p := by
  obtain ⟨cs, hcs, rfl⟩ := h
  by_cases hne : cs = []
  · subst hne
    decide
  · have habs : joinPath cs = absPath cs := if_neg hne
    have hhead : (absPath cs).head? = some slash := by
      cases cs with
      | nil => exact (hne rfl).elim
      | cons c cs => rfl
    have hloop : normLoop (absPath cs) [] = revPath cs.reverse := by
      have := @normLoop_absPath cs [] hcs (fun c hc ↦ absurd hc List.not_mem_nil)
        (by rw [← habs]; exact hlen)
      rwa [List.append_nil] at this
    have hrev : ∀ c ∈ cs.reverse, Plain c := fun c hc ↦ hcs c (List.mem_reverse.mp hc)
    rw [habs, pathNormalize, if_pos hhead, hloop, stripSlashes_revPath hrev, revPath_reverse,
      List.reverse_reverse]

end fixed

section parts

theorem scanBack_append (l : Path) {c : Path} (hs : slash ∉ c) :
    scanBack (l ++ slash :: c) (l ++ slash :: c).length = l.length + 1 := by
  have hscan (k : ℕ) (hk : k ≤ c.length) :
      scanBack (l ++ slash :: c) (l.length + 1 + k) = l.length + 1 := by
    induction k with
    | zero =>
      rw [Nat.add_zero, scanBack, if_neg]
      simp
    | succ k ih =>
      have hget : (l ++ slash :: c).getD (l.length + 1 + k) 0 ≠ slash := by
        have hk' : k < c.length := hk
        rw [List.getD_eq_getElem?_getD, List.getElem?_append_right (by omega),
          show l.length + 1 + k - l.length = k + 1 by omega, List.getElem?_cons_succ,
          List.getElem?_eq_getElem hk', Option.getD_some]
        exact fun h ↦ hs (h ▸ List.getElem_mem hk')
      rw [show l.length + 1 + (k + 1) = (l.length + 1 + k) + 1 by omega, scanBack, if_pos hget]
      exact ih (Nat.le_of_succ_le hk)
  have hlen : (l ++ slash :: c).length = l.length + 1 + c.length := by
    rw [List.length_append, List.length_cons]
    omega
  rw [hlen]
  exact hscan c.length le_rfl

theorem getBasename_append (l : Path) {c : Path} (hs : slash ∉ c) :
    getBasename (l ++ slash :: c) = c := by
  rw [getBasename, scanBack_append l hs]
  simp

theorem getParentPath_append {l c : Path} (hl : l ≠ []) (hs : slash ∉ c) :
    getParentPath (l ++ slash :: c) = l := by
  have hpos := List.length_pos_iff.mpr hl
  rw [getParentPath, if_neg (by rw [List.length_append, List.length_cons]; omega),
    scanBack_append l hs, if_neg (by omega), Nat.add_sub_cancel, List.take_left]

theorem getParentPath_top {c : Path} (hs : slash ∉ c) : getParentPath (slash :: c) = [slash] := by
  have hscan := scanBack_append [] hs
  rw [List.nil_append] at hscan
  rw [getParentPath, hscan]
  split
  · rfl
  · exact if_pos le_rfl

variable {cs : List Path} {c : Path}

theorem joinPath_snoc (cs : List Path) (c : Path) : joinPath (cs ++ [c]) = absPath cs ++ slash :: c := by
  rw [joinPath, if_neg (by simp), absPath_append, absPath_singleton]

theorem getParentPath_joinPath (hc : Plain c) : getParentPath (joinPath (cs ++ [c])) = joinPath cs := by
  rw [joinPath_snoc]
  by_cases hne : cs = []
  · subst hne
    exact getParentPath_top hc.noSlash
  · rw [joinPath, if_neg hne, getParentPath_append _ hc.noSlash]
    cases cs with
    | nil => exact (hne rfl).elim
    | cons d cs => exact List.cons_ne_nil _ _

theorem getBasename_joinPath (hc : Plain c) : getBasename (joinPath (cs ++ [c])) = c := by
  rw [joinPath_snoc, getBasename_append _ hc.noSlash]

theorem joinPath_ne_root (hc : Plain c) : joinPath (cs ++ [c]) ≠ [slash] := by
  intro h
  have hbase : getBasename (joinPath (cs ++ [c])) = c := getBasename_joinPath hc
  rw [h] at hbase
  exact hc.ne (hbase.symm.trans (by decide))

theorem Clean.cases {p : Path} (h : Clean p) (hroot : p ≠ [slash]) :
    ∃ cs c, (∀ x ∈ cs, Plain x) ∧ Plain c ∧ p = joinPath (cs ++ [c]) := by
  obtain ⟨cs, hcs, rfl⟩ := h
  rcases List.eq_nil_or_concat cs with rfl | ⟨ds, c, rfl⟩
  · exact (hroot rfl).elim
  · rw [List.concat_eq_append] at hcs ⊢
    exact ⟨ds, c, fun x hx ↦ hcs x (List.mem_append_left _ hx), hcs c (by simp), rfl⟩

theorem Clean.parent {p : Path} (h : Clean p) : Clean (getParentPath p) := by
  by_cases hroot : p = [slash]
  · subst hroot
    exact ⟨[], fun _ hc ↦ absurd hc List.not_mem_nil, by decide⟩
  · obtain ⟨cs, c, hcs, hc, rfl⟩ := h.cases hroot
    rw [getParentPath_joinPath hc]
    exact ⟨cs, hcs, rfl⟩

theorem Clean.eq_of_parts {p q : Path} (hp : Clean p) (hq : Clean q) (hp0 : p ≠ [slash])
    (hq0 : q ≠ [slash]) (hpar : getParentPath p = getParentPath q)
    (hname : getBasename p = getBasename q) : p = q := by
  obtain ⟨cs, c, hcs, hc, rfl⟩ := hp.cases hp0
  obtain ⟨ds, d, hds, hd, rfl⟩ := hq.cases hq0
  rw [getParentPath_joinPath hc, getParentPath_joinPath hd] at hpar
  rw [getBasename_joinPath hc, getBasename_joinPath hd] at hname
  subst hname
  rw [joinPath_snoc, joinPath_snoc]
  suffices absPath cs = absPath ds by rw [this]
  rw [joinPath, joinPath] at hpar
  have hlen {es : List Path} (hes : ∀ x ∈ es, Plain x) (hne : es ≠ []) : absPath es ≠ [slash] := by
    obtain ⟨fs, e, rfl⟩ := (List.eq_nil_or_concat es).resolve_left hne
    rw [List.concat_eq_append] at hes ⊢
    have hjoin : joinPath (fs ++ [e]) ≠ [slash] := joinPath_ne_root (hes e (by simp))
    rwa [joinPath, if_neg (by simp)] at hjoin
  split at hpar
  · rename_i hcn
    split at hpar
    · rename_i hdn
      rw [hcn, hdn]
    · exact (hlen hds ‹_› hpar.symm).elim
  · split at hpar
    · exact (hlen hcs ‹_› hpar).elim
    · exact hpar

end parts

end Xxfs.PathName

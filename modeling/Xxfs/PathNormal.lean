import Mathlib.Data.List.Flatten
import Xxfs.Lib.Segments
import Xxfs.PathShape

namespace Xxfs.PathName

open Xxfs.DiskFormat Xxfs.Lib.Segments

def Blank (c : Path) : Prop := c = [] ∨ c = [dot]

instance (c : Path) : Decidable (Blank c) := inferInstanceAs (Decidable (_ ∨ _))

/-- The components of a path, the empty ones and those equal to "." left out. -/
def components (p : Path) : List Path := (p.splitOn slash).filter fun c ↦ ¬Blank c

/-- The loop of `path_normalize` in a buffer without end. -/
def normRaw : Path → Path → Path
  | [], out => out
  | c :: rest, out =>
    if c = slash ∧ out.head? = some slash then normRaw rest out
    else if c = dot ∧ (rest.head? = some slash ∨ rest = []) ∧
        (out = [] ∨ out.head? = some slash) then normRaw rest out
    else normRaw rest (c :: out)

section cut

theorem normRaw_suffix (path out : Path) : ∃ x, normRaw path out = x ++ out := by
  induction path generalizing out with
  | nil => exact ⟨[], rfl⟩
  | cons c rest ih =>
    rw [normRaw]
    split
    · exact ih out
    · split
      · exact ih out
      · obtain ⟨x, hx⟩ := ih (c :: out)
        exact ⟨x ++ [c], by rw [hx, List.append_assoc]; rfl⟩

theorem normLoop_eq {path out : Path} (h : out.length < maxPath - 1) :
    (normLoop path out).reverse = (normRaw path out).reverse.take (maxPath - 1) := by
  induction path generalizing out with
  | nil =>
    rw [normLoop, normRaw, List.take_of_length_le]
    rw [List.length_reverse]
    exact h.le
  | cons c rest ih =>
    rw [normLoop, normRaw]
    split
    · exact ih h
    · split
      · exact ih h
      · split
        · rename_i hlen
          obtain ⟨x, hx⟩ := normRaw_suffix rest (c :: out)
          have hfull : (c :: out).reverse.length = maxPath - 1 := by
            rw [List.length_reverse]
            rw [List.length_cons] at hlen ⊢
            omega
          rw [hx, List.reverse_append, List.take_left' hfull]
        · rename_i hlen
          exact ih (Nat.not_le.mp hlen)

end cut

section components

variable {c rest : Path} {cs : List Path}

theorem components_of_not_mem (hs : slash ∉ c) :
    components c = if Blank c then [] else [c] := by
  rw [components, List.splitOn_eq_singleton hs, List.filter_singleton]
  by_cases hb : Blank c <;> simp [hb]

theorem components_append (hs : slash ∉ c) :
    components (c ++ slash :: rest) = (if Blank c then [] else [c]) ++ components rest := by
  rw [components, List.splitOn_append_cons_self_of_not_mem hs, List.filter_cons]
  by_cases hb : Blank c <;> simp [hb, components]

theorem components_slash (rest : Path) : components (slash :: rest) = components rest :=
  components_append List.not_mem_nil

theorem components_plain {p : Path} (hc : c ∈ components p) : Plain c := by
  obtain ⟨hmem, hb⟩ := List.mem_filter.mp hc
  have hb' : ¬Blank c := of_decide_eq_true hb
  exact ⟨fun h ↦ hb' (.inl h), not_mem_of_mem_splitOn hmem, fun h ↦ hb' (.inr h)⟩

theorem Plain.not_blank (hc : Plain c) : ¬Blank c := fun h ↦ h.elim hc.ne hc.noDot

theorem components_absPath (hcs : ∀ c ∈ cs, Plain c) : components (absPath cs) = cs := by
  induction cs with
  | nil => decide
  | cons c cs ih =>
    have hc := hcs c List.mem_cons_self
    have ih := ih fun x hx ↦ hcs x (List.mem_cons_of_mem _ hx)
    have habs : absPath (c :: cs) = slash :: (c ++ absPath cs) := rfl
    rw [habs, components_slash]
    cases cs with
    | nil =>
      have hnil : absPath ([] : List Path) = [] := rfl
      rw [hnil, List.append_nil, components_of_not_mem hc.noSlash, if_neg hc.not_blank]
    | cons d ds =>
      have hds : absPath (d :: ds) = slash :: (d ++ absPath ds) := rfl
      rw [hds, components_slash] at ih
      rw [hds, components_append hc.noSlash, if_neg hc.not_blank, ih]
      rfl

theorem components_joinPath (hcs : ∀ c ∈ cs, Plain c) : components (joinPath cs) = cs := by
  rw [joinPath]
  split
  · rename_i h
    rw [h]
    decide
  · exact components_absPath hcs

theorem absPath_eq_intercalate (hne : cs ≠ []) :
    absPath cs = slash :: [slash].intercalate cs := by
  induction cs with
  | nil => exact (hne rfl).elim
  | cons d ds ih =>
    cases ds with
    | nil => simp [absPath]
    | cons e ds =>
      have hcons : absPath (d :: e :: ds) = slash :: (d ++ absPath (e :: ds)) := rfl
      rw [hcons, ih (List.cons_ne_nil e ds), List.intercalate_cons_cons, List.append_assoc,
        List.singleton_append]

/-- The path of some components is the components with slashes between them behind a slash. -/
theorem joinPath_eq_intercalate (cs : List Path) :
    joinPath cs = slash :: [slash].intercalate cs := by
  rw [joinPath]
  split
  · rename_i h
    rw [h]
    rfl
  · exact absPath_eq_intercalate ‹_›

theorem components_length (p : Path) : (joinPath (components p)).length ≤ p.length + 1 := by
  have hwhole : absPath (p.splitOn slash) = slash :: p := by
    rw [absPath_eq_intercalate (List.splitOn_ne_nil slash p), List.intercalate_splitOn]
  have hsub : (absPath (components p)).Sublist (slash :: p) :=
    hwhole ▸ List.filter_sublist.flatMap _
  rw [joinPath]
  split
  · exact Nat.le_add_left 1 p.length
  · exact hsub.length_le

end components

section scan

def keep (st : List Path) (c : Path) : List Path := if Blank c then st else c :: st

def behind (st : List Path) (c : Path) : Path :=
  if Blank c then slash :: revPath st else c.reverse ++ slash :: revPath st

theorem foldl_keep (segs st : List Path) :
    segs.foldl keep st = (segs.filter fun c ↦ ¬Blank c).reverse ++ st := by
  induction segs generalizing st with
  | nil => rfl
  | cons c segs ih =>
    rw [List.foldl_cons, ih, keep, List.filter_cons]
    by_cases hb : Blank c <;> simp [hb]

theorem normRaw_copy {c rest out : Path} (hs : slash ∉ c) (hne : out ≠ [])
    (hd : out.head? = some slash → c ≠ [dot]) :
    normRaw (c ++ rest) out = normRaw rest (c.reverse ++ out) := by
  induction c generalizing out with
  | nil => rfl
  | cons b c ih =>
    rw [List.mem_cons, not_or] at hs
    have hdot : ¬(b = dot ∧ ((c ++ rest).head? = some slash ∨ c ++ rest = []) ∧
        (out = [] ∨ out.head? = some slash)) := by
      rintro ⟨rfl, hnext, hout⟩
      have hnil : c = [] := by
        cases c with
        | nil => rfl
        | cons e c =>
          have he : e = slash := by simpa using hnext
          exact (hs.2 (by rw [he]; exact List.mem_cons_self)).elim
      exact hd (hout.resolve_left hne) (by rw [hnil])
    have hnext : (b :: out).head? = some slash → c ≠ [dot] := fun h ↦ by
      have hb : b = slash := by simpa using h
      exact (hs.1 hb.symm).elim
    rw [List.cons_append, normRaw, if_neg (fun h ↦ hs.1 h.1.symm), if_neg hdot,
      ih hs.2 (List.cons_ne_nil b out) hnext, List.reverse_cons, List.append_assoc]
    rfl

theorem Plain.of_not_blank {c : Path} (hb : ¬Blank c) (hs : slash ∉ c) : Plain c :=
  ⟨fun h ↦ hb (.inl h), hs, fun h ↦ hb (.inr h)⟩

theorem normRaw_scans : Scans slash (fun st ↦ ∀ x ∈ st, Plain x) normRaw
    (fun st ↦ slash :: revPath st) behind keep where
  keeps st c hst hs := by
    rw [keep]
    split
    · exact hst
    · exact List.forall_mem_cons.mpr ⟨.of_not_blank ‹_› hs, hst⟩
  segment c rest st _ hs hrest := by
    by_cases hb : Blank c
    · rw [behind, if_pos hb]
      rcases hb with rfl | rfl
      · rfl
      · rw [List.singleton_append, normRaw, if_neg (fun h ↦ absurd h.1 (by decide)),
          if_pos ⟨rfl, hrest.symm, .inr rfl⟩]
    · rw [behind, if_neg hb]
      exact normRaw_copy hs (List.cons_ne_nil _ _) fun _ h ↦ hb (.inr h)
  separator rest st c _ hs := by
    by_cases hb : Blank c
    · rw [behind, keep, if_pos hb, if_pos hb, normRaw, if_pos ⟨rfl, rfl⟩]
    · have hhead := head_component (fun h ↦ hb (.inl h)) hs (slash :: revPath st)
      rw [behind, keep, if_neg hb, if_neg hb, normRaw, if_neg (fun h ↦ hhead h.2),
        if_neg (fun h ↦ absurd h.1 (by decide))]
      rfl

theorem strip_joinPath {cs : List Path} (hcs : ∀ x ∈ cs, Plain x) :
    stripSlashes (joinPath cs).reverse = (joinPath cs).reverse := by
  rw [joinPath]
  split
  · rfl
  · have hrev : (absPath cs).reverse = revPath cs.reverse := by
      rw [← List.reverse_inj, List.reverse_reverse, revPath_reverse, List.reverse_reverse]
    rw [hrev]
    exact stripSlashes_revPath fun x hx ↦ hcs x (List.mem_reverse.mp hx)

theorem behind_reverse (st : List Path) (c : Path) :
    (behind st c).reverse = joinPath (keep st c).reverse ∨
      keep st c = st ∧ st ≠ [] ∧ (behind st c).reverse = joinPath st.reverse ++ [slash] := by
  rw [behind, keep]
  split
  · by_cases hne : st = []
    · subst hne
      exact .inl rfl
    · refine .inr ⟨rfl, hne, ?_⟩
      rw [List.reverse_cons, revPath_reverse, joinPath, if_neg (by simpa using hne)]
  · refine .inl ?_
    have hrev : c.reverse ++ slash :: revPath st = revPath (c :: st) := rfl
    rw [hrev, revPath_reverse, joinPath, if_neg (by simp)]

/-- The output is the path of the components, cut off where the buffer ends. -/
theorem pathNormalize_eq (path : Path) : pathNormalize path =
    (stripSlashes ((joinPath (components path)).take (maxPath - 1)).reverse).reverse := by
  have hstart : ∃ rest, components path = components rest ∧
      normRaw path (if path.head? = some slash then [] else [slash]) =
        normRaw rest (slash :: revPath []) := by
    split
    · rename_i hs
      obtain ⟨rest, rfl⟩ := List.head?_eq_some_iff.mp hs
      refine ⟨rest, components_slash rest, ?_⟩
      rw [normRaw, if_neg (by simp), if_neg (fun hd ↦ absurd hd.1 (by decide))]
      rfl
    · exact ⟨path, rfl, rfl⟩
  have hshort : (if path.head? = some slash then ([] : Path) else [slash]).length < maxPath - 1 := by
    split
    · decide
    · decide
  obtain ⟨rest, hcomp, hraw⟩ := hstart
  obtain ⟨init, last, -, hplain, hsplit, hrun⟩ :=
    normRaw_scans.run rest (fun _ h ↦ absurd h List.not_mem_nil : ∀ x ∈ ([] : List Path), Plain x)
  have hkeep : components path = (keep (init.foldl keep []) last).reverse := by
    have hfold : keep (init.foldl keep []) last = (init ++ [last]).foldl keep [] := by
      rw [List.foldl_append, List.foldl_cons, List.foldl_nil]
    rw [hcomp, components, hsplit, hfold, foldl_keep, List.append_nil, List.reverse_reverse]
  have hout := @normLoop_eq path _ hshort
  rw [hraw, hrun, normRaw] at hout
  rw [pathNormalize, ← List.reverse_reverse (normLoop path _), hout]
  rcases behind_reverse (init.foldl keep []) last with h | ⟨hsame, hne, h⟩
  · rw [h, ← hkeep]
  · rw [h, hkeep, hsame, List.take_append]
    by_cases hfit : maxPath - 1 ≤ (joinPath (init.foldl keep []).reverse).length
    · rw [Nat.sub_eq_zero_of_le hfit, List.take_zero, List.append_nil]
    · have hone : maxPath - 1 - (joinPath (init.foldl keep []).reverse).length =
          (maxPath - 1 - (joinPath (init.foldl keep []).reverse).length - 1) + 1 := by omega
      have hrevI : ∀ x ∈ (init.foldl keep []).reverse, Plain x := fun x hx ↦
        hplain x (List.mem_reverse.mp hx)
      rw [List.take_of_length_le (Nat.le_of_lt (Nat.not_le.mp hfit)), hone, List.take_succ_cons,
        List.take_nil, List.reverse_append, List.reverse_singleton, List.singleton_append,
        strip_joinPath hrevI]
      have hrev : (joinPath (init.foldl keep []).reverse).reverse = revPath (init.foldl keep []) := by
        rw [joinPath, if_neg (by simpa using hne), ← List.reverse_inj, List.reverse_reverse,
          revPath_reverse]
      rw [hrev, stripSlashes_slash hplain hne]

end scan

/-- Paths that fit into the buffer are brought into the form that their components have. -/
theorem pathNormalize_of_fits {path : Path}
    (h : (joinPath (components path)).length ≤ maxPath - 1) :
    pathNormalize path = joinPath (components path) := by
  rw [pathNormalize_eq, List.take_of_length_le h, strip_joinPath fun x ↦ components_plain,
    List.reverse_reverse]

theorem joinPath_injective {cs ds : List Path} (hcs : ∀ c ∈ cs, Plain c) (hds : ∀ c ∈ ds, Plain c)
    (h : joinPath cs = joinPath ds) : cs = ds := by
  rw [← components_joinPath hcs, ← components_joinPath hds, h]

/-- A path shorter than the buffer is brought into its components, each behind a slash; two such
paths have one key exactly when they have the same components. -/
theorem normalizes_components {p q : Path} (hp : p.length < maxPath - 1)
    (hq : q.length < maxPath - 1) :
    pathNormalize p = slash :: [slash].intercalate (components p) ∧
      (pathNormalize p = pathNormalize q ↔ components p = components q) := by
  have hfit {r : Path} (hr : r.length < maxPath - 1) : pathNormalize r = joinPath (components r) :=
    pathNormalize_of_fits ((components_length r).trans hr)
  refine ⟨by rw [hfit hp, joinPath_eq_intercalate], fun h ↦ ?_, fun h ↦ ?_⟩
  · rw [hfit hp, hfit hq] at h
    exact joinPath_injective (fun _ ↦ components_plain) (fun _ ↦ components_plain) h
  · rw [hfit hp, hfit hq, h]

/-- The bytes of "a//./..b/." and of "/a/..b". -/
theorem normalizes_components_short :
    pathNormalize [97, 47, 47, 46, 47, 46, 46, 98, 47, 46] =
        slash :: [slash].intercalate (components [97, 47, 47, 46, 47, 46, 46, 98, 47, 46]) ∧
      (pathNormalize [97, 47, 47, 46, 47, 46, 46, 98, 47, 46] = pathNormalize [47, 97, 47, 46, 46, 98] ↔
        components [97, 47, 47, 46, 47, 46, 46, 98, 47, 46] = components [47, 97, 47, 46, 46, 98]) :=
  normalizes_components (by decide) (by decide)

/-- What a normalized path has to be. -/
structure NormalForm (p : Path) : Prop where
  head : p.head? = some slash
  parts : p ≠ [slash] → ∀ c ∈ p.tail.splitOn slash, ¬Blank c
  last : p.getLast? = some slash → p = [slash]
  short : p.length ≤ 4095
  fixed : pathNormalize p = p

section stable

variable {cs : List Path}

theorem Clean.normalForm {p : Path} (h : Clean p) (hlen : p.length ≤ maxPath - 1) :
    NormalForm p := by
  obtain ⟨cs, hcs, rfl⟩ := h
  refine ⟨by rw [joinPath_eq_intercalate]; rfl, fun hroot c hc ↦ ?_, fun hl ↦ ?_, hlen, ?_⟩
  · have hne : cs ≠ [] := fun h ↦ hroot (by rw [h]; rfl)
    rw [joinPath_eq_intercalate, List.tail_cons,
      List.splitOn_intercalate slash (fun c hc ↦ (hcs c hc).noSlash) hne] at hc
    exact (hcs c hc).not_blank
  · by_contra hroot
    obtain ⟨ds, c, -, hc, heq⟩ := Clean.cases ⟨cs, hcs, rfl⟩ hroot
    obtain ⟨b, x, rfl⟩ := List.exists_cons_of_ne_nil hc.ne
    rw [heq, joinPath_snoc, List.getLast?_append_of_ne_nil _ (List.cons_ne_nil _ _),
      List.getLast?_cons_cons] at hl
    exact hc.noSlash (List.mem_of_getLast? hl)
  · have hcomp := components_joinPath hcs
    have hfit := @pathNormalize_of_fits (joinPath cs) (by rw [hcomp]; exact hlen)
    rwa [hcomp] at hfit

theorem absPath_take (hcs : ∀ c ∈ cs, Plain c) (n : ℕ) :
    ∃ ds, (∀ c ∈ ds, Plain c) ∧ ((absPath cs).take n = absPath ds ∨
      ∃ e, slash ∉ e ∧ (absPath cs).take n = absPath ds ++ slash :: e) := by
  induction cs generalizing n with
  | nil => exact ⟨[], hcs, .inl List.take_nil⟩
  | cons c cs ih =>
    have hc := hcs c List.mem_cons_self
    have habs (l : List Path) : absPath (c :: l) = slash :: (c ++ absPath l) := rfl
    cases n with
    | zero => exact ⟨[], fun _ h ↦ absurd h List.not_mem_nil, .inl rfl⟩
    | succ n =>
      rw [habs, List.take_succ_cons, List.take_append]
      by_cases hn : n ≤ c.length
      · refine ⟨[], fun _ h ↦ absurd h List.not_mem_nil, .inr ⟨c.take n, ?_, ?_⟩⟩
        · exact fun h ↦ hc.noSlash (List.mem_of_mem_take h)
        · rw [Nat.sub_eq_zero_of_le hn, List.take_zero, List.append_nil]
          rfl
      · rw [List.take_of_length_le (Nat.le_of_lt (Nat.not_le.mp hn))]
        obtain ⟨ds, hds, htake⟩ := ih (fun x hx ↦ hcs x (List.mem_cons_of_mem _ hx)) (n - c.length)
        refine ⟨c :: ds, List.forall_mem_cons.mpr ⟨hc, hds⟩, ?_⟩
        rcases htake with htake | ⟨e, he, htake⟩
        · exact .inl (by rw [htake, habs])
        · exact .inr ⟨e, he, by rw [htake, habs, List.cons_append, List.append_assoc]⟩

/-- Unless the cut leaves a single dot of a name, stripping the slash makes a path of it. -/
theorem strip_cut (hcs : ∀ c ∈ cs, Plain c) {n : ℕ} (hn : 0 < n)
    (hdot : ¬[slash, dot] <:+ (joinPath cs).take n) :
    Clean (stripSlashes ((joinPath cs).take n).reverse).reverse := by
  rw [joinPath] at hdot ⊢
  split at hdot
  · rename_i h
    rw [if_pos h, List.take_of_length_le hn]
    exact ⟨[], fun _ h ↦ absurd h List.not_mem_nil, rfl⟩
  · rename_i hne
    rw [if_neg hne]
    have hrev (ds : List Path) : (absPath ds).reverse = revPath ds.reverse := by
      rw [← List.reverse_inj, List.reverse_reverse, revPath_reverse, List.reverse_reverse]
    obtain ⟨ds, hds, htake | ⟨e, hs, htake⟩⟩ := absPath_take hcs n
    · have hnil : ds ≠ [] := by
        rintro rfl
        obtain ⟨c, cs, rfl⟩ := List.exists_cons_of_ne_nil hne
        rcases List.take_eq_nil_iff.mp htake with h | h
        · omega
        · exact List.cons_ne_nil slash (c ++ absPath cs) h
      have hjoin : absPath ds = joinPath ds := (if_neg hnil).symm
      rw [htake, hjoin, strip_joinPath hds, List.reverse_reverse]
      exact ⟨ds, hds, rfl⟩
    · have hrds : ∀ c ∈ ds.reverse, Plain c := fun c hc ↦ hds c (List.mem_reverse.mp hc)
      by_cases he : e = []
      · rw [htake, he, List.reverse_append, List.reverse_singleton, List.singleton_append, hrev,
          joinPath_reverse hrds, List.reverse_reverse]
        exact ⟨ds, hds, rfl⟩
      · have hplain : ∀ c ∈ ds ++ [e], Plain c := by
          refine List.forall_mem_append.mpr ⟨hds, List.forall_mem_singleton.mpr ⟨he, hs, ?_⟩⟩
          rintro rfl
          rw [htake] at hdot
          exact hdot (List.suffix_append _ _)
        have hjoin : absPath ds ++ slash :: e = joinPath (ds ++ [e]) := (joinPath_snoc ds e).symm
        rw [htake, hjoin, strip_joinPath hplain, List.reverse_reverse]
        exact ⟨_, hplain, rfl⟩

end stable

theorem not_normalForm_of_cut {path : Path}
    (h : [slash, dot] <:+ (joinPath (components path)).take (maxPath - 1)) :
    ¬NormalForm (pathNormalize path) := by
  obtain ⟨x, hx⟩ := h
  have hrev : (x ++ [slash, dot]).reverse = dot :: slash :: x.reverse := by simp
  have hout : pathNormalize path = x ++ [slash, dot] := by
    rw [pathNormalize_eq, ← hx, hrev, stripSlashes, if_neg (by decide), ← hrev,
      List.reverse_reverse]
  rw [hout]
  intro h
  have hroot : x ++ [slash, dot] ≠ [slash] := fun h ↦ by
    have := congrArg List.length h
    rw [List.length_append] at this
    simp at this
  refine h.parts hroot [dot] ?_ (.inr rfl)
  cases x with
  | nil => decide
  | cons b x =>
    have hsplit : (x ++ slash :: [dot]).splitOn slash = x.splitOn slash ++ [dot].splitOn slash :=
      List.splitOn_append_cons_self x [dot]
    rw [List.cons_append, List.tail_cons, hsplit]
    exact List.mem_append_right _ (by decide)

/-- The output is a normal form unless the path of the components is cut off behind a dot that
begins a name. -/
theorem normalForm_iff (path : Path) : NormalForm (pathNormalize path) ↔
    ¬[slash, dot] <:+ (joinPath (components path)).take (maxPath - 1) := by
  constructor
  · exact fun h hcut ↦ not_normalForm_of_cut hcut h
  · intro hdot
    have hclean := strip_cut (fun _ ↦ components_plain) (by decide) hdot
    rw [← pathNormalize_eq] at hclean
    exact hclean.normalForm (Nat.le_of_lt_succ (pathNormalize_length path))

/-- A name of 4092 bytes and the hidden file ".b" in it. -/
def longPath : Path := slash :: (List.replicate 4092 97 ++ slash :: [dot, 98])

theorem cut_behind_dot : ¬∀ path, NormalForm (pathNormalize path) := by
  intro h
  have hname : slash ∉ List.replicate 4092 (97 : UInt8) := fun h ↦
    absurd (List.eq_of_mem_replicate h) (by decide)
  have hblank : ¬Blank (List.replicate 4092 97) := by
    rintro (h | h)
    · exact absurd (congrArg List.length h) (by rw [List.length_replicate]; decide)
    · exact absurd (congrArg List.length h) (by rw [List.length_replicate]; decide)
  have hcomp : components longPath = [List.replicate 4092 97, [dot, 98]] := by
    rw [longPath, components_slash, components_append hname, if_neg hblank,
      components_of_not_mem (by decide), if_neg (by decide)]
    rfl
  have hjoin : joinPath (components longPath) =
      (slash :: List.replicate 4092 97 ++ [slash, dot]) ++ [98] := by
    rw [hcomp, joinPath_eq_intercalate, List.intercalate_cons_cons, List.intercalate_singleton]
    generalize List.replicate 4092 (97 : UInt8) = name
    simp
  have hlen : (slash :: List.replicate 4092 (97 : UInt8) ++ [slash, dot]).length = maxPath - 1 := by
    rw [List.length_append, List.length_cons, List.length_replicate]
    rfl
  refine not_normalForm_of_cut ?_ (h longPath)
  rw [hjoin, List.take_left' hlen]
  exact List.suffix_append _ _

end Xxfs.PathName

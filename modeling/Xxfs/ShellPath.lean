import Xxfs.PathNormal

namespace Xxfs.ShellPath

open Xxfs.DiskFormat Xxfs.PathName Xxfs.Lib.Segments

/-- `while (len > 1 && norm[len-1] != '/') len--` on the reversed output. -/
def dropName : Path → Path
  | [] => []
  | [c] => [c]
  | c :: d :: rest => if c = slash then c :: d :: rest else dropName (d :: rest)

def popName (out : Path) : Path := if 1 < out.length then dropName out.tail else out

/-- The character loop of `path_resolve`; the output is held last byte first. -/
def resolveLoop : Path → Path → Path
  | [], out => out
  | c :: rest, out =>
    if c = slash ∧ out.head? = some slash then resolveLoop rest out
    else if c = dot ∧ (rest.head? = some slash ∨ rest = []) ∧
        (out = [] ∨ out.head? = some slash) then resolveLoop rest out
    else match rest with
      | [] => c :: out
      | d :: rest' =>
        if c = dot ∧ d = dot ∧ (rest'.head? = some slash ∨ rest' = []) then
          resolveLoop rest' (popName out)
        else if (c :: out).length ≥ maxPath - 1 then c :: out
        else resolveLoop (d :: rest') (c :: out)

def joinInput (cwd input : Path) : Path :=
  if input.head? = some slash then input else cwd ++ slash :: input

/-- The path that is handed to the loop, as `snprintf` leaves it in a buffer of `maxPath` bytes. -/
def joined (cwd input : Path) : Path := (joinInput cwd input).take (maxPath - 1)

/-- `path_resolve` in the working directory `cwd`. -/
def pathResolve (cwd input : Path) : Path :=
  let p := joined cwd input
  (stripSlashes (resolveLoop p (if p.head? = some slash then [] else [slash]))).reverse

def dotDot : Path := [dot, dot]

/-- What a component does to the names kept so far, last first. -/
def walk (st : List Path) (c : Path) : List Path :=
  if Blank c then st else if c = dotDot then st.tail else c :: st

/-- The names that a walk through the components of a path ends with. -/
def walked (p : Path) : List Path := ((p.splitOn slash).foldl walk []).reverse

def Tailed (c : Path) : Prop := dotDot <:+ c ∧ c ≠ dotDot

instance (c : Path) : Decidable (Tailed c) := inferInstanceAs (Decidable (_ ∧ _))

def step (st : List Path) (c : Path) : List Path := if Tailed c then st else walk st c

/-- The rest of a path at a segment that ends in two dots. -/
def AtDots (p : Path) : Prop :=
  p.head? = some dot ∧ p.tail.head? = some dot ∧
    (p.tail.tail.head? = some slash ∨ p.tail.tail = [])

instance (p : Path) : Decidable (AtDots p) := inferInstanceAs (Decidable (_ ∧ _ ∧ _))

theorem resolveLoop_cons (c : UInt8) (rest out : Path) : resolveLoop (c :: rest) out =
    if c = slash ∧ out.head? = some slash then resolveLoop rest out
    else if c = dot ∧ (rest.head? = some slash ∨ rest = []) ∧
        (out = [] ∨ out.head? = some slash) then resolveLoop rest out
    else if AtDots (c :: rest) then resolveLoop rest.tail (popName out)
    else if (c :: out).length ≥ maxPath - 1 then c :: out
    else resolveLoop rest (c :: out) := by
  cases rest with
  | nil => simp [resolveLoop, AtDots]
  | cons d rest => simp [resolveLoop, AtDots]

def resolveRaw (path out : Path) : Path :=
  match path with
  | [] => out
  | c :: rest =>
    if c = slash ∧ out.head? = some slash then resolveRaw rest out
    else if c = dot ∧ (rest.head? = some slash ∨ rest = []) ∧
        (out = [] ∨ out.head? = some slash) then resolveRaw rest out
    else if AtDots (c :: rest) then resolveRaw rest.tail (popName out)
    else resolveRaw rest (c :: out)
termination_by path.length
decreasing_by all_goals grind

section room

theorem dropName_length (out : Path) : (dropName out).length ≤ out.length := by
  induction out with
  | nil => exact le_rfl
  | cons c out ih =>
    cases out with
    | nil => exact le_rfl
    | cons d rest =>
      rw [dropName]
      split
      · exact le_rfl
      · exact ih.trans (Nat.le_succ _)

theorem popName_length (out : Path) : (popName out).length ≤ out.length := by
  rw [popName]
  split
  · refine (dropName_length _).trans ?_
    rw [List.length_tail]
    exact Nat.sub_le _ _
  · exact le_rfl

theorem resolveLoop_eq (path out : Path) (h : path.length + out.length < maxPath - 1) :
    resolveLoop path out = resolveRaw path out := by
  induction path, out using resolveRaw.induct with
  | case1 out => rw [resolveLoop, resolveRaw]
  | case2 out c rest hc ih =>
    rw [List.length_cons] at h
    rw [resolveLoop_cons, resolveRaw, if_pos hc, if_pos hc]
    exact ih (by omega)
  | case3 out c rest hc hd ih =>
    rw [List.length_cons] at h
    rw [resolveLoop_cons, resolveRaw, if_neg hc, if_neg hc, if_pos hd, if_pos hd]
    exact ih (by omega)
  | case4 out c rest hc hd hdd ih =>
    have hpop := popName_length out
    have htail := List.length_tail (l := rest)
    rw [List.length_cons] at h
    rw [resolveLoop_cons, resolveRaw, if_neg hc, if_neg hc, if_neg hd, if_neg hd, if_pos hdd,
      if_pos hdd]
    exact ih (by omega)
  | case5 out c rest hc hd hdd ih =>
    have hroom : ¬(c :: out).length ≥ maxPath - 1 := by
      rw [List.length_cons] at h ⊢
      omega
    rw [List.length_cons] at h
    rw [resolveLoop_cons, resolveRaw, if_neg hc, if_neg hc, if_neg hd, if_neg hd, if_neg hdd,
      if_neg hdd, if_neg hroom]
    exact ih (by rw [List.length_cons]; omega)

end room

section scan

variable {st : List Path} {c rest out : Path}

theorem resolveRaw_push {b : UInt8} (hs : ¬(b = slash ∧ out.head? = some slash))
    (hd : ¬(b = dot ∧ (rest.head? = some slash ∨ rest = []) ∧
      (out = [] ∨ out.head? = some slash))) (hdd : ¬AtDots (b :: rest)) :
    resolveRaw (b :: rest) out = resolveRaw rest (b :: out) := by
  rw [resolveRaw, if_neg hs, if_neg hd, if_neg hdd]

theorem resolveRaw_pop (hrest : rest.head? = some slash ∨ rest = []) :
    resolveRaw (dotDot ++ rest) out = resolveRaw rest (popName out) := by
  have hcons : dotDot ++ rest = dot :: dot :: rest := rfl
  have hnext : ¬((dot :: rest).head? = some slash ∨ dot :: rest = []) :=
    fun h ↦ h.elim (fun h ↦ absurd (Option.some.inj h) (by decide)) (List.cons_ne_nil _ _)
  rw [hcons, resolveRaw, if_neg (fun h ↦ absurd h.1 (by decide)), if_neg (fun h ↦ hnext h.2.1),
    if_pos ⟨rfl, rfl, hrest⟩, List.tail_cons]

theorem resolveRaw_copy {e : Path} (hs : slash ∉ e) (hne : out ≠ [])
    (hd : out.head? = some slash → ¬(e = [dot] ∧ (rest.head? = some slash ∨ rest = [])))
    (hdd : ∀ g, g <:+ e → g ≠ [] → ¬AtDots (g ++ rest)) :
    resolveRaw (e ++ rest) out = resolveRaw rest (e.reverse ++ out) := by
  induction e generalizing out with
  | nil => rfl
  | cons b e ih =>
    rw [List.mem_cons, not_or] at hs
    have hb : ¬b = slash := fun h ↦ hs.1 h.symm
    have hdot : ¬(b = dot ∧ ((e ++ rest).head? = some slash ∨ e ++ rest = []) ∧
        (out = [] ∨ out.head? = some slash)) := by
      rintro ⟨rfl, hnext, hout⟩
      cases e with
      | nil => exact hd (hout.resolve_left hne) ⟨rfl, hnext⟩
      | cons x e =>
        have hx : x = slash := by simpa using hnext
        exact hs.2 (hx ▸ List.mem_cons_self)
    rw [List.cons_append, resolveRaw_push (fun h ↦ hb h.1) hdot
        (hdd (b :: e) List.suffix_rfl (List.cons_ne_nil b e)),
      ih hs.2 (List.cons_ne_nil b out) (fun h ↦ absurd (Option.some.inj h) hb)
        (fun g hg ↦ hdd g (hg.trans (List.suffix_cons b e))), List.reverse_cons, List.append_assoc]
    rfl

theorem AtDots.suffix {g : Path} (hs : slash ∉ g) (hne : g ≠ [])
    (hrest : rest.head? ≠ some dot) (h : AtDots (g ++ rest)) : g = dotDot := by
  obtain ⟨h₁, h₂, h₃⟩ := h
  cases g with
  | nil => exact (hne rfl).elim
  | cons x g =>
    cases g with
    | nil => exact (hrest h₂).elim
    | cons y g =>
      cases g with
      | nil =>
        obtain rfl : x = dot := Option.some.inj h₁
        obtain rfl : y = dot := Option.some.inj h₂
        rfl
      | cons z g =>
        have hz : z = slash := by simpa using h₃
        exact (hs (by simp [hz])).elim

theorem not_atDots_before {g : Path} (hs : slash ∉ g) (hne : g ≠ []) :
    ¬AtDots (g ++ (dotDot ++ rest)) := by
  have hdot {r : Path} : ¬((dot :: r).head? = some slash ∨ dot :: r = []) :=
    fun h ↦ h.elim (fun h ↦ absurd (Option.some.inj h) (by decide)) (List.cons_ne_nil _ _)
  rintro ⟨-, -, h⟩
  cases g with
  | nil => exact hne rfl
  | cons x g =>
    cases g with
    | nil => exact hdot h
    | cons y g =>
      cases g with
      | nil => exact hdot h
      | cons z g =>
        have hz : z = slash := by simpa using h
        exact hs (by simp [hz])

theorem dropName_copy {r : Path} (hs : slash ∉ c) : dropName (c ++ slash :: r) = slash :: r := by
  induction c with
  | nil =>
    cases r with
    | nil => rfl
    | cons b r => exact if_pos rfl
  | cons b c ih =>
    rw [List.mem_cons, not_or] at hs
    obtain ⟨x, y, hxy⟩ := List.exists_cons_of_ne_nil
      (List.append_ne_nil_of_right_ne_nil c (List.cons_ne_nil slash r))
    rw [List.cons_append, hxy, dropName, if_neg (fun h ↦ hs.1 h.symm), ← hxy, ih hs.2]

theorem popName_begun (hne : c ≠ []) (hs : slash ∉ c) (r : Path) :
    popName (c.reverse ++ slash :: r) = slash :: r := by
  obtain ⟨b, x, hx⟩ := List.exists_cons_of_ne_nil (List.reverse_ne_nil_iff.mpr hne)
  have hsx : slash ∉ x := fun h ↦ hs <| by
    rw [← List.mem_reverse, hx]
    exact List.mem_cons_of_mem b h
  have hlen : 1 < (b :: x ++ slash :: r).length := by
    rw [List.length_append, List.length_cons, List.length_cons]
    omega
  rw [hx, popName, if_pos hlen, List.cons_append, List.tail_cons, dropName_copy hsx]

theorem popName_revPath (hst : ∀ x ∈ st, Plain x) :
    popName (slash :: revPath st) = slash :: revPath st.tail := by
  cases st with
  | nil => rfl
  | cons c st =>
    have hc := hst c List.mem_cons_self
    have hrev : slash :: revPath (c :: st) = slash :: (c.reverse ++ slash :: revPath st) := rfl
    have hlen : 1 < (slash :: (c.reverse ++ slash :: revPath st)).length := by
      rw [List.length_cons, List.length_append, List.length_cons]
      omega
    rw [hrev, popName, if_pos hlen, List.tail_cons, List.tail_cons, dropName_copy]
    exact fun h ↦ hc.noSlash (List.mem_reverse.mp h)

def past (st : List Path) (c : Path) : Path :=
  if Blank c ∨ dotDot <:+ c then slash :: revPath (step st c) else c.reverse ++ slash :: revPath st

theorem walk_plain (hst : ∀ x ∈ st, Plain x) (hs : slash ∉ c) : ∀ x ∈ walk st c, Plain x := by
  rw [walk]
  split
  · exact hst
  · split
    · exact fun x hx ↦ hst x (List.mem_of_mem_tail hx)
    · exact List.forall_mem_cons.mpr ⟨.of_not_blank ‹_› hs, hst⟩

theorem step_plain (hst : ∀ x ∈ st, Plain x) (hs : slash ∉ c) : ∀ x ∈ step st c, Plain x := by
  rw [step]
  split
  · exact hst
  · exact walk_plain hst hs

theorem blank_not_dots (hb : Blank c) : ¬dotDot <:+ c := by
  intro h
  have hlen := h.length_le
  rcases hb with rfl | rfl
  · exact absurd hlen (by decide)
  · exact absurd hlen (by decide)

theorem resolveRaw_scans : Scans slash (fun st ↦ ∀ x ∈ st, Plain x) resolveRaw
    (fun st ↦ slash :: revPath st) past step where
  keeps _ _ hst hs := step_plain hst hs
  segment c rest st hst hs hrest := by
    have hrest' : rest.head? ≠ some dot := by
      rcases hrest with rfl | h
      · exact fun h ↦ by cases h
      · rw [h]
        decide
    by_cases hb : Blank c
    · have hstep : step st c = st := by
        rw [step, if_neg (fun h ↦ blank_not_dots hb h.1), walk, if_pos hb]
      rw [past, if_pos (.inl hb), hstep]
      rcases hb with rfl | rfl
      · rw [List.nil_append]
      · rw [List.singleton_append, resolveRaw, if_neg (fun h ↦ absurd h.1 (by decide)),
          if_pos ⟨rfl, hrest.symm, .inr rfl⟩]
    · by_cases hdots : dotDot <:+ c
      · rw [past, if_pos (.inr hdots)]
        obtain ⟨e, rfl⟩ := hdots
        have hse : slash ∉ e := fun h ↦ hs (List.mem_append_left _ h)
        have hcopy : resolveRaw (e ++ (dotDot ++ rest)) (slash :: revPath st) =
            resolveRaw (dotDot ++ rest) (e.reverse ++ slash :: revPath st) := by
          refine resolveRaw_copy hse (List.cons_ne_nil _ _) (fun _ h ↦ ?_) fun g hg hne ↦ ?_
          · exact h.2.elim (fun h ↦ absurd (Option.some.inj h) (by decide)) (List.cons_ne_nil _ _)
          · exact not_atDots_before (fun h ↦ hse (hg.mem h)) hne
        rw [List.append_assoc, hcopy, resolveRaw_pop hrest.symm]
        by_cases he : e = []
        · subst he
          have hstep : step st ([] ++ dotDot) = st.tail := by
            rw [step, if_neg (fun h ↦ h.2 rfl), walk, if_neg hb, if_pos (List.nil_append _)]
          rw [hstep]
          exact congrArg _ (popName_revPath hst)
        · have htailed : Tailed (e ++ dotDot) :=
            ⟨List.suffix_append _ _, fun h ↦ he (List.append_left_eq_self.mp h)⟩
          rw [step, if_pos htailed, popName_begun he hse]
      · rw [past, if_neg (fun h ↦ h.elim hb hdots)]
        refine resolveRaw_copy hs (List.cons_ne_nil _ _) (fun _ h ↦ hb (.inr h.1)) fun g hg hne h ↦ ?_
        have hg' := h.suffix (fun h ↦ hs (hg.mem h)) hne hrest'
        exact hdots (hg' ▸ hg)
  separator rest st c hst hs := by
    by_cases hc : Blank c ∨ dotDot <:+ c
    · rw [past, if_pos hc, resolveRaw, if_pos ⟨rfl, rfl⟩]
    · rw [not_or] at hc
      have hhead := head_component (fun h ↦ hc.1 (.inl h)) hs (slash :: revPath st)
      have hstep : step st c = c :: st := by
        rw [step, if_neg (fun h ↦ hc.2 h.1), walk, if_neg hc.1, if_neg]
        exact fun h ↦ hc.2 (h ▸ List.suffix_rfl)
      rw [past, if_neg (fun h ↦ h.elim hc.1 hc.2), hstep, resolveRaw_push (fun h ↦ hhead h.2)
        (fun h ↦ absurd h.1 (by decide)) (fun h ↦ absurd (Option.some.inj h.1) (by decide))]
      rfl

theorem past_strip (hst : ∀ x ∈ st, Plain x) (hs : slash ∉ c) :
    (stripSlashes (past st c)).reverse = joinPath (step st c).reverse := by
  rw [past]
  split
  · exact joinPath_reverse (step_plain hst hs)
  · rename_i h
    rw [not_or] at h
    have hstep : step st c = c :: st := by
      rw [step, if_neg (fun h' ↦ h.2 h'.1), walk, if_neg h.1, if_neg]
      exact fun h' ↦ h.2 (h' ▸ List.suffix_rfl)
    have hcs : ∀ x ∈ c :: st, Plain x := List.forall_mem_cons.mpr ⟨.of_not_blank h.1 hs, hst⟩
    have hrev : c.reverse ++ slash :: revPath st = revPath (c :: st) := rfl
    rw [hstep, hrev, stripSlashes_revPath hcs, ← stripSlashes_slash hcs (List.cons_ne_nil c st),
      joinPath_reverse hcs]

theorem pathResolve_eq {cwd input : Path} (hcwd : Clean cwd)
    (hlen : (joinInput cwd input).length < maxPath - 1) : pathResolve cwd input =
      joinPath (((joinInput cwd input).splitOn slash).foldl step []).reverse := by
  have hhead : (joinInput cwd input).head? = some slash := by
    rw [joinInput]
    split
    · assumption
    · obtain ⟨cs, -, rfl⟩ := hcwd
      rw [joinPath_eq_intercalate]
      rfl
  have hjoined : joined cwd input = joinInput cwd input := List.take_of_length_le hlen.le
  rw [pathResolve, hjoined, if_pos hhead]
  generalize joinInput cwd input = p at hlen hhead ⊢
  obtain ⟨rest, rfl⟩ := List.head?_eq_some_iff.mp hhead
  have hstart : resolveRaw (slash :: rest) [] = resolveRaw rest (slash :: revPath []) :=
    resolveRaw_push (fun h ↦ by cases h.2) (fun h ↦ absurd h.1 (by decide))
      fun h ↦ absurd (Option.some.inj h.1) (by decide)
  obtain ⟨init, last, hlast, hplain, hsplit, hrun⟩ := resolveRaw_scans.run rest
    (fun _ h ↦ absurd h List.not_mem_nil : ∀ x ∈ ([] : List Path), Plain x)
  have hsegs : (slash :: rest).splitOn slash = [] :: (init ++ [last]) := by
    rw [← hsplit]
    exact List.splitOn_append_cons_self_of_not_mem List.not_mem_nil rest
  rw [resolveLoop_eq _ _ (by rwa [List.length_nil, Nat.add_zero]), hstart, hrun, resolveRaw,
    past_strip hplain hlast, hsegs, List.foldl_cons, List.foldl_append]
  rfl

end scan

section walks

variable {st st' : List Path} {c : Path}

/-- Leaving out the tailed names removes names from the walk and nothing else. -/
theorem step_sublist (h : st'.Sublist st) (c : Path) : (step st' c).Sublist (walk st c) := by
  have hwalk : (walk st' c).Sublist (walk st c) := by
    rw [walk, walk]
    split
    · exact h
    · split
      · exact h.tail
      · exact h.cons_cons c
  rw [step]
  split
  · rename_i ht
    have hne : ¬Blank c := fun hb ↦ blank_not_dots hb ht.1
    rw [walk, if_neg hne, if_neg ht.2]
    exact h.cons c
  · exact hwalk

theorem foldl_sublist (h : st'.Sublist st) (cs : List Path) :
    (cs.foldl step st').Sublist (cs.foldl walk st) := by
  induction cs generalizing st st' with
  | nil => exact h
  | cons c cs ih => exact ih (step_sublist h c)

theorem foldl_step_eq {cs : List Path} (h : ∀ c ∈ cs, ¬Tailed c) (st : List Path) :
    cs.foldl step st = cs.foldl walk st := by
  induction cs generalizing st with
  | nil => rfl
  | cons c cs ih =>
    rw [List.foldl_cons, List.foldl_cons, step, if_neg (h c List.mem_cons_self)]
    exact ih (fun x hx ↦ h x (List.mem_cons_of_mem c hx)) _

theorem meets_at_root {cs : List Path} (h : st'.Sublist st) (hlt : st'.length < st.length)
    (heq : cs.foldl step st' = cs.foldl walk st) : ∃ ds, ds <+: cs ∧ ds.foldl walk st = [] := by
  induction cs generalizing st st' with
  | nil =>
    have heq' : st' = st := heq
    exact absurd (congrArg List.length heq') hlt.ne
  | cons c cs ih =>
    by_cases hroot : walk st c = []
    · exact ⟨[c], ⟨cs, rfl⟩, hroot⟩
    · have hlt' : (step st' c).length < (walk st c).length := by
        rw [walk] at hroot ⊢
        rw [step, walk]
        split
        · rename_i ht
          rw [if_neg fun hb ↦ blank_not_dots hb ht.1, if_neg ht.2, List.length_cons]
          exact hlt.trans (Nat.lt_succ_self _)
        · split
          · exact hlt
          · rename_i hb
            split
            · rename_i hd
              rw [if_neg hb, if_pos hd] at hroot
              have := List.length_pos_iff.mpr hroot
              rw [List.length_tail] at this ⊢
              rw [List.length_tail]
              omega
            · exact Nat.succ_lt_succ hlt
      obtain ⟨ds, hds, hend⟩ := ih (step_sublist h c) hlt' heq
      exact ⟨c :: ds, (List.prefix_cons_inj c).mpr hds, hend⟩

theorem last_tailed (cs : List Path) : (∀ c ∈ cs, ¬Tailed c) ∨
    ∃ l c r, cs = l ++ c :: r ∧ Tailed c ∧ ∀ x ∈ r, ¬Tailed x := by
  induction cs with
  | nil => exact .inl fun c hc ↦ absurd hc List.not_mem_nil
  | cons d cs ih =>
    rcases ih with hno | ⟨l, c, r, rfl, hc, hr⟩
    · by_cases hd : Tailed d
      · exact .inr ⟨[], d, cs, rfl, hd, hno⟩
      · exact .inl (List.forall_mem_cons.mpr ⟨hd, hno⟩)
    · exact .inr ⟨d :: l, c, r, rfl, hc, hr⟩

/-- Both readings agree when the walk comes back to the root behind each tailed name. -/
theorem foldl_step_eq_iff (cs : List Path) : cs.foldl step [] = cs.foldl walk [] ↔
    ∀ l c r, cs = l ++ c :: r → Tailed c → ∃ ds, ds <+: r ∧ (l ++ c :: ds).foldl walk [] = [] := by
  constructor
  · rintro heq l c r rfl hc
    have hne : ¬Blank c := fun hb ↦ blank_not_dots hb hc.1
    have hsub := foldl_sublist (List.Sublist.refl ([] : List Path)) l
    rw [List.foldl_append, List.foldl_append, List.foldl_cons, List.foldl_cons] at heq
    have hlt : (step (l.foldl step []) c).length < (walk (l.foldl walk []) c).length := by
      rw [step, if_pos hc, walk, if_neg hne, if_neg hc.2, List.length_cons]
      exact Nat.lt_succ_of_le hsub.length_le
    obtain ⟨ds, hds, hend⟩ := meets_at_root (step_sublist hsub c) hlt heq
    exact ⟨ds, hds, by rw [List.foldl_append, List.foldl_cons, hend]⟩
  · intro h
    rcases last_tailed cs with hno | ⟨l, c, r, rfl, hc, hr⟩
    · exact foldl_step_eq hno []
    · obtain ⟨ds, ⟨es, rfl⟩, hend⟩ := h l c r rfl hc
      have hsub := foldl_sublist (List.Sublist.refl ([] : List Path)) (l ++ c :: ds)
      have hnil : (l ++ c :: ds).foldl step [] = [] := by
        rw [hend] at hsub
        exact List.sublist_nil.mp hsub
      have happ : l ++ c :: (ds ++ es) = (l ++ c :: ds) ++ es := by simp
      rw [happ]
      generalize l ++ c :: ds = front at hnil hend
      rw [List.foldl_append, List.foldl_append, hnil, hend]
      exact foldl_step_eq (fun x hx ↦ hr x (List.mem_append_right _ hx)) []

theorem foldl_plain {f : List Path → Path → List Path}
    (hf : ∀ st c, (∀ x ∈ st, Plain x) → slash ∉ c → ∀ x ∈ f st c, Plain x) {cs : List Path}
    (hcs : ∀ c ∈ cs, slash ∉ c) (hst : ∀ x ∈ st, Plain x) : ∀ x ∈ cs.foldl f st, Plain x := by
  induction cs generalizing st with
  | nil => exact hst
  | cons c cs ih =>
    exact ih (fun x hx ↦ hcs x (List.mem_cons_of_mem c hx)) (hf st c hst (hcs c List.mem_cons_self))

end walks

/-- The shell resolves the path that was named exactly when the walk through its components comes
back to the root behind every name that only ends in two dots. -/
theorem resolves_iff {cwd input : Path} (hcwd : Clean cwd)
    (hlen : (joinInput cwd input).length < maxPath - 1) :
    pathResolve cwd input = joinPath (walked (joinInput cwd input)) ↔
      ∀ l c r, (joinInput cwd input).splitOn slash = l ++ c :: r → Tailed c →
        ∃ ds, ds <+: r ∧ (l ++ c :: ds).foldl walk [] = [] := by
  rw [pathResolve_eq hcwd hlen, walked, ← foldl_step_eq_iff]
  have hsegs : ∀ c ∈ (joinInput cwd input).splitOn slash, slash ∉ c := fun _ ↦
    not_mem_of_mem_splitOn
  have hnil : ∀ x ∈ ([] : List Path), Plain x := fun _ h ↦ absurd h List.not_mem_nil
  constructor
  · intro h
    refine List.reverse_injective (joinPath_injective (fun x hx ↦ ?_) (fun x hx ↦ ?_) h)
    · exact foldl_plain (fun _ _ ↦ step_plain) hsegs hnil x (List.mem_reverse.mp hx)
    · exact foldl_plain (fun _ _ ↦ walk_plain) hsegs hnil x (List.mem_reverse.mp hx)
  · intro h
    rw [h]

/-- The bytes of "foo../..". -/
theorem resolves_iff_back : pathResolve [47] [102, 111, 111, 46, 46, 47, 46, 46] =
      joinPath (walked (joinInput [47] [102, 111, 111, 46, 46, 47, 46, 46])) ↔
    ∀ l c r, (joinInput [47] [102, 111, 111, 46, 46, 47, 46, 46]).splitOn slash = l ++ c :: r →
      Tailed c → ∃ ds, ds <+: r ∧ (l ++ c :: ds).foldl walk [] = [] :=
  resolves_iff ⟨[], fun _ h ↦ absurd h List.not_mem_nil, by decide⟩ (by decide)

/-- In "/" the name "foo.." is taken for the root. -/
theorem tailed_name_lost : ¬∀ cwd input, Clean cwd → (joinInput cwd input).length < maxPath - 1 →
    pathResolve cwd input = joinPath (walked (joinInput cwd input)) := by
  intro h
  have hfoo := h [47] [102, 111, 111, 46, 46]
    ⟨[], fun _ h ↦ absurd h List.not_mem_nil, by decide⟩ (by decide)
  have hcode : pathResolve [47] [102, 111, 111, 46, 46] = [47] := by decide
  have hnamed : joinPath (walked (joinInput [47] [102, 111, 111, 46, 46])) =
      [47, 102, 111, 111, 46, 46] := by decide
  rw [hcode, hnamed] at hfoo
  cases hfoo

end Xxfs.ShellPath

import Mathlib.Algebra.BigOperators.Group.Finset.Piecewise
import Mathlib.Algebra.Order.BigOperators.Group.Finset

namespace Xxfs.Lib.GroupTable

/-- A cell of a table with open addressing. -/
inductive Cell (α : Type)
  | empty
  | tomb
  | full (a : α)

namespace Cell

variable {α : Type}

def isEmpty : Cell α → Bool
  | empty => true
  | _ => false

def isTomb : Cell α → Bool
  | tomb => true
  | _ => false

def isFull : Cell α → Bool
  | full _ => true
  | _ => false

def holds (q : α → Bool) : Cell α → Bool
  | full a => q a
  | _ => false

theorem isEmpty_iff {c : Cell α} : c.isEmpty = true ↔ c = empty := by
  cases c <;> simp [isEmpty]

theorem isTomb_iff {c : Cell α} : c.isTomb = true ↔ c = tomb := by
  cases c <;> simp [isTomb]

theorem isFull_iff {c : Cell α} : c.isFull = true ↔ ∃ a, c = full a := by
  cases c <;> simp [isFull]

theorem holds_iff {q : α → Bool} {c : Cell α} :
    c.holds q = true ↔ ∃ a, c = full a ∧ q a = true := by
  cases c <;> simp [holds]

end Cell

section probe

variable {α : Type} (gs nr : ℕ) (cells : ℕ → Cell α)

/-- The first cell of the group that satisfies `p`. -/
def groupFind (p : Cell α → Bool) (g : ℕ) : Option ℕ :=
  ((List.range gs).find? fun b ↦ p (cells (g * gs + b))).map fun b ↦ g * gs + b

/-- The search for an entry: group by group, up to the first group with an empty cell. -/
def seek (q : α → Bool) : ℕ → ℕ → Option ℕ
  | 0, _ => none
  | n + 1, g =>
    match groupFind gs cells (Cell.holds q) g with
    | some i => some i
    | none =>
      if (groupFind gs cells Cell.isEmpty g).isSome then none else seek q n ((g + 1) % nr)

/-- Where an insertion ends: at an entry of the key, in a group with an empty cell, at a
tombstone after all groups, or nowhere. -/
inductive Spot
  | found (i : ℕ)
  | vacant (i : ℕ)
  | reused (i : ℕ)
  | none

/-- The search of an insertion, which takes the first tombstone it has met rather than an
empty cell. -/
def spot (q : α → Bool) : ℕ → ℕ → Option ℕ → Spot
  | 0, _, some i => .reused i
  | 0, _, none => .none
  | n + 1, g, d =>
    match groupFind gs cells (Cell.holds q) g with
    | some i => .found i
    | none =>
      match groupFind gs cells Cell.isEmpty g with
      | some i => .vacant ((d.or (groupFind gs cells Cell.isTomb g)).getD i)
      | none => spot q n ((g + 1) % nr) (d.or (groupFind gs cells Cell.isTomb g))

def NoEmpty (g : ℕ) : Prop := ∀ b < gs, cells (g * gs + b) ≠ .empty

/-- Cell `i` is in one of the `n` groups from `g` on, with no empty cell in a group before. -/
def Ahead : ℕ → ℕ → ℕ → Prop
  | 0, _, _ => False
  | n + 1, g, i => i / gs = g ∨ NoEmpty gs cells g ∧ Ahead n ((g + 1) % nr) i

variable {gs nr cells} {p : Cell α → Bool} {q : α → Bool} {n g i : ℕ}

theorem of_groupFind (h : groupFind gs cells p g = some i) : p (cells i) = true ∧ i / gs = g := by
  obtain ⟨b, hb, rfl⟩ := Option.map_eq_some_iff.mp h
  have hlt : b < gs := List.mem_range.mp (List.mem_of_find?_eq_some hb)
  refine ⟨List.find?_some (p := fun b ↦ p (cells (g * gs + b))) hb, ?_⟩
  rw [Nat.add_comm, Nat.add_mul_div_right _ _ (by omega), Nat.div_eq_of_lt hlt, Nat.zero_add]

theorem groupFind_none :
    groupFind gs cells p g = none ↔ ∀ b < gs, p (cells (g * gs + b)) = false := by
  simp [groupFind]

theorem groupFind_none_cell (h : groupFind gs cells p g = none) (hgs : 0 < gs) (hi : i / gs = g) :
    p (cells i) = false := by
  have := groupFind_none.mp h (i % gs) (Nat.mod_lt _ hgs)
  rwa [← hi, Nat.mul_comm, Nat.div_add_mod] at this

theorem noEmpty_of_groupFind (h : groupFind gs cells Cell.isEmpty g = none) :
    NoEmpty gs cells g := by
  intro b hb hc
  have := groupFind_none.mp h b hb
  rw [hc] at this
  cases this

theorem not_noEmpty (h : groupFind gs cells Cell.isEmpty g = some i) : ¬NoEmpty gs cells g := by
  obtain ⟨b, hb, rfl⟩ := Option.map_eq_some_iff.mp h
  intro hn
  have he : (cells (g * gs + b)).isEmpty = true :=
    List.find?_some (p := fun b ↦ (cells (g * gs + b)).isEmpty) hb
  exact hn b (List.mem_range.mp (List.mem_of_find?_eq_some hb)) (Cell.isEmpty_iff.mp he)

theorem Ahead.lt (h : Ahead gs nr cells n g i) (hg : g < nr) : i / gs < nr := by
  induction n generalizing g with
  | zero => exact h.elim
  | succ n ih =>
    rcases h with h | ⟨-, h⟩
    · rwa [h]
    · exact ih h (Nat.mod_lt _ (by omega))

theorem Ahead.mono {cells' : ℕ → Cell α} (h : Ahead gs nr cells n g i)
    (hc : ∀ j, cells' j = .empty → cells j = .empty) : Ahead gs nr cells' n g i := by
  induction n generalizing g with
  | zero => exact h
  | succ n ih =>
    rcases h with h | ⟨hn, h⟩
    · exact .inl h
    · exact .inr ⟨fun b hb he ↦ hn b hb (hc _ he), ih h⟩

theorem of_seek (h : seek gs nr cells q n g = some i) : ∃ a, cells i = .full a ∧ q a = true := by
  induction n generalizing g with
  | zero => cases h
  | succ n ih =>
    rw [seek] at h
    split at h
    · rename_i j hj
      obtain rfl := Option.some.inj h
      exact Cell.holds_iff.mp (of_groupFind hj).1
    · split at h
      · cases h
      · exact ih h

theorem seek_none (hgs : 0 < gs) (h : seek gs nr cells q n g = none)
    (ha : Ahead gs nr cells n g i) : (cells i).holds q = false := by
  induction n generalizing g with
  | zero => exact ha.elim
  | succ n ih =>
    rw [seek] at h
    split at h
    · cases h
    · rename_i hno
      rcases ha with ha | ⟨hn, ha⟩
      · exact groupFind_none_cell hno hgs ha
      · split at h
        · rename_i he
          obtain ⟨j, hj⟩ := Option.isSome_iff_exists.mp he
          exact (not_noEmpty hj hn).elim
        · exact ih h ha

theorem of_spot_found {d : Option ℕ} (h : spot gs nr cells q n g d = .found i) :
    ∃ a, cells i = .full a ∧ q a = true := by
  induction n generalizing g d with
  | zero => cases d <;> cases h
  | succ n ih =>
    rw [spot] at h
    split at h
    · rename_i j hj
      obtain rfl := Spot.found.inj h
      exact Cell.holds_iff.mp (of_groupFind hj).1
    · split at h
      · cases h
      · exact ih h

theorem spot_not_found {d : Option ℕ} (hgs : 0 < gs)
    (h : ∀ j, spot gs nr cells q n g d ≠ .found j) (ha : Ahead gs nr cells n g i) :
    (cells i).holds q = false := by
  induction n generalizing g d with
  | zero => exact ha.elim
  | succ n ih =>
    rw [spot] at h
    split at h
    · exact (h _ rfl).elim
    · rename_i hno
      rcases ha with ha | ⟨hn, ha⟩
      · exact groupFind_none_cell hno hgs ha
      · split at h
        · rename_i j hj
          exact (not_noEmpty hj hn).elim
        · exact ih h ha

/-- The tombstone that an insertion has met so far, or the first of the group. -/
theorem of_or_tomb {d : Option ℕ}
    (h : d.or (groupFind gs cells Cell.isTomb g) = some i) :
    d = some i ∨ cells i = .tomb ∧ i / gs = g := by
  cases d with
  | some j => exact .inl h
  | none =>
    obtain ⟨ht, hg⟩ := of_groupFind (show groupFind gs cells Cell.isTomb g = some i from h)
    exact .inr ⟨Cell.isTomb_iff.mp ht, hg⟩

theorem of_spot_vacant {d : Option ℕ} (h : spot gs nr cells q n g d = .vacant i) :
    d = some i ∨ (cells i = .empty ∨ cells i = .tomb) ∧ Ahead gs nr cells n g i := by
  induction n generalizing g d with
  | zero => cases d <;> cases h
  | succ n ih =>
    rw [spot] at h
    split at h
    · cases h
    · split at h
      · rename_i j hj
        obtain ⟨he, hg⟩ := of_groupFind hj
        have hi := Spot.vacant.inj h
        cases hd : d.or (groupFind gs cells Cell.isTomb g) with
        | none =>
          rw [hd] at hi
          obtain rfl : j = i := hi
          exact .inr ⟨.inl (Cell.isEmpty_iff.mp he), .inl hg⟩
        | some k =>
          rw [hd] at hi
          obtain rfl : k = i := hi
          rcases of_or_tomb hd with hd | ⟨ht, hk⟩
          · exact .inl hd
          · exact .inr ⟨.inr ht, .inl hk⟩
      · rename_i hno
        rcases ih h with hd | ⟨hc, ha⟩
        · rcases of_or_tomb hd with hd | ⟨ht, hk⟩
          · exact .inl hd
          · exact .inr ⟨.inr ht, .inl hk⟩
        · exact .inr ⟨hc, .inr ⟨noEmpty_of_groupFind hno, ha⟩⟩

theorem of_spot_reused {d : Option ℕ} (h : spot gs nr cells q n g d = .reused i) :
    d = some i ∨ cells i = .tomb ∧ Ahead gs nr cells n g i := by
  induction n generalizing g d with
  | zero =>
    cases d with
    | none => cases h
    | some j => exact .inl (by rw [Spot.reused.inj h])
  | succ n ih =>
    rw [spot] at h
    split at h
    · cases h
    · split at h
      · cases h
      · rename_i hno
        rcases ih h with hd | ⟨hc, ha⟩
        · rcases of_or_tomb hd with hd | ⟨ht, hk⟩
          · exact .inl hd
          · exact .inr ⟨ht, .inl hk⟩
        · exact .inr ⟨hc, .inr ⟨noEmpty_of_groupFind hno, ha⟩⟩

theorem of_spot_none {d : Option ℕ} (hg : g < nr) (h : spot gs nr cells q n g d = .none) {e : ℕ}
    (he : e < n) : NoEmpty gs cells ((g + e) % nr) := by
  induction n generalizing g d e with
  | zero => omega
  | succ n ih =>
    rw [spot] at h
    split at h
    · cases h
    · split at h
      · cases h
      · rename_i hno
        cases e with
        | zero =>
          rw [Nat.add_zero, Nat.mod_eq_of_lt hg]
          exact noEmpty_of_groupFind hno
        | succ e =>
          have := ih (Nat.mod_lt _ (by omega)) h (Nat.lt_of_succ_lt_succ he)
          rwa [Nat.mod_add_mod, Nat.add_assoc, Nat.add_comm 1] at this

/-- An insertion goes all around: it fails only in a table without an empty cell. -/
theorem spot_ne_none {d : Option ℕ} (hgs : 0 < gs) (hg : g < nr) (hi : i / gs < nr)
    (he : cells i = .empty) : spot gs nr cells q nr g d ≠ .none := by
  intro h
  have hgroup : (g + (i / gs + nr - g) % nr) % nr = i / gs := by
    generalize i / gs = x at hi
    rw [Nat.add_mod_mod, show g + (x + nr - g) = x + nr by omega, Nat.add_mod_right,
      Nat.mod_eq_of_lt hi]
  have hno := of_spot_none hg h (Nat.mod_lt (i / gs + nr - g) (by omega))
  rw [hgroup] at hno
  refine hno (i % gs) (Nat.mod_lt _ hgs) ?_
  rwa [Nat.mul_comm, Nat.div_add_mod]

end probe

section table

variable {α κ : Type} {gs nr : ℕ} {home : α → ℕ} {key : α → κ} {cells : ℕ → Cell α}

def Has (cells : ℕ → Cell α) (a : α) : Prop := ∃ i, cells i = .full a

/-- Every entry is ahead of its home group, and no key stands in two cells. -/
structure Probed (gs nr : ℕ) (home : α → ℕ) (key : α → κ) (cells : ℕ → Cell α) : Prop where
  ahead : ∀ i a, cells i = .full a → Ahead gs nr cells nr (home a) i
  uniq : ∀ i j a b, cells i = .full a → cells j = .full b → key a = key b → i = j

theorem probed_empty : Probed gs nr home key fun _ ↦ (.empty : Cell α) := by
  refine ⟨fun _ _ h ↦ ?_, fun _ _ _ _ h ↦ ?_⟩
  · cases h
  · cases h

theorem of_update {i j : ℕ} {c : Cell α} {a : α} (h : Function.update cells i c j = .full a) :
    j = i ∧ c = .full a ∨ j ≠ i ∧ cells j = .full a := by
  by_cases hj : j = i
  · subst hj
    exact .inl ⟨rfl, by rwa [Function.update_self] at h⟩
  · exact .inr ⟨hj, by rwa [Function.update_of_ne hj] at h⟩

theorem update_not_empty {i : ℕ} {c : Cell α} (hc : c ≠ .empty) (j : ℕ)
    (h : Function.update cells i c j = .empty) : cells j = .empty := by
  by_cases hj : j = i
  · subst hj
    rw [Function.update_self] at h
    exact (hc h).elim
  · rwa [Function.update_of_ne hj] at h

/-- An entry is put into a cell ahead of its home; its key stands nowhere else. -/
theorem Probed.store (h : Probed gs nr home key cells) {i : ℕ} {a : α}
    (ha : Ahead gs nr cells nr (home a) i) (hnew : ∀ j b, cells j = .full b → key b = key a → j = i) :
    Probed gs nr home key (Function.update cells i (.full a)) := by
  have hmono (j : ℕ) : Function.update cells i (.full a) j = .empty → cells j = .empty :=
    update_not_empty (by simp) j
  refine ⟨fun j b hj ↦ ?_, fun j k b c hj hk heq ↦ ?_⟩
  · rcases of_update hj with ⟨rfl, hb⟩ | ⟨-, hj⟩
    · obtain rfl := Cell.full.inj hb
      exact ha.mono hmono
    · exact (h.ahead j b hj).mono hmono
  · rcases of_update hj with ⟨rfl, hb⟩ | ⟨hji, hj⟩
    · obtain rfl := Cell.full.inj hb
      rcases of_update hk with ⟨rfl, -⟩ | ⟨-, hk⟩
      · rfl
      · exact (hnew k c hk heq.symm).symm
    · rcases of_update hk with ⟨hki, hc⟩ | ⟨-, hk⟩
      · obtain rfl := Cell.full.inj hc
        exact (hji (hnew j b hj heq)).elim
      · exact h.uniq j k b c hj hk heq

theorem Probed.bury (h : Probed gs nr home key cells) (i : ℕ) :
    Probed gs nr home key (Function.update cells i .tomb) := by
  have hmono (j : ℕ) : Function.update cells i .tomb j = .empty → cells j = .empty :=
    update_not_empty (by simp) j
  refine ⟨fun j b hj ↦ ?_, fun j k b c hj hk heq ↦ ?_⟩
  · rcases of_update hj with ⟨-, hb⟩ | ⟨-, hj⟩
    · cases hb
    · exact (h.ahead j b hj).mono hmono
  · rcases of_update hj with ⟨-, hb⟩ | ⟨-, hj⟩
    · cases hb
    · rcases of_update hk with ⟨-, hc⟩ | ⟨-, hk⟩
      · cases hc
      · exact h.uniq j k b c hj hk heq

theorem has_store {i : ℕ} {a x : α} (hnew : ∀ j b, cells j = .full b → key b = key a → j = i)
    (hold : ∀ b, cells i = .full b → key b = key a) :
    Has (Function.update cells i (.full a)) x ↔ x = a ∨ key x ≠ key a ∧ Has cells x := by
  constructor
  · rintro ⟨j, hj⟩
    rcases of_update hj with ⟨-, hx⟩ | ⟨hji, hj⟩
    · exact .inl (Cell.full.inj hx).symm
    · exact .inr ⟨fun hk ↦ hji (hnew j x hj hk), j, hj⟩
  · rintro (rfl | ⟨hk, j, hj⟩)
    · exact ⟨i, Function.update_self ..⟩
    · refine ⟨j, ?_⟩
      rwa [Function.update_of_ne]
      rintro rfl
      exact hk (hold x hj)

theorem has_bury (h : Probed gs nr home key cells) {i : ℕ} {a x : α} (ha : cells i = .full a) :
    Has (Function.update cells i .tomb) x ↔ key x ≠ key a ∧ Has cells x := by
  constructor
  · rintro ⟨j, hj⟩
    rcases of_update hj with ⟨-, hx⟩ | ⟨hji, hj⟩
    · cases hx
    · exact ⟨fun hk ↦ hji (h.uniq j i x a hj ha hk), j, hj⟩
  · rintro ⟨hk, j, hj⟩
    refine ⟨j, ?_⟩
    rwa [Function.update_of_ne]
    rintro rfl
    rw [ha] at hj
    exact hk (congrArg key (Cell.full.inj hj).symm)

end table

section census

variable {α : Type} (p : Cell α → Bool)

/-- How many of the first `n` cells satisfy `p`. -/
def census (cells : ℕ → Cell α) (n : ℕ) : ℕ := ((Finset.range n).filter fun i ↦ p (cells i)).card

variable {p} {cells : ℕ → Cell α} {n i : ℕ}

theorem census_update (p : Cell α → Bool) (cells : ℕ → Cell α) (hi : i < n) (c : Cell α) :
    census p (Function.update cells i c) n + (p (cells i)).toNat =
      census p cells n + (p c).toNat := by
  have hsum (f : ℕ → Cell α) : census p f n = ∑ j ∈ Finset.range n, (p (f j)).toNat := by
    rw [census, Finset.card_filter]
    refine Finset.sum_congr rfl fun j _ ↦ ?_
    cases p (f j) <;> rfl
  have hfun : (fun j ↦ (p (Function.update cells i c j)).toNat) =
      Function.update (fun j ↦ (p (cells j)).toNat) i (p c).toNat := by
    funext j
    by_cases hj : j = i
    · subst hj
      rw [Function.update_self, Function.update_self]
    · rw [Function.update_of_ne hj, Function.update_of_ne hj]
  have hmem : i ∈ Finset.range n := Finset.mem_range.mpr hi
  rw [hsum, hsum, hfun, Finset.sum_update_of_mem hmem,
    Finset.sum_eq_add_sum_sdiff_singleton i (fun j ↦ (p (cells j)).toNat) fun h ↦ (h hmem).elim]
  omega

theorem census_split (cells : ℕ → Cell α) (n : ℕ) :
    census Cell.isEmpty cells n + census Cell.isFull cells n + census Cell.isTomb cells n = n := by
  induction n with
  | zero => rfl
  | succ n ih =>
    have hstep (p : Cell α → Bool) :
        census p cells (n + 1) = census p cells n + (p (cells n)).toNat := by
      rw [census, census, Finset.range_add_one, Finset.filter_insert]
      cases p (cells n) with
      | true => simp
      | false => simp
    rw [hstep, hstep, hstep]
    have hone : (cells n).isEmpty.toNat + (cells n).isFull.toNat + (cells n).isTomb.toNat = 1 := by
      cases cells n <;> rfl
    omega

theorem exists_empty (h : census Cell.isFull cells n + census Cell.isTomb cells n < n) :
    ∃ i < n, cells i = .empty := by
  have hsplit := census_split cells n
  have hpos : 0 < census Cell.isEmpty cells n := by omega
  obtain ⟨i, hi⟩ := Finset.card_pos.mp hpos
  obtain ⟨hn, he⟩ := Finset.mem_filter.mp hi
  exact ⟨i, Finset.mem_range.mp hn, Cell.isEmpty_iff.mp he⟩

end census

end Xxfs.Lib.GroupTable

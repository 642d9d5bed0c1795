import Xxfs.Lib.ProbeTable

namespace Xxfs.Lib.ProbeTable

variable {α η : Type}

/-- How far slot `i` lies behind slot `h` in a ring of `c` slots. -/
def dist (c h i : ℕ) : ℕ := (i + c - h) % c

/-- A probe ends at an empty slot or at an entry that satisfies the test. -/
def Stops (p : α → Bool) (slots : ℕ → Option α) (i : ℕ) : Prop :=
  slots i = none ∨ ∃ e, slots i = some e ∧ p e = true

section dist

variable {c h i : ℕ}

theorem dist_eq (hh : h < c) (hi : i < c) : dist c h i = if h ≤ i then i - h else i + c - h := by
  rw [dist]
  split
  · rw [show i + c - h = i - h + c by omega, Nat.add_mod_right, Nat.mod_eq_of_lt (by omega)]
  · exact Nat.mod_eq_of_lt (by omega)

theorem dist_self (hh : h < c) : dist c h h = 0 := by
  rw [dist_eq hh hh, if_pos le_rfl, Nat.sub_self]

theorem dist_inj {j : ℕ} (hh : h < c) (hi : i < c) (hj : j < c) (heq : dist c h i = dist c h j) :
    i = j := by
  rw [dist_eq hh hi, dist_eq hh hj] at heq
  split at heq <;> split at heq <;> omega

theorem dist_succ (hh : h < c) (hi : i < c) (hne : i ≠ h) :
    dist c h i = dist c ((h + 1) % c) i + 1 := by
  have hh' : (h + 1) % c = if h + 1 = c then 0 else h + 1 := by
    split
    · rename_i hc
      rw [hc, Nat.mod_self]
    · exact Nat.mod_eq_of_lt (by omega)
  have hlt : (h + 1) % c < c := Nat.mod_lt _ (by omega)
  rw [dist_eq hh hi, dist_eq hlt hi, hh']
  split <;> split <;> split <;> omega

end dist

section probe

variable {p : α → Bool} {slots : ℕ → Option α} {k n h i : ℕ}

theorem not_stops : ¬Stops p slots i ↔ ∃ e, slots i = some e ∧ p e = false := by
  rw [Stops, not_or]
  constructor
  · rintro ⟨hsome, hno⟩
    obtain ⟨e, he⟩ := Option.ne_none_iff_exists'.mp hsome
    exact ⟨e, he, Bool.eq_false_iff.mpr fun hp ↦ hno ⟨e, he, hp⟩⟩
  · rintro ⟨e, he, hp⟩
    refine ⟨by rw [he]; exact Option.some_ne_none e, ?_⟩
    rintro ⟨e', he', hp'⟩
    obtain rfl := Option.some.inj (he.symm.trans he')
    rw [hp] at hp'
    cases hp'

theorem probe_stop (hs : Stops p slots h) (mask : ℕ) : probe p slots mask (n + 1) h = some h := by
  rcases hs with hs | ⟨e, he, hp⟩
  · exact probe_empty p mask n hs
  · exact probe_hit mask n he hp

theorem probe_pass (hs : ¬Stops p slots h) :
    probe p slots (2 ^ k - 1) (n + 1) h = probe p slots (2 ^ k - 1) n ((h + 1) % 2 ^ k) := by
  obtain ⟨e, he, hp⟩ := not_stops.mp hs
  rw [probe, he]
  dsimp only
  rw [if_neg (by rw [hp]; exact Bool.false_ne_true), Nat.and_two_pow_sub_one_eq_mod]

/-- A probe finds the closest slot behind its start that stops it, if it gets that far. -/
theorem probe_eq_some_iff (hh : h < 2 ^ k) (hn : n ≤ 2 ^ k) :
    probe p slots (2 ^ k - 1) n h = some i ↔ i < 2 ^ k ∧ dist (2 ^ k) h i < n ∧ Stops p slots i ∧
      ∀ j < 2 ^ k, dist (2 ^ k) h j < dist (2 ^ k) h i → ¬Stops p slots j := by
  induction n generalizing h with
  | zero =>
    rw [probe]
    exact ⟨fun h ↦ (by cases h), fun h ↦ absurd h.2.1 (Nat.not_lt_zero _)⟩
  | succ n ih =>
    by_cases hs : Stops p slots h
    · rw [probe_stop hs]
      constructor
      · intro heq
        obtain rfl := Option.some.inj heq
        refine ⟨hh, ?_, hs, fun j _ hj ↦ ?_⟩
        · rw [dist_self hh]
          exact n.succ_pos
        · rw [dist_self hh] at hj
          exact (Nat.not_lt_zero _ hj).elim
      · rintro ⟨hi, -, -, hclose⟩
        by_contra hne
        have hih : i ≠ h := fun heq ↦ hne (congrArg some heq.symm)
        refine hclose h hh ?_ hs
        rw [dist_self hh, dist_succ hh hi hih]
        exact Nat.succ_pos _
    · have hlt : (h + 1) % 2 ^ k < 2 ^ k := Nat.mod_lt _ (Nat.two_pow_pos k)
      rw [probe_pass hs, ih hlt (Nat.le_of_succ_le hn)]
      constructor
      · rintro ⟨hi, hin, hstop, hclose⟩
        have hih : i ≠ h := by
          rintro rfl
          exact hs hstop
        have hd := dist_succ hh hi hih
        refine ⟨hi, by omega, hstop, fun j hj hji ↦ ?_⟩
        by_cases hjh : j = h
        · exact hjh ▸ hs
        · have := dist_succ hh hj hjh
          exact hclose j hj (by omega)
      · rintro ⟨hi, hin, hstop, hclose⟩
        have hih : i ≠ h := by
          rintro rfl
          exact hs hstop
        have hd := dist_succ hh hi hih
        refine ⟨hi, by omega, hstop, fun j hj hji ↦ ?_⟩
        by_cases hjh : j = h
        · exact hjh ▸ hs
        · have := dist_succ hh hj hjh
          exact hclose j hj (by omega)

theorem of_probeUsed {mask : ℕ} (hp : probeUsed slots mask n h = some i) :
    ∃ e, slots i = some e := by
  induction n generalizing h with
  | zero => cases hp
  | succ n ih =>
    rw [probeUsed] at hp
    cases hs : slots h with
    | none =>
      rw [hs] at hp
      exact ih hp
    | some e =>
      rw [hs] at hp
      obtain rfl := Option.some.inj hp
      exact ⟨e, hs⟩

end probe

/-- No slot between the home of an entry and its place is empty. -/
def NoGaps (home : α → ℕ) (c : ℕ) (slots : ℕ → Option α) : Prop :=
  ∀ i e, slots i = some e → ∀ j < c, dist c (home e) j < dist c (home e) i → slots j ≠ none

section gaps

variable {home : α → ℕ} {c i : ℕ} {slots : ℕ → Option α} {e : α}

/-- An entry that goes to the closest empty slot behind its home leaves no gap. -/
theorem NoGaps.add (h : NoGaps home c slots) (hempty : slots i = none)
    (hclose : ∀ j < c, dist c (home e) j < dist c (home e) i → slots j ≠ none) :
    NoGaps home c (store slots i (some e)) := by
  have hkeep {j : ℕ} (hj : slots j ≠ none) : store slots i (some e) j ≠ none := by
    rw [store_ne fun hji ↦ hj (by rw [hji, hempty])]
    exact hj
  intro j x hx l hl hd
  rcases of_store hx with ⟨rfl, hxe⟩ | ⟨-, hx⟩
  · obtain rfl := Option.some.inj hxe
    exact hkeep (hclose l hl hd)
  · exact hkeep (h j x hx l hl hd)

end gaps

/-- The invariant of linear probing: no slot between the home of an entry and its place is empty,
and no key has two entries. -/
structure Probing (key : α → η) (home : η → ℕ) (c : ℕ) (slots : ℕ → Option α) : Prop where
  lt : ∀ i e, slots i = some e → i < c
  run : ∀ i e, slots i = some e →
    ∀ j < c, dist c (home (key e)) j < dist c (home (key e)) i → slots j ≠ none
  uniq : ∀ i j e e', slots i = some e → slots j = some e' → key e = key e' → i = j

section probing

variable {key : α → η} {home : η → ℕ} {k : ℕ} {slots : ℕ → Option α} {i n : ℕ} {e : α} {x : η}

theorem Probing.empty (key : α → η) (home : η → ℕ) (c : ℕ) : Probing key home c fun _ ↦ none :=
  ⟨fun _ _ h ↦ (by cases h), fun _ _ h ↦ (by cases h), fun _ _ _ _ h ↦ (by cases h)⟩

/-- An entry whose key is new goes to the closest empty slot behind its home. -/
theorem Probing.add (h : Probing key home (2 ^ k) slots) (hi : i < 2 ^ k)
    (hempty : slots i = none)
    (hclose : ∀ j < 2 ^ k, dist (2 ^ k) (home (key e)) j < dist (2 ^ k) (home (key e)) i →
      slots j ≠ none) (hnew : ∀ j e', slots j = some e' → key e' ≠ key e) :
    Probing key home (2 ^ k) (store slots i (some e)) := by
  have hgaps : NoGaps (fun x ↦ home (key x)) (2 ^ k) slots := h.run
  refine ⟨fun j x hx ↦ ?_, hgaps.add hempty hclose, fun j l x y hx hy hxy ↦ ?_⟩
  · rcases of_store hx with ⟨rfl, -⟩ | ⟨-, hx⟩
    · exact hi
    · exact h.lt j x hx
  · rcases of_store hx with ⟨rfl, hxe⟩ | ⟨-, hxs⟩
    · rcases of_store hy with ⟨rfl, -⟩ | ⟨-, hys⟩
      · rfl
      · obtain rfl := Option.some.inj hxe
        exact (hnew l y hys hxy.symm).elim
    · rcases of_store hy with ⟨rfl, hye⟩ | ⟨-, hys⟩
      · obtain rfl := Option.some.inj hye
        exact (hnew j x hxs hxy).elim
      · exact h.uniq j l x y hxs hys hxy

theorem Probing.replace (h : Probing key home (2 ^ k) slots) {e' : α} (hi : slots i = some e)
    (hkey : key e' = key e) : Probing key home (2 ^ k) (store slots i (some e')) := by
  have hold {j : ℕ} {x : α} (hx : store slots i (some e') j = some x) :
      ∃ y, slots j = some y ∧ key y = key x := by
    rcases of_store hx with ⟨rfl, hxe⟩ | ⟨-, hx⟩
    · exact ⟨e, hi, by rw [← Option.some.inj hxe, hkey]⟩
    · exact ⟨x, hx, rfl⟩
  refine ⟨fun j x hx ↦ ?_, fun j x hx l hl hd ↦ ?_, fun j l x y hx hy hxy ↦ ?_⟩
  · obtain ⟨y, hy, -⟩ := hold hx
    exact h.lt j y hy
  · obtain ⟨y, hy, hxy⟩ := hold hx
    by_cases hli : l = i
    · rw [hli, store_eq]
      exact Option.some_ne_none e'
    · rw [store_ne hli]
      exact h.run j y hy l hl (by rw [hxy]; exact hd)
  · obtain ⟨x', hx', hkx⟩ := hold hx
    obtain ⟨y', hy', hky⟩ := hold hy
    exact h.uniq j l x' y' hx' hy' (by rw [hkx, hky, hxy])

theorem Probing.drop (h : Probing key home (2 ^ k) slots)
    (hclear : ∀ j e, slots j = some e →
      ¬dist (2 ^ k) (home (key e)) i < dist (2 ^ k) (home (key e)) j) :
    Probing key home (2 ^ k) (store slots i none) := by
  have hold {j : ℕ} {x : α} (hx : store slots i none j = some x) : slots j = some x := by
    rcases of_store hx with ⟨-, hx⟩ | ⟨-, hx⟩
    · cases hx
    · exact hx
  refine ⟨fun j x hx ↦ h.lt j x (hold hx), fun j x hx l hl hd ↦ ?_, fun j l x y hx hy ↦
    h.uniq j l x y (hold hx) (hold hy)⟩
  rw [store_ne]
  · exact h.run j x (hold hx) l hl hd
  · rintro rfl
    exact hclear j x (hold hx) hd

variable [DecidableEq η]

/-- The probe for the key of an entry ends at the entry if it gets as far. -/
theorem Probing.probe_iff (h : Probing key home (2 ^ k) slots) (hhome : ∀ x, home x < 2 ^ k)
    (hn : n ≤ 2 ^ k) (hi : slots i = some e) :
    probe (fun e' ↦ key e' == key e) slots (2 ^ k - 1) n (home (key e)) = some i ↔
      dist (2 ^ k) (home (key e)) i < n := by
  rw [probe_eq_some_iff (hhome _) hn]
  refine ⟨fun hp ↦ hp.2.1, fun hd ↦ ⟨h.lt i e hi, hd, .inr ⟨e, hi, beq_self_eq_true _⟩, ?_⟩⟩
  rintro j hj hji (hs | ⟨e', he', hkey⟩)
  · exact h.run i e hi j hj hji hs
  · obtain rfl := h.uniq j i e' e he' hi (beq_iff_eq.mp hkey)
    exact lt_irrefl _ hji

/-- A key that the probe for it does not meet before an empty slot has no entry. -/
theorem Probing.no_entry (h : Probing key home (2 ^ k) slots) (hhome : ∀ x, home x < 2 ^ k)
    (hn : n ≤ 2 ^ k)
    (hp : probe (fun e' ↦ key e' == x) slots (2 ^ k - 1) n (home x) = some i)
    (hempty : slots i = none) (j : ℕ) (e' : α) (he' : slots j = some e') : key e' ≠ x := by
  rintro rfl
  obtain ⟨hi, -, -, hclose⟩ := (probe_eq_some_iff (hhome _) hn).mp hp
  have hstop : Stops (fun e ↦ key e == key e') slots j := .inr ⟨e', he', beq_self_eq_true _⟩
  have hj := h.lt j e' he'
  rcases lt_trichotomy (dist (2 ^ k) (home (key e')) j) (dist (2 ^ k) (home (key e')) i) with
    hlt | heq | hlt
  · exact hclose j hj hlt hstop
  · obtain rfl := dist_inj (hhome _) hj hi heq
    rw [hempty] at he'
    cases he'
  · exact h.run j e' he' i hi hlt hempty

theorem Probing.put (h : Probing key home (2 ^ k) slots) (hhome : ∀ x, home x < 2 ^ k)
    (hn : n ≤ 2 ^ k)
    (hp : probe (fun e' ↦ key e' == key e) slots (2 ^ k - 1) n (home (key e)) = some i) :
    Probing key home (2 ^ k) (store slots i (some e)) := by
  obtain ⟨hi, -, hstop, hclose⟩ := (probe_eq_some_iff (hhome _) hn).mp hp
  rcases hstop with hempty | ⟨e₀, he₀, hkey⟩
  · refine h.add hi hempty (fun j hj hd ↦ ?_) (h.no_entry hhome hn hp hempty)
    exact fun hnone ↦ hclose j hj hd (.inl hnone)
  · exact h.replace he₀ (beq_iff_eq.mp hkey).symm

omit [DecidableEq η] in
theorem probing_rehash {c : ℕ} (hhome : ∀ x, home x < 2 ^ k)
    (huniq : ∀ i j e e', slots i = some e → slots j = some e' → key e = key e' → i = j) :
    Probing key home (2 ^ k) (rehash (fun e ↦ home (key e)) c (2 ^ k) slots) := by
  induction c with
  | zero => exact .empty key home _
  | succ n ih =>
    cases hs : slots n with
    | none =>
      rw [rehash_none hs]
      exact ih
    | some e =>
      rw [rehash_some hs, place]
      have hmem {i : ℕ} {x : α}
          (h : rehash (fun e ↦ home (key e)) n (2 ^ k) slots i = some x) := of_rehash h
      generalize rehash (fun e ↦ home (key e)) n (2 ^ k) slots = old at *
      cases hp : probe (fun _ ↦ false) old (2 ^ k - 1) (2 ^ k) (home (key e)) with
      | none => exact ih
      | some i =>
        obtain ⟨hi, -, hstop, hclose⟩ := (probe_eq_some_iff (hhome _) le_rfl).mp hp
        have hempty : old i = none := by
          rcases hstop with hempty | ⟨_, -, hf⟩
          · exact hempty
          · cases hf
        refine ih.add hi hempty (fun j hj hd hnone ↦ hclose j hj hd (.inl hnone))
          fun j e' he' hkey ↦ ?_
        obtain ⟨l, hl, hsl⟩ := hmem he'
        have := huniq l n e' e hsl hs hkey
        omega

end probing

end Xxfs.Lib.ProbeTable

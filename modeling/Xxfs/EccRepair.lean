import Xxfs.Seal

namespace Xxfs.EccRepair

open Xxfs.Lib.LittleEndian Xxfs.DiskFormat Xxfs.Checksum

/-- The ECC byte stored for word `i` against the one that the word gives. -/
def syndrome (f : ℕ → UInt8) (eccAt i : ℕ) : UInt8 := f (eccAt + i) ^^^ eccWord f (8 * i)

def bitPos (s : UInt8) : ℕ := (s &&& 0x7F).toNat

/-- A syndrome that `xxfs_os_ecc_correct` takes for the number of a bit. -/
def Locates (s : UInt8) : Prop := s &&& 0x80 ≠ 0 ∧ bitPos s ≠ 0 ∧ bitPos s ≤ 64

instance (s : UInt8) : Decidable (Locates s) := inferInstanceAs (Decidable (_ ∧ _ ∧ _))

theorem Locates.ne_zero {s : UInt8} (h : Locates s) : s ≠ 0 := by
  rintro rfl
  exact h.1 (by decide)

/-- The memory with the bits flipped that the syndromes of the first `k` words name. -/
def flips (f : ℕ → UInt8) (eccAt k : ℕ) : ℕ → UInt8 := fun a ↦
  let s := syndrome f eccAt (a / 8)
  if a / 8 < k ∧ s ≠ 0 ∧ (bitPos s - 1) / 8 = a % 8 then
    f a ^^^ UInt8.ofNat (2 ^ ((bitPos s - 1) % 8))
  else f a

def Passes (f : ℕ → UInt8) (eccAt k : ℕ) : Prop :=
  ∀ j < k, syndrome f eccAt j = 0 ∨ Locates (syndrome f eccAt j)

section loop

variable {f : ℕ → UInt8} {eccAt k : ℕ}

@[simp] theorem flips_zero : flips f eccAt 0 = f := by
  funext a
  unfold flips
  exact if_neg fun h ↦ Nat.not_lt_zero _ h.1

theorem flips_beyond {a : ℕ} (h : 8 * k ≤ a) : flips f eccAt k a = f a :=
  if_neg fun hc ↦ absurd hc.1 (by omega)

theorem flips_clear (h : syndrome f eccAt k = 0) : flips f eccAt (k + 1) = flips f eccAt k := by
  funext a
  unfold flips
  dsimp only
  refine if_congr ⟨fun ⟨hlt, hs, hb⟩ ↦ ⟨?_, hs, hb⟩, fun ⟨hlt, hs, hb⟩ ↦ ⟨by omega, hs, hb⟩⟩ rfl rfl
  have hne : a / 8 ≠ k := fun hk ↦ hs (hk ▸ h)
  omega

theorem flips_located (h : Locates (syndrome f eccAt k)) : flips f eccAt (k + 1) =
    flipBit (flips f eccAt k) (8 * k) (bitPos (syndrome f eccAt k) - 1) := by
  have hne := h.ne_zero
  obtain ⟨-, hpos, hmax⟩ := h
  funext a
  rw [flipBit]
  by_cases hk : a / 8 = k
  · have hold : flips f eccAt k a = f a := flips_beyond (by omega)
    rw [hold]
    unfold flips
    dsimp only
    rw [hk]
    exact if_congr ⟨fun hc ↦ by omega, fun hc ↦ ⟨by omega, hne, by omega⟩⟩ rfl rfl
  · rw [if_neg (by omega)]
    unfold flips
    dsimp only
    exact if_congr ⟨fun hc ↦ ⟨by omega, hc.2⟩, fun hc ↦ ⟨by omega, hc.2⟩⟩ rfl rfl

end loop

section correct

variable {f : ℕ → UInt8} {eccAt : ℕ}

theorem eccFix_step {n i : ℕ} (c : Bool) (hat : 8 * i ≤ eccAt) :
    eccFix (fun i ↦ eccWord f (8 * i)) eccAt (n + 1) i c (flips f eccAt i) =
      if syndrome f eccAt i = 0 then
        eccFix (fun i ↦ eccWord f (8 * i)) eccAt n (i + 1) c (flips f eccAt (i + 1))
      else if Locates (syndrome f eccAt i) then
        eccFix (fun i ↦ eccWord f (8 * i)) eccAt n (i + 1) true (flips f eccAt (i + 1))
      else (.uncorrectable, flips f eccAt i) := by
  have hs : flips f eccAt i (eccAt + i) ^^^ eccWord f (8 * i) = syndrome f eccAt i := by
    rw [flips_beyond (by omega), syndrome]
  rw [eccFix]
  dsimp only
  rw [hs]
  by_cases h0 : syndrome f eccAt i = 0
  · rw [if_pos h0, if_pos h0, flips_clear h0]
  rw [if_neg h0, if_neg h0]
  by_cases hl : Locates (syndrome f eccAt i)
  · rw [if_pos hl, flips_located hl, if_pos hl.1]
    exact if_neg (by have := hl.2; unfold bitPos at this; omega)
  · rw [if_neg hl]
    by_cases htop : syndrome f eccAt i &&& 0x80 = 0
    · exact if_neg (not_not.mpr htop)
    · rw [if_pos htop]
      refine if_pos ?_
      by_contra hc
      exact hl ⟨htop, by unfold bitPos; omega, by unfold bitPos; omega⟩

theorem eccFix_passes {n i : ℕ} {c : Bool} (hat : 8 * (i + n) ≤ eccAt + 8)
    (hp : ∀ j, i ≤ j → j < i + n → syndrome f eccAt j = 0 ∨ Locates (syndrome f eccAt j)) :
    ∃ r, eccFix (fun i ↦ eccWord f (8 * i)) eccAt n i c (flips f eccAt i) =
      (r, flips f eccAt (i + n)) ∧ r ≠ .uncorrectable ∧
      (r = .corrected ↔ c = true ∨ ∃ j, i ≤ j ∧ j < i + n ∧ syndrome f eccAt j ≠ 0) := by
  induction n generalizing i c with
  | zero =>
    refine ⟨_, rfl, ?_, ?_⟩
    · split <;> simp
    · have hnone : ¬ ∃ j, i ≤ j ∧ j < i + 0 ∧ syndrome f eccAt j ≠ 0 :=
        fun ⟨j, h₁, h₂, _⟩ ↦ by omega
      rw [or_iff_left hnone]
      cases c <;> simp
  | succ n ih =>
    rw [eccFix_step c (by omega)]
    by_cases h0 : syndrome f eccAt i = 0
    · obtain ⟨r, hr, hne, hiff⟩ := ih (i := i + 1) (c := c) (by omega)
        fun j hj hj' ↦ hp j (by omega) (by omega)
      refine ⟨r, ?_, hne, hiff.trans ?_⟩
      · rw [if_pos h0, hr, Nat.add_right_comm, Nat.add_assoc]
      · refine or_congr_right ⟨?_, ?_⟩
        · rintro ⟨j, hj, hj', hs⟩
          exact ⟨j, by omega, by omega, hs⟩
        · rintro ⟨j, hj, hj', hs⟩
          have hne : j ≠ i := fun hji ↦ hs (hji ▸ h0)
          exact ⟨j, by omega, by omega, hs⟩
    · have hl := (hp i le_rfl (by omega)).resolve_left h0
      obtain ⟨r, hr, hne, hiff⟩ := ih (i := i + 1) (c := true) (by omega)
        fun j hj hj' ↦ hp j (by omega) (by omega)
      refine ⟨r, ?_, hne, ?_⟩
      · rw [if_neg h0, if_pos hl, hr, Nat.add_right_comm, Nat.add_assoc]
      · exact ⟨fun _ ↦ .inr ⟨i, le_rfl, by omega, h0⟩, fun _ ↦ hiff.mpr (.inl rfl)⟩

theorem eccFix_stops {n i k : ℕ} {c : Bool} (hik : i ≤ k) (hk : k < i + n) (hat : 8 * k ≤ eccAt)
    (hp : ∀ j, i ≤ j → j < k → syndrome f eccAt j = 0 ∨ Locates (syndrome f eccAt j))
    (h0 : syndrome f eccAt k ≠ 0) (hl : ¬ Locates (syndrome f eccAt k)) :
    eccFix (fun i ↦ eccWord f (8 * i)) eccAt n i c (flips f eccAt i) =
      (.uncorrectable, flips f eccAt k) := by
  induction n generalizing i c with
  | zero => omega
  | succ n ih =>
    rw [eccFix_step c (by omega)]
    rcases Nat.lt_or_ge i k with hlt | hge
    · have hrest (c : Bool) := ih (i := i + 1) (c := c) hlt (by omega)
        fun j hj hj' ↦ hp j (by omega) hj'
      rcases hp i le_rfl hlt with hs | hs
      · rw [if_pos hs, hrest]
      · rw [if_neg hs.ne_zero, if_pos hs, hrest]
    · obtain rfl : i = k := by omega
      rw [if_neg h0, if_neg hl]

theorem passes_or_stops (f : ℕ → UInt8) (eccAt n : ℕ) : Passes f eccAt n ∨
    ∃ k < n, Passes f eccAt k ∧ syndrome f eccAt k ≠ 0 ∧ ¬ Locates (syndrome f eccAt k) := by
  induction n with
  | zero => exact .inl fun j hj ↦ absurd hj (Nat.not_lt_zero j)
  | succ n ih =>
    rcases ih with hp | ⟨k, hk, hbad⟩
    · by_cases hn : syndrome f eccAt n = 0 ∨ Locates (syndrome f eccAt n)
      · refine .inl fun j hj ↦ ?_
        rcases Nat.lt_succ_iff_lt_or_eq.mp hj with hj | rfl
        · exact hp j hj
        · exact hn
      · exact .inr ⟨n, Nat.lt_succ_self n, hp, fun h ↦ hn (.inl h), fun h ↦ hn (.inr h)⟩
    · exact .inr ⟨k, by omega, hbad⟩

variable {len : ℕ} (hat : 8 * nwords len ≤ eccAt + 8)
include hat

theorem eccCorrect_passes (hp : Passes f eccAt (nwords len)) :
    ∃ r, eccCorrect f len eccAt = (r, flips f eccAt (nwords len)) ∧ r ≠ .uncorrectable ∧
      (r = .corrected ↔ ∃ j < nwords len, syndrome f eccAt j ≠ 0) := by
  obtain ⟨r, hr, hne, hiff⟩ := eccFix_passes (f := f) (i := 0) (c := false)
    (by rwa [Nat.zero_add]) fun j _ hj ↦ hp j (by omega)
  rw [flips_zero, Nat.zero_add] at hr
  refine ⟨r, hr, hne, hiff.trans ?_⟩
  simp

theorem eccCorrect_stops {k : ℕ} (hk : k < nwords len) (hp : Passes f eccAt k)
    (h0 : syndrome f eccAt k ≠ 0) (hl : ¬ Locates (syndrome f eccAt k)) :
    eccCorrect f len eccAt = (.uncorrectable, flips f eccAt k) := by
  have hr := eccFix_stops (f := f) (i := 0) (c := false) (Nat.zero_le k) (by rwa [Nat.zero_add])
    (by omega) (fun j _ hj ↦ hp j hj) h0 hl
  rwa [flips_zero] at hr

end correct

section bytes

theorem forall_byte {p : UInt8 → Prop} (h : ∀ i : Fin 256, p (UInt8.ofFin i)) (x : UInt8) : p x :=
  h x.toFin

theorem or_and (a b m : UInt8) : (a ||| b) &&& m = a &&& m ||| b &&& m := by
  refine UInt8.eq_of_toBitVec_eq ?_
  simp only [UInt8.toBitVec_and, UInt8.toBitVec_or]
  exact BitVec.and_or_distrib_right

theorem xor_and (a b m : UInt8) : (a ^^^ b) &&& m = (a &&& m) ^^^ (b &&& m) := by
  refine UInt8.eq_of_toBitVec_eq (BitVec.eq_of_getElem_eq fun i hi ↦ ?_)
  simp [Bool.and_xor_distrib_right]

variable (x d : UInt8) (p : Bool)

/-- The parity bit, merged in by an or, does not show in the low seven bits. -/
theorem bitPos_merged : bitPos ((x ||| if p then 0x80 else 0) ^^^
    ((x ^^^ d) ||| if !p then 0x80 else 0)) = bitPos d := by
  have hmask (q : Bool) : (if q then 0x80 else 0 : UInt8) &&& 0x7F = 0 := by
    cases q <;> decide
  rw [bitPos, xor_and, or_and, or_and, hmask, hmask, UInt8.or_zero, UInt8.or_zero, xor_and,
    ← UInt8.xor_assoc, UInt8.xor_self, UInt8.zero_xor, bitPos]

theorem top_merged : ((x ||| if p then 0x80 else 0) ^^^ ((x ^^^ d) ||| if !p then 0x80 else 0)) &&&
    0x80 ≠ 0 ↔ if d &&& 0x80 = 0 then x &&& 0x80 = 0 else (x &&& 0x80 ≠ 0 ↔ p = true) := by
  have h : ∀ x : UInt8, x &&& 0x80 = 0 ∨ x &&& 0x80 = 0x80 := forall_byte (by decide +kernel)
  rw [xor_and, or_and, or_and, xor_and]
  rcases h x with hx | hx <;> rcases h d with hd | hd <;> cases p <;> rw [hx, hd] <;> decide

theorem testBit_flip {t u : ℕ} (ht : t < 8) : (x ^^^ UInt8.ofNat (2 ^ t)).toNat.testBit u =
    (x.toNat.testBit u ^^ decide (t = u)) := by
  have hlt : 2 ^ t < 2 ^ 8 := Nat.pow_lt_pow_right (by omega) ht
  rw [UInt8.toNat_xor, UInt8.toNat_ofNat', Nat.mod_eq_of_lt hlt, Nat.testBit_xor,
    Nat.testBit_two_pow]

/-- Two bits flipped one after the other cancel out only if they are the same. -/
theorem flip_flip {t u : ℕ} (ht : t < 8) (hu : u < 8) :
    x ^^^ UInt8.ofNat (2 ^ t) ^^^ UInt8.ofNat (2 ^ u) = x ↔ u = t := by
  refine ⟨fun h ↦ ?_, fun h ↦ ?_⟩
  · have hbit := congrArg (fun y ↦ y.toNat.testBit u) h
    simp only [testBit_flip _ hu, testBit_flip _ ht, decide_true, Bool.xor_true] at hbit
    by_contra hne
    simp [Ne.symm hne] at hbit
  · rw [h, UInt8.xor_assoc, UInt8.xor_self, UInt8.xor_zero]

theorem flip_ne {t : ℕ} (ht : t < 8) : x ^^^ UInt8.ofNat (2 ^ t) ≠ x := by
  intro h
  have hbit := congrArg (fun y ↦ y.toNat.testBit t) h
  simp only [testBit_flip _ ht, decide_true, Bool.xor_true, Bool.not_eq_self] at hbit

end bytes

section fold

variable {β : Type} (op : β → β → β) [Std.Associative op] [Std.Commutative op]

theorem foldl_start (g : ℕ → β) (l : List ℕ) (a d : β) :
    l.foldl (fun e j ↦ op e (g j)) (op a d) = op (l.foldl (fun e j ↦ op e (g j)) a) d := by
  induction l generalizing a with
  | nil => rfl
  | cons j l ih =>
    rw [List.foldl_cons, List.foldl_cons, ← ih]
    congr 1
    have hassoc : ∀ x y z, op (op x y) z = op x (op y z) := Std.Associative.assoc
    have hcomm : ∀ x y, op x y = op y x := Std.Commutative.comm
    rw [hassoc, hassoc, hcomm d]

theorem foldl_change {g g' : ℕ → β} {d : β} {k : ℕ} {l : List ℕ} (hl : l.Nodup) (hk : k ∈ l)
    (hat : g' k = op (g k) d) (hne : ∀ j ∈ l, j ≠ k → g' j = g j) (a : β) :
    l.foldl (fun e j ↦ op e (g' j)) a = op (l.foldl (fun e j ↦ op e (g j)) a) d := by
  induction l generalizing a with
  | nil => exact absurd hk List.not_mem_nil
  | cons j l ih =>
    obtain ⟨hj, hl⟩ := List.nodup_cons.mp hl
    rw [List.foldl_cons, List.foldl_cons]
    by_cases hjk : j = k
    · subst hjk
      have hrest := List.foldl_ext (fun e j ↦ op e (g' j)) (fun e j ↦ op e (g j)) (op a (g' j))
        (l := l) fun e i hi ↦ by rw [hne i (List.mem_cons_of_mem _ hi) fun h ↦ hj (h ▸ hi)]
      have hassoc : ∀ x y z, op (op x y) z = op x (op y z) := Std.Associative.assoc
      rw [hrest, hat, ← hassoc, foldl_start]
    · rw [hne j List.mem_cons_self hjk]
      exact ih hl ((List.mem_cons.mp hk).resolve_left (Ne.symm hjk))
        (fun i hi ↦ hne i (List.mem_cons_of_mem _ hi)) _

end fold

section word

/-- The exclusive or of the table entries of the eight bytes of word `i`. -/
def tableXor (f : ℕ → UInt8) (i : ℕ) : UInt8 :=
  (List.range 8).foldl (fun e j ↦ e ^^^ hamming (f (8 * i + j))) 0

/-- What the flip of bit `t` of byte `x` changes the table entry by. -/
def entryChange (x : UInt8) (t : ℕ) : UInt8 := hamming x ^^^ hamming (x ^^^ UInt8.ofNat (2 ^ t))

/-- The table gives the flip of bit `b` of word `i` the number `b + 1`, and the parity bit shows
under the top bits of the table entries. -/
def Mends (f : ℕ → UInt8) (i b : ℕ) : Prop :=
  bitPos (entryChange (f (8 * i + b / 8)) (b % 8)) = b + 1 ∧
    if entryChange (f (8 * i + b / 8)) (b % 8) &&& 0x80 = 0 then tableXor f i &&& 0x80 = 0
    else (tableXor f i &&& 0x80 ≠ 0 ↔ parity f (8 * i) = true)

/-- Word `i` of `g` is the one of `f` with bit `b` flipped. -/
def Flipped (f g : ℕ → UInt8) (i b : ℕ) : Prop :=
  ∀ j < 8, g (8 * i + j) = flipBit f (8 * i) b (8 * i + j)

variable {f g : ℕ → UInt8} {i b : ℕ}

theorem Flipped.at (h : Flipped f g i b) (hb : b < 64) :
    g (8 * i + b / 8) = f (8 * i + b / 8) ^^^ UInt8.ofNat (2 ^ (b % 8)) :=
  (h _ (by omega)).trans (if_pos rfl)

theorem Flipped.off (h : Flipped f g i b) {j : ℕ} (hj : j < 8) (hne : j ≠ b / 8) :
    g (8 * i + j) = f (8 * i + j) :=
  (h j hj).trans (if_neg (by omega))

theorem Flipped.unique {c : ℕ} (h : Flipped f g i b) (h' : Flipped f g i c) (hb : b < 64)
    (hc : c < 64) : b = c := by
  have hbyte := h.at hb
  by_cases hbc : b / 8 = c / 8
  · rw [hbc, h'.at hc] at hbyte
    have hback : f (8 * i + c / 8) ^^^ UInt8.ofNat (2 ^ (b % 8)) ^^^ UInt8.ofNat (2 ^ (c % 8)) =
        f (8 * i + c / 8) := by
      rw [← hbyte, UInt8.xor_assoc, UInt8.xor_self, UInt8.xor_zero]
    have := (flip_flip _ (by omega) (by omega)).mp hback
    omega
  · rw [h'.off (by omega) hbc] at hbyte
    exact absurd hbyte.symm (flip_ne _ (by omega))

theorem Flipped.tableXor_eq (h : Flipped f g i b) (hb : b < 64) :
    tableXor g i = tableXor f i ^^^ entryChange (f (8 * i + b / 8)) (b % 8) := by
  refine foldl_change (· ^^^ ·) (k := b / 8) List.nodup_range (List.mem_range.mpr (by omega)) ?_
    (fun j hj hne ↦ by rw [h.off (List.mem_range.mp hj) hne]) 0
  rw [h.at hb, entryChange, ← UInt8.xor_assoc, UInt8.xor_self, UInt8.zero_xor]

theorem Flipped.parity_eq (h : Flipped f g i b) (hb : b < 64) :
    parity g (8 * i) = !parity f (8 * i) := by
  have : Std.Commutative fun x y : Bool ↦ x != y := ⟨fun x y ↦ Bool.xor_comm x y⟩
  rw [← Bool.xor_true (parity f (8 * i))]
  refine foldl_change (fun x y : Bool ↦ x != y) (k := b) List.nodup_range (List.mem_range.mpr hb) ?_
    (fun k hk hne ↦ ?_) false
  · rw [h.at hb, testBit_flip _ (by omega), decide_eq_true rfl]
  · by_cases hkb : k / 8 = b / 8
    · rw [hkb, h.at hb, testBit_flip _ (by omega), decide_eq_false (by omega), Bool.xor_false]
    · rw [h.off (by have := List.mem_range.mp hk; omega) hkb]

/-- The syndrome of a flipped bit is the right one exactly when the word mends. -/
theorem Flipped.mends_iff (h : Flipped f g i b) (hb : b < 64) :
    Mends f i b ↔ Locates (eccWord f (8 * i) ^^^ eccWord g (8 * i)) ∧
      bitPos (eccWord f (8 * i) ^^^ eccWord g (8 * i)) = b + 1 := by
  have hf : eccWord f (8 * i) = tableXor f i ||| if parity f (8 * i) then 0x80 else 0 := rfl
  have hg : eccWord g (8 * i) = tableXor g i ||| if parity g (8 * i) then 0x80 else 0 := rfl
  rw [hf, hg, h.tableXor_eq hb, h.parity_eq hb, Locates, top_merged, bitPos_merged, Mends]
  exact ⟨fun ⟨hpos, htop⟩ ↦ ⟨⟨htop, by omega, by omega⟩, hpos⟩, fun h ↦ ⟨h.2, h.1.1⟩⟩

end word

section buffer

/-- `xxfs_os_ecc_compute` into a buffer of its own. -/
def eccCompute (f : ℕ → UInt8) (len : ℕ) : List UInt8 :=
  (List.range (nwords len)).map fun i ↦ eccWord f (8 * i)

/-- `g` differs from `f` by exactly one bit in each of one or more of the first `n` words. -/
def Damaged (f g : ℕ → UInt8) (n : ℕ) : Prop :=
  (∃ i < n, ∃ b < 64, Flipped f g i b) ∧
    ∀ i < n, (∃ b < 64, Flipped f g i b) ∨ ∀ j < 8, g (8 * i + j) = f (8 * i + j)

/-- The damaged buffer together with the ECC bytes of the original one, behind it. -/
structure Beside (f g : ℕ → UInt8) (n eccAt : ℕ) : Prop where
  behind : 8 * n ≤ eccAt
  stored : ∀ i < n, g (eccAt + i) = bytesAt (eccCompute f (8 * n)) i

variable {f g : ℕ → UInt8} {n eccAt : ℕ}

theorem nwords_mul (n : ℕ) : nwords (8 * n) = n := by
  unfold nwords
  omega

theorem Beside.syndrome_eq (h : Beside f g n eccAt) {i : ℕ} (hi : i < n) :
    syndrome g eccAt i = eccWord f (8 * i) ^^^ eccWord g (8 * i) := by
  rw [syndrome, h.stored i hi, eccCompute, nwords_mul]
  simp [bytesAt, hi]

theorem Beside.syndrome_same (h : Beside f g n eccAt) {i : ℕ} (hi : i < n)
    (hs : ∀ j < 8, g (8 * i + j) = f (8 * i + j)) : syndrome g eccAt i = 0 := by
  rw [h.syndrome_eq hi, eccWord_congr hs, UInt8.xor_self]

theorem Beside.mends_iff (h : Beside f g n eccAt) {i b : ℕ} (hi : i < n) (hb : b < 64)
    (hf : Flipped f g i b) : Mends f i b ↔
      Locates (syndrome g eccAt i) ∧ bitPos (syndrome g eccAt i) = b + 1 := by
  rw [h.syndrome_eq hi, hf.mends_iff hb]

theorem flips_word {i j : ℕ} (hi : i < n) (hj : j < 8) : flips g eccAt n (8 * i + j) =
    if syndrome g eccAt i ≠ 0 ∧ (bitPos (syndrome g eccAt i) - 1) / 8 = j then
      g (8 * i + j) ^^^ UInt8.ofNat (2 ^ ((bitPos (syndrome g eccAt i) - 1) % 8))
    else g (8 * i + j) := by
  have hdiv : (8 * i + j) / 8 = i := by omega
  have hmod : (8 * i + j) % 8 = j := by omega
  unfold flips
  dsimp only
  rw [hdiv, hmod]
  exact if_congr ⟨fun hc ↦ hc.2, fun hc ↦ ⟨hi, hc⟩⟩ rfl rfl

/-- A located bit is flipped back exactly when it is the one that was flipped. -/
theorem restored_iff {i b : ℕ} (hi : i < n) (hb : b < 64) (hf : Flipped f g i b)
    (hl : Locates (syndrome g eccAt i)) :
    (∀ j < 8, flips g eccAt n (8 * i + j) = f (8 * i + j)) ↔
      bitPos (syndrome g eccAt i) = b + 1 := by
  obtain ⟨-, hpos, hmax⟩ := id hl
  refine ⟨fun h ↦ ?_, fun h j hj ↦ ?_⟩
  · have hbyte := h (b / 8) (by omega)
    rw [flips_word hi (by omega), hf.at hb] at hbyte
    split at hbyte
    · rename_i hc
      have := (flip_flip _ (by omega) (by omega)).mp hbyte
      omega
    · exact absurd hbyte (flip_ne _ (by omega))
  · rw [flips_word hi hj, h, Nat.add_sub_cancel]
    by_cases hjb : b / 8 = j
    · rw [if_pos ⟨hl.ne_zero, hjb⟩, ← hjb, hf.at hb]
      exact (flip_flip _ (by omega) (by omega)).mpr rfl
    · rw [if_neg fun hc ↦ hjb hc.2, hf.off hj (Ne.symm hjb)]

/-- An entry of the table is a byte of one number, which is cheaper to evaluate than the list. -/
theorem hamming_packed (x : UInt8) :
    hamming x = leByte (hammingParity.foldr (fun b v ↦ b.toNat + 256 * v) 0) x.toNat :=
  getD_eq_leByte _ _

theorem Mends.bit {i b : ℕ} (h : Mends f i b) (hb : b < 64) : b ∈ [7, 15, 23, 31, 47, 54, 61] := by
  -- the eight bits of a byte are enough: the position that the table gives says which byte it is
  have htable : ∀ x : UInt8, ∀ t : Fin 8, bitPos (entryChange x t) % 8 = (t + 1) % 8 →
      bitPos (entryChange x t) ∈ [0, 8, 16, 24, 32, 48, 55, 62] ∨ 64 < bitPos (entryChange x t) :=
    forall_byte (by simp only [entryChange, hamming_packed]; decide +kernel)
  have hpos := htable _ ⟨b % 8, Nat.mod_lt _ (by decide)⟩ (by rw [h.1]; exact (Nat.mod_add_mod b 8 1).symm)
  rw [h.1] at hpos
  simp only [List.mem_cons, List.not_mem_nil, or_false] at hpos ⊢
  omega

/-- `xxfs_os_ecc_correct` restores a buffer with single-bit errors exactly when the table gives
every one of them its own number. -/
theorem corrected_iff (_hn : n ≤ 256) (hd : Damaged f g n) (hat : Beside f g n eccAt) :
    ((eccCorrect g (8 * n) eccAt).1 = .corrected ∧
      ∀ a < 8 * n, (eccCorrect g (8 * n) eccAt).2 a = f a) ↔
    ∀ i < n, ∀ b < 64, Flipped f g i b → Mends f i b := by
  have hbehind : 8 * nwords (8 * n) ≤ eccAt + 8 := by
    rw [nwords_mul]
    exact hat.behind.trans (Nat.le_add_right _ _)
  constructor
  · rintro ⟨hc, hr⟩ i hi b hb hf
    rcases passes_or_stops g eccAt n with hp | ⟨k, hk, hp, h0, hl⟩
    · rw [← nwords_mul n] at hp
      obtain ⟨r, he, -⟩ := eccCorrect_passes hbehind hp
      rw [he, nwords_mul] at hr
      dsimp only at hr
      have hword (j : ℕ) (hj : j < 8) := hr (8 * i + j) (by omega)
      rcases hp i (by rwa [nwords_mul]) with hs | hs
      · -- nothing was flipped back in this word
        have hbyte := hword (b / 8) (by omega)
        rw [flips_word hi (by omega), if_neg fun hc ↦ hc.1 hs, hf.at hb] at hbyte
        exact absurd hbyte (flip_ne _ (by omega))
      · exact (hat.mends_iff hi hb hf).mpr ⟨hs, (restored_iff hi hb hf hs).mp hword⟩
    · rw [eccCorrect_stops hbehind (by rwa [nwords_mul]) hp h0 hl] at hc
      cases hc
  · intro hm
    have hp : Passes g eccAt (nwords (8 * n)) := by
      intro i hi
      rw [nwords_mul] at hi
      rcases hd.2 i hi with ⟨b, hb, hf⟩ | hs
      · exact .inr ((hat.mends_iff hi hb hf).mp (hm i hi b hb hf)).1
      · exact .inl (hat.syndrome_same hi hs)
    obtain ⟨r, he, -, hcorr⟩ := eccCorrect_passes hbehind hp
    rw [he, nwords_mul]
    dsimp only
    refine ⟨hcorr.mpr ?_, fun a ha ↦ ?_⟩
    · obtain ⟨i, hi, b, hb, hf⟩ := hd.1
      exact ⟨i, by rwa [nwords_mul], ((hat.mends_iff hi hb hf).mp (hm i hi b hb hf)).1.ne_zero⟩
    · have hi : a / 8 < n := by omega
      have ha' : 8 * (a / 8) + a % 8 = a := by omega
      rcases hd.2 (a / 8) hi with ⟨b, hb, hf⟩ | hs
      · obtain ⟨hl, hpos⟩ := (hat.mends_iff hi hb hf).mp (hm _ hi b hb hf)
        have hword := (restored_iff hi hb hf hl).mpr hpos (a % 8) (by omega)
        rwa [ha'] at hword
      · have hword : flips g eccAt n (8 * (a / 8) + a % 8) = _ := flips_word hi (by omega)
        rw [if_neg fun hc ↦ hc.1 (hat.syndrome_same hi hs), ha'] at hword
        rw [hword, ← ha', hs _ (by omega)]

theorem damaged_zero {b : ℕ} (hb : b < 64) : Damaged (fun _ ↦ 0) (flipBit (fun _ ↦ 0) 0 b) 1 := by
  have hf : Flipped (fun _ ↦ 0) (flipBit (fun _ ↦ 0) 0 b) 0 b := fun j hj ↦ rfl
  refine ⟨⟨0, Nat.one_pos, b, hb, hf⟩, fun i hi ↦ .inl ⟨b, hb, ?_⟩⟩
  rwa [Nat.lt_one_iff.mp hi]

set_option maxRecDepth 1000 in
theorem beside_zero {b : ℕ} (hb : b < 64) :
    Beside (fun _ ↦ 0) (flipBit (fun _ ↦ 0) 0 b) 1 8 := by
  refine ⟨le_rfl, fun i hi ↦ ?_⟩
  obtain rfl := Nat.lt_one_iff.mp hi
  exact (if_neg (by omega)).trans (by decide)

def threeWords (a : ℕ) : UInt8 := if a = 8 then 72 else if a = 21 then 57 else 0

/-- A bit is flipped in the first word and one in the third, and the ECC bytes are behind them. -/
def twoFlips (a : ℕ) : UInt8 :=
  if a < 24 then flipBit (flipBit threeWords 0 15) 16 47 a
  else bytesAt (eccCompute threeWords 24) (a - 24)

theorem twoFlips_first : Flipped threeWords twoFlips 0 15 := fun j hj ↦ by
  have hbyte : ∀ j < 8, flipBit (flipBit threeWords 0 15) 16 47 (8 * 0 + j) =
      flipBit threeWords (8 * 0) 15 (8 * 0 + j) := by decide
  rw [twoFlips, if_pos (by omega), hbyte j hj]

theorem twoFlips_third : Flipped threeWords twoFlips 2 47 := fun j hj ↦ by
  have hbyte : ∀ j < 8, flipBit (flipBit threeWords 0 15) 16 47 (8 * 2 + j) =
      flipBit threeWords (8 * 2) 47 (8 * 2 + j) := by decide
  rw [twoFlips, if_pos (by omega), hbyte j hj]

theorem twoFlips_second : ∀ j < 8, twoFlips (8 * 1 + j) = threeWords (8 * 1 + j) := fun j hj ↦ by
  have hbyte : ∀ j < 8, flipBit (flipBit threeWords 0 15) 16 47 (8 * 1 + j) =
      threeWords (8 * 1 + j) := by decide
  rw [twoFlips, if_pos (by omega), hbyte j hj]

set_option maxRecDepth 1000 in
theorem corrected_two_flips : (eccCorrect twoFlips (8 * 3) 24).1 = .corrected ∧
    ∀ a < 8 * 3, (eccCorrect twoFlips (8 * 3) 24).2 a = threeWords a := by
  have hd : Damaged threeWords twoFlips 3 := by
    refine ⟨⟨0, by decide, 15, by decide, twoFlips_first⟩, fun i hi ↦ ?_⟩
    match i, hi with
    | 0, _ => exact .inl ⟨15, by decide, twoFlips_first⟩
    | 1, _ => exact .inr twoFlips_second
    | 2, _ => exact .inl ⟨47, by decide, twoFlips_third⟩
  have hbeside : Beside threeWords twoFlips 3 24 := by
    refine ⟨le_rfl, fun i hi ↦ ?_⟩
    rw [twoFlips, if_neg (by omega), Nat.add_sub_cancel_left]
  refine (corrected_iff (by decide) hd hbeside).mpr fun i hi b hb hf ↦ ?_
  match i, hi with
  | 0, _ =>
    obtain rfl := hf.unique twoFlips_first hb (by decide)
    exact ⟨by decide, by decide⟩
  | 1, _ =>
    have hat := hf.at hb
    rw [twoFlips_second _ (by omega)] at hat
    exact absurd hat.symm (flip_ne _ (by omega))
  | 2, _ =>
    obtain rfl := hf.unique twoFlips_third hb (by decide)
    exact ⟨by decide, by decide⟩

set_option maxRecDepth 1000 in
/-- A zero word with its lowest bit flipped is given up. -/
theorem bit0_uncorrectable :
    Damaged (fun _ ↦ 0) (flipBit (fun _ ↦ 0) 0 0) 1 ∧
      Beside (fun _ ↦ 0) (flipBit (fun _ ↦ 0) 0 0) 1 8 ∧
      (eccCorrect (flipBit (fun _ ↦ 0) 0 0) (8 * 1) 8).1 = .uncorrectable :=
  ⟨damaged_zero (by decide), beside_zero (by decide), by decide⟩

end buffer

end Xxfs.EccRepair

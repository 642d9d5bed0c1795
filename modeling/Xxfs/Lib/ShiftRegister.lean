import Mathlib.Algebra.Group.Nat.Defs
import Mathlib.Logic.Function.Iterate

namespace Xxfs.Lib.ShiftRegister

variable {w : ℕ}

/-- One shift of a reflected register with feedback `p`. -/
def shift (p c : BitVec w) : BitVec w := if c.getLsbD 0 then p ^^^ (c >>> 1) else c >>> 1

def feed (p c : BitVec w) (b : Bool) : BitVec w := shift p (c ^^^ if b then 1#w else 0#w)

def run (p c : BitVec w) (bits : List Bool) : BitVec w := bits.foldl (feed p) c

/-- The `k` lowest bits of a word, the lowest first. -/
def lowBits (v : BitVec w) : ℕ → List Bool
  | 0 => []
  | k + 1 => v.getLsbD 0 :: lowBits (v >>> 1) k

theorem lowBits_eq (v : BitVec w) (k : ℕ) : lowBits v k = (List.range k).map v.getLsbD := by
  induction k generalizing v with
  | zero => rfl
  | succ k ih =>
    rw [lowBits, ih, List.range_succ_eq_map, List.map_cons, List.map_map]
    refine congrArg _ (List.map_congr_left fun i _ ↦ ?_)
    simp [Nat.add_comm 1 i]

section shift

variable (p : BitVec w)

@[simp] theorem shift_zero : shift p 0#w = 0#w := by simp [shift]

theorem shift_xor (a b : BitVec w) : shift p (a ^^^ b) = shift p a ^^^ shift p b := by
  have hcancel : p ^^^ (a >>> 1) ^^^ (p ^^^ (b >>> 1)) = a >>> 1 ^^^ b >>> 1 := by
    rw [BitVec.xor_comm p (a >>> 1), BitVec.xor_assoc, ← BitVec.xor_assoc p p, BitVec.xor_self,
      BitVec.zero_xor]
  simp only [shift, BitVec.getLsbD_xor, BitVec.ushiftRight_xor_distrib]
  cases ha : a.getLsbD 0 <;> cases hb : b.getLsbD 0 <;> simp
  · ac_rfl
  · exact (BitVec.xor_assoc _ _ _).symm
  · exact hcancel.symm

theorem iterate_shift_xor (n : ℕ) (a b : BitVec w) :
    (shift p)^[n] (a ^^^ b) = (shift p)^[n] a ^^^ (shift p)^[n] b := by
  induction n generalizing a b with
  | zero => rfl
  | succ n ih => rw [Function.iterate_succ_apply, shift_xor, ih]; rfl

theorem shift_of_even {c : BitVec w} (h : c.getLsbD 0 = false) : shift p c = c >>> 1 := by
  simp [shift, h]

/-- A word whose `k` lowest bits are clear only moves down through `k` shifts. -/
theorem iterate_shift_high {c : BitVec w} {k : ℕ} (h : ∀ i < k, c.getLsbD i = false) :
    (shift p)^[k] c = c >>> k := by
  induction k with
  | zero => simp
  | succ k ih =>
    have hk : (c >>> k).getLsbD 0 = false := by simpa using h k (by omega)
    rw [Function.iterate_succ_apply', ih fun i hi ↦ h i (by omega), shift_of_even p hk,
      BitVec.shiftRight_add]

/-- The low bits of a word decide what feedback it meets; the others move down. -/
theorem iterate_shift_split (c m : BitVec w) {k : ℕ} (hm : ∀ i, m.getLsbD i = decide (i < k ∧ i < w)) :
    (shift p)^[k] c = (shift p)^[k] (c &&& m) ^^^ (c >>> k) := by
  have hsplit : c = (c &&& m) ^^^ (c &&& ~~~m) := by
    apply BitVec.eq_of_getLsbD_eq
    intro i hi
    simp only [BitVec.getLsbD_xor, BitVec.getLsbD_and, BitVec.getLsbD_not, hi, decide_true,
      Bool.true_and]
    cases c.getLsbD i <;> cases m.getLsbD i <;> rfl
  have hlow : ∀ i < k, (c &&& ~~~m).getLsbD i = false := by
    intro i hi
    by_cases hw : i < w
    · simp [hm, hi, hw]
    · simp [hw]
  have hhigh : (c &&& ~~~m) >>> k = c >>> k := by
    apply BitVec.eq_of_getLsbD_eq
    intro i _
    simp only [BitVec.getLsbD_ushiftRight, BitVec.getLsbD_and, BitVec.getLsbD_not, hm]
    by_cases hw : k + i < w
    · simp [hw]
    · simp [BitVec.getLsbD_of_ge c (k + i) (by omega)]
  calc (shift p)^[k] c = (shift p)^[k] ((c &&& m) ^^^ (c &&& ~~~m)) := by rw [← hsplit]
    _ = (shift p)^[k] (c &&& m) ^^^ (c >>> k) := by
      rw [iterate_shift_xor, iterate_shift_high p hlow, hhigh]

end shift

section injective

variable {p : BitVec w} (hp : p.msb = true)
include hp

theorem shift_injective : Function.Injective (shift p) := by
  have hzero (c : BitVec w) (h : shift p c = 0#w) : c = 0#w := by
    have hw : 0 < w := by
      rcases Nat.eq_zero_or_pos w with rfl | hw
      · simp [BitVec.msb] at hp
      · exact hw
    rw [shift] at h
    split at h
    · have hpc : p = c >>> 1 := by
        rw [← BitVec.xor_zero (x := p), ← BitVec.xor_self (x := c >>> 1), ← BitVec.xor_assoc, h,
          BitVec.zero_xor]
      rw [hpc, BitVec.msb_ushiftRight] at hp
      simp at hp
    · rename_i hlow
      apply BitVec.eq_of_getLsbD_eq
      intro i hi
      cases i with
      | zero => simpa using hlow
      | succ i =>
        have := congrArg (fun x ↦ BitVec.getLsbD x i) h
        simpa [Nat.add_comm 1 i] using this
  intro a b h
  have hx : shift p (a ^^^ b) = 0#w := by rw [shift_xor, h, BitVec.xor_self]
  have := hzero _ hx
  rwa [BitVec.xor_eq_zero_iff] at this

theorem feed_injective (b : Bool) : Function.Injective fun c ↦ feed p c b := by
  intro c d h
  exact (BitVec.xor_left_inj _).mp (shift_injective hp h)

theorem run_injective (bits : List Bool) : Function.Injective fun c ↦ run p c bits := by
  induction bits with
  | nil => exact fun _ _ h ↦ h
  | cons b bits ih => exact fun c d h ↦ feed_injective hp b (ih h)

end injective

section run

variable (p : BitVec w)

theorem run_append (c : BitVec w) (xs ys : List Bool) :
    run p c (xs ++ ys) = run p (run p c xs) ys :=
  List.foldl_append

theorem run_cons (c : BitVec w) (b : Bool) (xs : List Bool) :
    run p c (b :: xs) = run p (feed p c b) xs := rfl

theorem feed_xor (c d : BitVec w) (b : Bool) :
    feed p (c ^^^ d) b = feed p c b ^^^ shift p d := by
  rw [feed, feed, ← shift_xor]
  congr 1
  ac_rfl

theorem run_xor (c d : BitVec w) (bits : List Bool) :
    run p (c ^^^ d) bits = run p c bits ^^^ (shift p)^[bits.length] d := by
  induction bits generalizing c d with
  | nil => rfl
  | cons b bits ih =>
    rw [run_cons, feed_xor, ih, run_cons, List.length_cons, Function.iterate_succ_apply]

theorem feed_not (c : BitVec w) (b : Bool) : feed p c (!b) = feed p c b ^^^ shift p 1#w := by
  rw [feed, feed, ← shift_xor]
  cases b with
  | false => simp
  | true =>
    calc shift p (c ^^^ 0#w) = shift p (c ^^^ (1#w ^^^ 1#w)) := by rw [BitVec.xor_self]
      _ = shift p ((c ^^^ 1#w) ^^^ 1#w) := by rw [BitVec.xor_assoc]

/-- The bits of a word may enter one by one or all at once before the shifts. -/
theorem run_lowBits (c v : BitVec w) {k : ℕ} (hv : v.toNat < 2 ^ k) :
    run p c (lowBits v k) = (shift p)^[k] (c ^^^ v) := by
  induction k generalizing c v with
  | zero =>
    have h0 : v = 0#w := BitVec.eq_of_toNat_eq (by simpa using hv)
    simp [lowBits, run, h0]
  | succ k ih =>
    have hhalf : (v >>> 1).toNat < 2 ^ k := by
      rw [BitVec.toNat_ushiftRight, Nat.shiftRight_eq_div_pow]
      omega
    have hrest : shift p (v ^^^ if v.getLsbD 0 then 1#w else 0#w) = v >>> 1 := by
      rcases Nat.eq_zero_or_pos w with rfl | hw
      · exact Subsingleton.elim _ _
      · rw [shift_of_even]
        · rw [BitVec.ushiftRight_xor_distrib]
          cases v.getLsbD 0
          · simp
          · have h1 : 1#w >>> 1 = 0#w := BitVec.eq_of_toNat_eq (by
              rw [BitVec.toNat_ushiftRight, BitVec.toNat_ofNat, Nat.shiftRight_eq_div_pow]
              have : 1 % 2 ^ w ≤ 1 := Nat.mod_le _ _
              simp
              omega)
            simp [h1]
        · rw [BitVec.getLsbD_xor]
          cases v.getLsbD 0 <;> simp [hw]
    have hone : shift p (c ^^^ v) =
        feed p c (v.getLsbD 0) ^^^ (v >>> 1) := by
      rw [← hrest, feed, ← shift_xor]
      congr 1
      rw [BitVec.xor_comm v, BitVec.xor_assoc, ← BitVec.xor_assoc _ _ v, BitVec.xor_self,
        BitVec.zero_xor]
    rw [lowBits, run_cons, ih _ _ hhalf, Function.iterate_succ_apply, hone]

end run

section flips

variable {p : BitVec w} (hp : p.msb = true)
include hp

theorem shift_one_ne_zero : shift p 1#w ≠ 0#w := by
  intro h
  have h1 : (1#w : BitVec w) = 0#w := shift_injective hp (h.trans (shift_zero p).symm)
  have hw : 0 < w := by
    rcases Nat.eq_zero_or_pos w with rfl | hw
    · simp [BitVec.msb] at hp
    · exact hw
  have := congrArg (fun x ↦ BitVec.getLsbD x 0) h1
  simp [hw] at this

theorem run_flip_ne (c : BitVec w) (xs ys : List Bool) (b : Bool) :
    run p c (xs ++ (!b) :: ys) ≠ run p c (xs ++ b :: ys) := by
  intro h
  rw [run_append, run_append, run_cons, run_cons, feed_not] at h
  have h' := run_injective hp ys h
  refine shift_one_ne_zero hp ((BitVec.xor_right_inj (feed p (run p c xs) b)).mp ?_)
  rw [h', BitVec.xor_zero]

/-- A message with two bits changed leaves another register, unless it returns to one in between. -/
theorem run_flips_ne (c : BitVec w) (xs ys zs : List Bool) (a b : Bool)
    (h1 : (shift p)^[ys.length + 1] 1#w ≠ 1#w) :
    run p c (xs ++ (!a) :: (ys ++ (!b) :: zs)) ≠ run p c (xs ++ a :: (ys ++ b :: zs)) := by
  intro h
  rw [run_append, run_append, run_cons, run_cons, feed_not, run_append, run_append, run_cons,
    run_cons, run_xor, feed_not, feed_xor] at h
  have h' := run_injective hp zs h
  rw [BitVec.xor_assoc, ← shift_xor, ← Function.iterate_succ_apply] at h'
  generalize feed p (run p (feed p (run p c xs) a) ys) b = e at h'
  have h0 : shift p ((shift p)^[ys.length + 1] 1#w ^^^ 1#w) = shift p 0#w := by
    rw [shift_zero]
    refine (BitVec.xor_right_inj e).mp ?_
    rw [BitVec.xor_zero]
    exact h'
  exact h1 (BitVec.xor_eq_zero_iff.mp (shift_injective hp h0))

variable {g g' : ℕ → Bool} {n : ℕ}

omit hp in
/-- The bits of a message up to `n`, with the one at `t` set apart. -/
theorem map_range_split (g : ℕ → Bool) {t : ℕ} (ht : t < n) : (List.range n).map g =
    (List.range t).map g ++ g t :: (List.range (n - t - 1)).map fun j ↦ g (t + 1 + j) := by
  obtain ⟨m, rfl⟩ : ∃ m, n = t + (m + 1) := ⟨n - t - 1, by omega⟩
  have hm : t + (m + 1) - t - 1 = m := by omega
  rw [List.range_add, List.map_append, List.map_map, List.range_succ_eq_map, List.map_cons,
    List.map_map, hm]
  refine congrArg _ (congrArg _ (List.map_congr_left fun j _ ↦ congrArg g ?_))
  simp only [Nat.succ_eq_add_one]
  omega

theorem run_range_flip_ne (c : BitVec w) {t : ℕ} (ht : t < n)
    (hg : ∀ j, g' j = if j = t then !g j else g j) :
    run p c ((List.range n).map g') ≠ run p c ((List.range n).map g) := by
  have hxs : (List.range t).map g' = (List.range t).map g := by
    refine List.map_congr_left fun j hj ↦ ?_
    rw [hg, if_neg (Nat.ne_of_lt (List.mem_range.mp hj))]
  have hys : (List.range (n - t - 1)).map (fun j ↦ g' (t + 1 + j)) =
      (List.range (n - t - 1)).map fun j ↦ g (t + 1 + j) := by
    refine List.map_congr_left fun j _ ↦ ?_
    rw [hg, if_neg (by omega)]
  rw [map_range_split g' ht, map_range_split g ht, hxs, hys, hg t, if_pos rfl]
  exact run_flip_ne hp c _ _ _

theorem run_range_flips_ne (c : BitVec w) {t t' : ℕ} (htt : t < t') (ht : t' < n)
    (hg : ∀ j, g' j = if j = t ∨ j = t' then !g j else g j)
    (h1 : (shift p)^[t' - t] 1#w ≠ 1#w) :
    run p c ((List.range n).map g') ≠ run p c ((List.range n).map g) := by
  have hxs : (List.range t).map g' = (List.range t).map g := by
    refine List.map_congr_left fun j hj ↦ ?_
    have := List.mem_range.mp hj
    rw [hg, if_neg (by omega)]
  have hys : (List.range (t' - t - 1)).map (fun j ↦ g' (t + 1 + j)) =
      (List.range (t' - t - 1)).map fun j ↦ g (t + 1 + j) := by
    refine List.map_congr_left fun j hj ↦ ?_
    have := List.mem_range.mp hj
    rw [hg, if_neg (by omega)]
  have hzs : (List.range (n - t - 1 - (t' - t - 1) - 1)).map
        (fun j ↦ g' (t + 1 + (t' - t - 1 + 1 + j))) =
      (List.range (n - t - 1 - (t' - t - 1) - 1)).map
        fun j ↦ g (t + 1 + (t' - t - 1 + 1 + j)) := by
    refine List.map_congr_left fun j hj ↦ ?_
    rw [hg, if_neg (by omega)]
  have hmid : t + 1 + (t' - t - 1) = t' := by omega
  have hlen : t' - t - 1 < n - t - 1 := by omega
  rw [map_range_split g' (by omega : t < n), map_range_split g (by omega : t < n),
    map_range_split (fun j ↦ g' (t + 1 + j)) hlen, map_range_split (fun j ↦ g (t + 1 + j)) hlen,
    hxs, hys, hzs, hmid, hg t, hg t', if_pos (.inl rfl), if_pos (.inr rfl)]
  refine run_flips_ne hp c _ _ _ _ _ ?_
  have hd : t' - t - 1 + 1 = t' - t := by omega
  rwa [List.length_map, List.length_range, hd]

end flips

section bursts

variable (p : BitVec w)

theorem feed_feed_xor (c d : BitVec w) (a b : Bool) :
    feed p (c ^^^ d) (a ^^ b) = feed p c a ^^^ feed p d b := by
  have hbits : (if (a ^^ b) = true then 1#w else 0#w) =
      (if a = true then 1#w else 0#w) ^^^ if b = true then 1#w else 0#w := by
    cases a <;> cases b <;> simp
  rw [feed, feed, feed, ← shift_xor, hbits]
  congr 1
  ac_rfl

/-- The damage done to a message passes through the register apart from the message. -/
theorem run_map_xor {ι : Type} (g h : ι → Bool) (is : List ι) (c d : BitVec w) :
    run p (c ^^^ d) (is.map fun i ↦ g i ^^ h i) = run p c (is.map g) ^^^ run p d (is.map h) := by
  induction is generalizing c d with
  | nil => rfl
  | cons i is ih => rw [List.map_cons, run_cons, feed_feed_xor, ih]; rfl

theorem run_map_false {ι : Type} {h : ι → Bool} {is : List ι} (hz : ∀ i ∈ is, h i = false)
    (c : BitVec w) : run p c (is.map h) = (shift p)^[is.length] c := by
  induction is generalizing c with
  | nil => rfl
  | cons i is ih =>
    have hfeed : feed p c false = shift p c := by
      rw [feed, if_neg Bool.false_ne_true, BitVec.xor_zero]
    rw [List.map_cons, run_cons, hz i List.mem_cons_self, hfeed,
      ih fun j hj ↦ hz j (List.mem_cons_of_mem _ hj), List.length_cons,
      Function.iterate_succ_apply]

theorem iterate_shift_zero (n : ℕ) : (shift p)^[n] 0#w = 0#w :=
  Function.iterate_fixed (shift_zero p) n

theorem exists_word (h : ℕ → Bool) {k : ℕ} (hk : k ≤ w) :
    ∃ v : BitVec w, v.toNat < 2 ^ k ∧ ∀ i < k, v.getLsbD i = h i := by
  induction k with
  | zero => exact ⟨0#w, by simp, fun i hi ↦ absurd hi (Nat.not_lt_zero i)⟩
  | succ k ih =>
    obtain ⟨v, hv, hbits⟩ := ih (Nat.le_of_succ_le hk)
    refine ⟨v ||| if h k then BitVec.twoPow w k else 0#w, ?_, fun i hi ↦ ?_⟩
    · have hpow : 2 ^ k < 2 ^ (k + 1) := Nat.pow_lt_pow_right Nat.one_lt_two k.lt_succ_self
      rw [BitVec.toNat_or]
      refine Nat.or_lt_two_pow (Nat.lt_trans hv hpow) ?_
      split
      · rw [BitVec.toNat_twoPow]
        exact Nat.lt_of_le_of_lt (Nat.mod_le _ _) hpow
      · rw [BitVec.toNat_ofNat, Nat.zero_mod]
        exact Nat.two_pow_pos _
    · rw [BitVec.getLsbD_or]
      rcases Nat.lt_succ_iff_lt_or_eq.mp hi with hlt | rfl
      · have hother : (if h k then BitVec.twoPow w k else 0#w).getLsbD i = false := by
          split
          · rw [BitVec.getLsbD_twoPow, decide_eq_false (Nat.ne_of_gt hlt), Bool.and_false]
          · exact BitVec.getLsbD_zero
        rw [hbits i hlt, hother, Bool.or_false]
      · have hfree : v.getLsbD i = false := by
          rw [BitVec.getLsbD, Nat.testBit_lt_two_pow hv]
        rw [hfree, Bool.false_or]
        cases h i
        · simp
        · have hiw : i < w := hk
          simp [hiw]

/-- Damage that a window as wide as the register covers does not leave the register clear. -/
theorem run_burst_ne (hp : p.msb = true) {h : ℕ → Bool} {n s : ℕ}
    (hin : ∀ t < n, h t = true → s ≤ t ∧ t < s + w) (hne : ∃ t < n, h t = true) :
    run p 0#w ((List.range n).map h) ≠ 0#w := by
  obtain ⟨t, ht, hset⟩ := hne
  obtain ⟨hst, htw⟩ := hin t ht hset
  obtain ⟨k, r, hkr, hkw, htk, hr⟩ :
      ∃ k r, n = s + k + r ∧ k ≤ w ∧ t < s + k ∧ (k = w ∨ r = 0) := by
    rcases Nat.le_total w (n - s) with hle | hle
    · exact ⟨w, n - s - w, by omega, Nat.le_refl w, htw, .inl rfl⟩
    · exact ⟨n - s, 0, by omega, hle, by omega, .inr rfl⟩
  obtain ⟨v, hv, hbits⟩ := exists_word (fun i ↦ h (s + i)) hkw
  have hv0 : v ≠ 0#w := by
    rintro rfl
    have := hbits (t - s) (by omega)
    rw [BitVec.getLsbD_zero, Nat.add_sub_cancel' hst, hset] at this
    cases this
  have hfront : ∀ t ∈ List.range s, h t = false := fun u hu ↦ by
    have hus := List.mem_range.mp hu
    refine Bool.eq_false_iff.mpr fun hset ↦ ?_
    have := (hin u (by omega) hset).1
    omega
  have hback : ∀ t ∈ List.range r, (h ∘ fun u ↦ s + k + u) t = false := fun u hu ↦ by
    have hur := List.mem_range.mp hu
    refine Bool.eq_false_iff.mpr fun hset ↦ ?_
    have := (hin (s + k + u) (by omega) hset).2
    omega
  have hmid : (List.range k).map (h ∘ fun u ↦ s + u) = lowBits v k := by
    rw [lowBits_eq]
    exact List.map_congr_left fun i hi ↦ (hbits i (List.mem_range.mp hi)).symm
  have hrun : run p 0#w ((List.range n).map h) = (shift p)^[r] ((shift p)^[k] v) := by
    rw [hkr, List.range_add, List.map_append, run_append, List.map_map, run_map_false p hback,
      List.length_range, List.range_add, List.map_append, run_append, List.map_map,
      run_map_false p hfront, iterate_shift_zero, hmid, run_lowBits p _ _ hv, BitVec.zero_xor]
  rw [hrun, ← Function.iterate_add_apply]
  intro h0
  exact hv0 ((shift_injective hp).iterate _ (h0.trans (iterate_shift_zero p _).symm))

end bursts

end Xxfs.Lib.ShiftRegister

import Mathlib.Algebra.Ring.Parity
import Mathlib.Dynamics.PeriodicPts.Lemmas
import Xxfs.Lib.ShiftRegister

namespace Xxfs.Lib.LinearRegister

open Function
open Xxfs.Lib.ShiftRegister

variable {w : ℕ}

section parity

def odds (bits : List Bool) : Bool := bits.foldr xor false

@[simp] theorem odds_cons (b : Bool) (bits : List Bool) : odds (b :: bits) = (b ^^ odds bits) := rfl

theorem odds_append (xs ys : List Bool) : odds (xs ++ ys) = (odds xs ^^ odds ys) := by
  induction xs with
  | nil => exact (Bool.false_xor _).symm
  | cons x xs ih => rw [List.cons_append, odds_cons, ih, odds_cons, Bool.xor_assoc]

theorem odds_iff (bits : List Bool) : odds bits = true ↔ Odd (bits.countP id) := by
  induction bits with
  | nil => simp [odds]
  | cons b bits ih =>
    cases b with
    | false => simpa using ih
    | true =>
      have hcount : (true :: bits).countP id = bits.countP id + 1 := List.countP_cons_of_pos rfl
      rw [odds_cons, hcount, Nat.odd_add_one, ← ih]
      simp

theorem odds_map_xor {ι : Type} (g h : ι → Bool) (is : List ι) :
    odds (is.map fun i ↦ g i ^^ h i) = (odds (is.map g) ^^ odds (is.map h)) := by
  induction is with
  | nil => rfl
  | cons i is ih =>
    simp only [List.map_cons, odds_cons, ih]
    cases g i <;> cases h i <;> cases odds (is.map g) <;> cases odds (is.map h) <;> rfl

/-- Whether an odd number of the bits of a word is set. -/
def oddWord (v : BitVec w) : Bool := odds (lowBits v w)

theorem oddWord_xor (a b : BitVec w) : oddWord (a ^^^ b) = (oddWord a ^^ oddWord b) := by
  rw [oddWord, oddWord, oddWord, lowBits_eq, lowBits_eq, lowBits_eq, ← odds_map_xor]
  exact congrArg odds (List.map_congr_left fun i _ ↦ BitVec.getLsbD_xor)

@[simp] theorem oddWord_zero : oddWord (0#w) = false := by
  have h := oddWord_xor (0#w) 0#w
  rwa [BitVec.xor_self, Bool.xor_self] at h

theorem oddWord_halve (v : BitVec w) : oddWord v = (v.getLsbD 0 ^^ oddWord (v >>> 1)) := by
  cases w with
  | zero => simp [oddWord, lowBits, odds]
  | succ w =>
    have htop : (v >>> 1).getLsbD w = false := by
      rw [BitVec.getLsbD_ushiftRight, BitVec.getLsbD_of_ge _ _ (by omega)]
    rw [oddWord, lowBits, odds_cons, oddWord, lowBits_eq (v >>> 1) (w + 1), List.range_succ,
      List.map_append, odds_append, List.map_singleton, htop, lowBits_eq]
    simp [odds]

variable {p : BitVec w} (hp : oddWord p = true)
include hp

/-- A feedback with an odd number of bits keeps the parity of the register. -/
theorem oddWord_shift (c : BitVec w) : oddWord (shift p c) = oddWord c := by
  rw [oddWord_halve c, shift]
  split
  · rename_i hlow
    rw [oddWord_xor, hp, hlow]
  · rename_i hlow
    rw [Bool.not_eq_true] at hlow
    rw [hlow, Bool.false_xor]

theorem oddWord_feed (c : BitVec w) (b : Bool) : oddWord (feed p c b) = (oddWord c ^^ b) := by
  have hw : oddWord (1#w) = true := by
    have h0 : (1#w).getLsbD 0 = true := by
      have hpos : 0 < w := by
        rcases Nat.eq_zero_or_pos w with rfl | hpos
        · cases hp
        · exact hpos
      simp [hpos]
    have h1 : 1#w >>> 1 = 0#w := by
      apply BitVec.eq_of_getLsbD_eq
      intro i _
      simp [BitVec.getLsbD_one]
    rw [oddWord_halve, h0, h1, oddWord_zero]
    rfl
  rw [feed, oddWord_shift hp, oddWord_xor]
  cases b with
  | false => rw [if_neg Bool.false_ne_true, oddWord_zero]
  | true => rw [if_pos rfl, hw]

theorem oddWord_run (c : BitVec w) (bits : List Bool) :
    oddWord (run p c bits) = (oddWord c ^^ odds bits) := by
  induction bits generalizing c with
  | nil => exact (Bool.xor_false _).symm
  | cons b bits ih => rw [run_cons, ih, oddWord_feed hp, odds_cons, Bool.xor_assoc]

theorem run_odd_ne {bits : List Bool} (h : odds bits = true) : run p 0#w bits ≠ 0#w := by
  intro h0
  have hrun := oddWord_run hp 0#w bits
  rw [h0, oddWord_zero, h] at hrun
  cases hrun

end parity

section columns

def Linear (f : BitVec w → BitVec w) : Prop := ∀ a b, f (a ^^^ b) = f a ^^^ f b

/-- The sum of the words that the bits of `v` choose. -/
def combine : List (BitVec w) → BitVec w → BitVec w
  | [], _ => 0#w
  | x :: xs, v => (if v.getLsbD 0 then x else 0#w) ^^^ combine xs (v >>> 1)

def columns (f : BitVec w → BitVec w) : List (BitVec w) :=
  (List.range w).map fun i ↦ f (BitVec.twoPow w i)

def doubled (m : List (BitVec w)) : List (BitVec w) := m.map (combine m)

variable {f g : BitVec w → BitVec w}

theorem Linear.comp (hf : Linear f) (hg : Linear g) : Linear (f ∘ g) := by
  intro a b
  rw [Function.comp_apply, hg, hf]
  rfl

theorem Linear.zero (hf : Linear f) : f 0#w = 0#w := by
  have h := hf 0#w 0#w
  rwa [BitVec.xor_self, BitVec.xor_self] at h

theorem Linear.iterate (hf : Linear f) (n : ℕ) : Linear f^[n] := by
  induction n with
  | zero => exact fun _ _ ↦ rfl
  | succ n ih => exact ih.comp hf

theorem linear_shift (p : BitVec w) : Linear (shift p) := shift_xor p

theorem high_split (v : BitVec w) (j : ℕ) : (v >>> j) <<< j =
    (if v.getLsbD j then BitVec.twoPow w j else 0#w) ^^^ ((v >>> (j + 1)) <<< (j + 1)) := by
  apply BitVec.eq_of_getLsbD_eq
  intro i hi
  have hbit : (if v.getLsbD j then BitVec.twoPow w j else 0#w).getLsbD i =
      (v.getLsbD j && decide (i = j)) := by
    cases v.getLsbD j with
    | false => simp
    | true => simp [hi, eq_comm]
  rw [BitVec.getLsbD_xor, hbit]
  simp only [BitVec.getLsbD_shiftLeft, BitVec.getLsbD_ushiftRight, hi, decide_true, Bool.true_and]
  rcases Nat.lt_trichotomy i j with h | rfl | h
  · simp [h, Nat.ne_of_lt h, Nat.lt_succ_of_lt h]
  · simp
  · have h₁ : j + (i - j) = i := by omega
    have h₂ : j + 1 + (i - (j + 1)) = i := by omega
    simp [Nat.not_lt.mpr h.le, Nat.ne_of_gt h, h₁, h₂, show ¬i < j + 1 by omega]

theorem combine_columns (hf : Linear f) (v : BitVec w) : combine (columns f) v = f v := by
  have hgen (k : ℕ) : ∀ j, j + k = w → combine ((List.range' j k).map fun i ↦ f (BitVec.twoPow w i))
      (v >>> j) = f ((v >>> j) <<< j) := by
    induction k with
    | zero =>
      intro j hj
      have h0 : (v >>> j) <<< j = 0#w := by
        apply BitVec.eq_of_getLsbD_eq
        intro i hi
        simp [show i < j by omega]
      rw [h0, hf.zero]
      rfl
    | succ k ih =>
      intro j hj
      rw [List.range'_succ, List.map_cons, combine, ← BitVec.shiftRight_add, ih (j + 1) (by omega),
        high_split v j, hf]
      congr 1
      have hlow : (v >>> j).getLsbD 0 = v.getLsbD j := by simp
      rw [hlow]
      split
      · rfl
      · exact hf.zero.symm
  have h := hgen w 0 (by omega)
  rwa [← List.range_eq_range', BitVec.ushiftRight_zero, BitVec.shiftLeft_zero] at h

theorem doubled_columns (hf : Linear f) : doubled (columns f) = columns (f ∘ f) := by
  rw [doubled, columns, List.map_map]
  exact List.map_congr_left fun i _ ↦ combine_columns hf _

theorem iterate_doubled (hf : Linear f) (k : ℕ) : doubled^[k] (columns f) = columns f^[2 ^ k] := by
  induction k with
  | zero => rfl
  | succ k ih =>
    rw [iterate_succ_apply', ih, doubled_columns (hf.iterate _), ← iterate_add, Nat.pow_succ, Nat.mul_two]

theorem run_single (p : BitVec w) {n t : ℕ} (ht : t < n) :
    run p 0#w ((List.range n).map fun j ↦ decide (j = t)) = (shift p)^[n - t] 1#w := by
  have hfront : ∀ j ∈ List.range t, decide (j = t) = false := by
    intro j hj
    exact decide_eq_false (Nat.ne_of_lt (List.mem_range.mp hj))
  have hback : ∀ j ∈ List.range (n - t - 1), decide (t + 1 + j = t) = false := by
    intro j _
    exact decide_eq_false (by omega)
  have hlen : n - t = n - t - 1 + 1 := by omega
  rw [map_range_split _ ht, run_append, run_map_false p hfront, iterate_shift_zero, run_cons,
    run_map_false p hback, List.length_range, hlen, iterate_succ_apply, decide_eq_true rfl, feed,
    if_pos rfl, BitVec.zero_xor, Nat.add_sub_cancel]

/-- Two bits of a message cancel if the second meets the register where the first has begun. -/
theorem run_pair_eq_zero_iff {p : BitVec w} (hp : p.msb = true) {n t t' : ℕ} (htt : t < t') (ht : t' < n) :
    run p 0#w ((List.range n).map fun j ↦ decide (j = t) ^^ decide (j = t')) = 0#w ↔
      (shift p)^[t' - t] 1#w = 1#w := by
  have hsum := run_map_xor p (fun j ↦ decide (j = t)) (fun j ↦ decide (j = t')) (List.range n) 0#w 0#w
  have hback : n - t = n - t' + (t' - t) := by omega
  rw [BitVec.xor_zero] at hsum
  rw [hsum, run_single p (htt.trans ht), run_single p ht, BitVec.xor_eq_zero_iff, hback, iterate_add_apply]
  exact ((shift_injective hp).iterate _).eq_iff

/-- A register that is where it was one step on after a power of two of steps takes one step less
to come round, and where that is a prime it does not come round before. -/
theorem minimalPeriod_shift {p : BitVec w} (hp : p.msb = true) {k : ℕ} (hk : (2 ^ k - 1).Prime)
    (h : combine (doubled^[k] (columns (shift p))) 1#w = shift p 1#w) (h1 : shift p 1#w ≠ 1#w) :
    minimalPeriod (shift p) 1#w = 2 ^ k - 1 := by
  have hround : IsPeriodicPt (shift p) (2 ^ k - 1) 1#w := by
    rw [iterate_doubled (linear_shift p), combine_columns ((linear_shift p).iterate _)] at h
    refine shift_injective hp ?_
    rw [← iterate_succ_apply' (shift p), Nat.succ_eq_add_one, Nat.sub_add_cancel Nat.one_le_two_pow]
    exact h
  have := Fact.mk hk
  exact minimalPeriod_eq_prime hround h1

end columns

end Xxfs.Lib.LinearRegister

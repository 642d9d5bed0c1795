import Xxfs.Hash
import Xxfs.Lib.ReadLog

namespace Xxfs.HashReads

open Xxfs.Hash Xxfs.Lib Xxfs.Lib.Computation Xxfs.Lib.Computation.Reader

/-! `xxh64` with the bytes that it reads of the key, which are the ones from position `p` on. -/

section code

variable (f : ℕ → UInt8)

def getU64 (p : ℕ) : Reader UInt64 := do
  let b0 ← read f p
  let b1 ← read f (p + 1)
  let b2 ← read f (p + 2)
  let b3 ← read f (p + 3)
  let b4 ← read f (p + 4)
  let b5 ← read f (p + 5)
  let b6 ← read f (p + 6)
  let b7 ← read f (p + 7)
  return b0.toUInt64 ||| (b1.toUInt64 <<< 8) ||| (b2.toUInt64 <<< 16) ||| (b3.toUInt64 <<< 24) |||
    (b4.toUInt64 <<< 32) ||| (b5.toUInt64 <<< 40) ||| (b6.toUInt64 <<< 48) ||| (b7.toUInt64 <<< 56)

def getU32 (p : ℕ) : Reader UInt32 := do
  let b0 ← read f p
  let b1 ← read f (p + 1)
  let b2 ← read f (p + 2)
  let b3 ← read f (p + 3)
  return b0.toUInt32 ||| (b1.toUInt32 <<< 8) ||| (b2.toUInt32 <<< 16) ||| (b3.toUInt32 <<< 24)

def stripe (p : ℕ) (l : Lanes) : Reader Lanes := do
  let w1 ← getU64 f p
  let w2 ← getU64 f (p + 8)
  let w3 ← getU64 f (p + 16)
  let w4 ← getU64 f (p + 24)
  return ⟨laneRound l.v1 w1, laneRound l.v2 w2, laneRound l.v3 w3, laneRound l.v4 w4⟩

/-- `do … while (p <= limit)`; the first argument bounds the rounds. -/
def stripeLoop (limit : ℕ) : ℕ → ℕ → Lanes → Reader (ℕ × Lanes)
  | 0, _, _ => Comp.diverge
  | n + 1, p, l => do
    let l ← stripe f p l
    if p + 32 ≤ limit then stripeLoop limit n (p + 32) l else return (p + 32, l)

def head (len fuel : ℕ) : Reader (ℕ × UInt64) :=
  if len ≥ 32 then do
    let r ← stripeLoop f (len - 32) fuel 0 ⟨prime1 + prime2, prime2, 0, -prime1⟩
    return (r.1, mergeLanes r.2 len)
  else return (0, prime5 + UInt64.ofNat len)

def step16 (len : ℕ) (s : ℕ × UInt64) : Reader (ℕ × UInt64) :=
  if s.1 + 16 ≤ len then do
    let a ← getU64 f s.1
    let b ← getU64 f (s.1 + 8)
    return (s.1 + 16, rotl64 (s.2 + a * prime3) 23 * prime2 + rotl64 (s.2 + b * prime3) 23 * prime2)
  else return s

def step8 (len : ℕ) (s : ℕ × UInt64) : Reader (ℕ × UInt64) :=
  if s.1 + 8 ≤ len then do
    let a ← getU64 f s.1
    return (s.1 + 8, rotl64 (s.2 + a * prime3) 23 * prime2)
  else return s

def step4 (len : ℕ) (s : ℕ × UInt64) : Reader (ℕ × UInt64) :=
  if s.1 + 4 ≤ len then do
    let a ← getU32 f s.1
    return (s.1 + 4, rotl64 (s.2 + a.toUInt64 * prime4) 17 * prime1)
  else return s

/-- `while (p < end)`; the first argument bounds the tests. -/
def tailLoop (len : ℕ) : ℕ → ℕ × UInt64 → Reader (ℕ × UInt64)
  | 0, _ => Comp.diverge
  | n + 1, s =>
    if s.1 < len then do
      let b ← read f s.1
      tailLoop len n (s.1 + 1, rotl64 (s.2 + b.toUInt64 * prime5) 11 * prime1)
    else return s

/-- `xxh64` of `len` bytes, in which no loop may go round more often than `fuel` times. -/
def xxh64 (len fuel : ℕ) : Reader UInt64 := do
  let s ← head f len fuel
  let s ← step16 f len s
  let s ← step8 f len s
  let s ← step4 f len s
  let s ← tailLoop f len fuel s
  return avalanche s.2

end code

section words

variable (f : ℕ → UInt8) (p : ℕ)

theorem or_byte {a k w : ℕ} (ha : a < 2 ^ k) (b : UInt8) (hw : k + 8 ≤ w) :
    a ||| b.toNat <<< k % 2 ^ w = a + 2 ^ k * b.toNat := by
  have hlt : 2 ^ k * b.toNat < 2 ^ w := by
    calc 2 ^ k * b.toNat < 2 ^ k * 2 ^ 8 := Nat.mul_lt_mul_of_pos_left b.toNat_lt (Nat.two_pow_pos k)
      _ = 2 ^ (k + 8) := (Nat.pow_add 2 k 8).symm
      _ ≤ 2 ^ w := Nat.pow_le_pow_right (by omega) hw
  rw [Nat.shiftLeft_eq, Nat.mul_comm b.toNat, Nat.mod_eq_of_lt hlt, Nat.or_comm,
    ← Nat.two_pow_add_eq_or_of_lt ha, Nat.add_comm]

theorem getU64_spans : Spans (getU64 f p) (LittleEndian.getU64 f p) p 8 := by
  have hvalue (b0 b1 b2 b3 b4 b5 b6 b7 : UInt8) : (b0.toUInt64 ||| (b1.toUInt64 <<< 8) |||
      (b2.toUInt64 <<< 16) ||| (b3.toUInt64 <<< 24) ||| (b4.toUInt64 <<< 32) |||
      (b5.toUInt64 <<< 40) ||| (b6.toUInt64 <<< 48) ||| (b7.toUInt64 <<< 56)).toNat =
      b0.toNat + 256 * (b1.toNat + 256 * (b2.toNat + 256 * (b3.toNat + 256 * (b4.toNat + 256 *
        (b5.toNat + 256 * (b6.toNat + 256 * b7.toNat)))))) := by
    have h0 := b0.toNat_lt
    have h1 := b1.toNat_lt
    have h2 := b2.toNat_lt
    have h3 := b3.toNat_lt
    have h4 := b4.toNat_lt
    have h5 := b5.toNat_lt
    have h6 := b6.toNat_lt
    simp only [UInt64.toNat_or, UInt64.toNat_shiftLeft, UInt8.toNat_toUInt64, UInt64.reduceToNat,
      Nat.reduceMod]
    rw [or_byte (by omega) b1 (by omega), or_byte (by omega) b2 (by omega),
      or_byte (by omega) b3 (by omega), or_byte (by omega) b4 (by omega),
      or_byte (by omega) b5 (by omega), or_byte (by omega) b6 (by omega),
      or_byte (by omega) b7 (by omega)]
    omega
  have hword : LittleEndian.getU64 f p = _ := (UInt64.toNat_inj.mp ((hvalue (f p) (f (p + 1))
    (f (p + 2)) (f (p + 3)) (f (p + 4)) (f (p + 5)) (f (p + 6)) (f (p + 7))).trans
      (UInt64.toNat_ofNat_of_lt' (LittleEndian.getLE_lt f 8 p)).symm)).symm
  intro log
  have hrun : getU64 f p log = some (_, log ++ [p] ++ [p + 1] ++ [p + 2] ++ [p + 3] ++ [p + 4] ++
      [p + 5] ++ [p + 6] ++ [p + 7]) := rfl
  rw [hrun, hword]
  simp [List.range'_succ]

theorem getU32_spans : Spans (getU32 f p) (LittleEndian.getU32 f p) p 4 := by
  have hvalue (b0 b1 b2 b3 : UInt8) : (b0.toUInt32 ||| (b1.toUInt32 <<< 8) |||
      (b2.toUInt32 <<< 16) ||| (b3.toUInt32 <<< 24)).toNat =
      b0.toNat + 256 * (b1.toNat + 256 * (b2.toNat + 256 * b3.toNat)) := by
    have h0 := b0.toNat_lt
    have h1 := b1.toNat_lt
    have h2 := b2.toNat_lt
    simp only [UInt32.toNat_or, UInt32.toNat_shiftLeft, UInt8.toNat_toUInt32, UInt32.reduceToNat,
      Nat.reduceMod]
    rw [or_byte (by omega) b1 (by omega), or_byte (by omega) b2 (by omega),
      or_byte (by omega) b3 (by omega)]
    omega
  have hword : LittleEndian.getU32 f p = _ := (UInt32.toNat_inj.mp ((hvalue (f p) (f (p + 1))
    (f (p + 2)) (f (p + 3))).trans
      (UInt32.toNat_ofNat_of_lt' (LittleEndian.getLE_lt f 4 p)).symm)).symm
  intro log
  have hrun : getU32 f p log = some (_, log ++ [p] ++ [p + 1] ++ [p + 2] ++ [p + 3]) := rfl
  rw [hrun, hword]
  simp [List.range'_succ]

end words

section phases

variable (f : ℕ → UInt8)

theorem stripe_spans (p : ℕ) (l : Lanes) : Spans (stripe f p l) (Hash.stripe f p l) p 32 := by
  have h4 := (getU64_spans f (p + 24)).last fun w4 ↦ (⟨laneRound l.v1 (LittleEndian.getU64 f p),
    laneRound l.v2 (LittleEndian.getU64 f (p + 8)), laneRound l.v3 (LittleEndian.getU64 f (p + 16)),
    laneRound l.v4 w4⟩ : Lanes)
  refine (getU64_spans f p).bind ?_ rfl (show 8 + 24 = 32 from rfl)
  refine (getU64_spans f (p + 8)).bind ?_ rfl (show 8 + 16 = 24 from rfl)
  exact (getU64_spans f (p + 16)).bind h4 rfl rfl

theorem stripeLoop_spans {len p : ℕ} (n m : ℕ) (l : Lanes) (hp : p + 32 ≤ len)
    (hn : len < p + 32 * (n + 1)) (hm : len < p + 32 * (m + 1)) :
    ∃ k, Spans (stripeLoop f (len - 32) n p l) (stripes f (len - 32) m p l) p k ∧
      (stripes f (len - 32) m p l).1 = p + k ∧ p + k ≤ len ∧ len < p + k + 32 := by
  induction n generalizing p m l with
  | zero => omega
  | succ n ih =>
    obtain ⟨m, rfl⟩ : ∃ j, m = j + 1 := ⟨m - 1, by omega⟩
    have hround := stripe_spans f p l
    rw [stripeLoop, stripes]
    by_cases hnext : p + 32 ≤ len - 32
    · obtain ⟨k, hspan, hend, hle, hlt⟩ :=
        @ih (p + 32) m (Hash.stripe f p l) (by omega) (by omega) (by omega)
      rw [if_pos hnext]
      refine ⟨32 + k, hround.bind ?_ rfl rfl, by omega, by omega, by omega⟩
      rw [if_pos hnext]
      exact hspan
    · rw [if_neg hnext]
      refine ⟨32, hround.bind ?_ rfl (Nat.add_zero 32), rfl, hp, by omega⟩
      rw [if_neg hnext]
      exact .pure _ _

theorem head_spans {len fuel : ℕ} (hf : len < fuel) :
    ∃ k, Spans (head f len fuel) (Hash.head f len) 0 k ∧ (Hash.head f len).1 = k ∧ k ≤ len ∧
      len < k + 32 := by
  rw [head, Hash.head]
  by_cases hlen : len ≥ 32
  · obtain ⟨k, hspan, hend, hle, hlt⟩ := @stripeLoop_spans f len 0 fuel (len / 32)
      ⟨prime1 + prime2, prime2, 0, -prime1⟩ (by omega) (by omega) (by omega)
    rw [Nat.zero_add] at hend hle hlt
    rw [if_pos hlen, if_pos hlen]
    exact ⟨k, hspan.last fun r ↦ (r.1, mergeLanes r.2 len), hend, hle, hlt⟩
  · rw [if_neg hlen, if_neg hlen]
    exact ⟨0, .pure _ _, rfl, Nat.zero_le _, by omega⟩

variable (len : ℕ) (s : ℕ × UInt64)

theorem step16_spans (hs : s.1 ≤ len) (hlt : len < s.1 + 32) :
    ∃ k, Spans (step16 f len s) (Hash.step16 f len s) s.1 k ∧
      (Hash.step16 f len s).1 = s.1 + k ∧ s.1 + k ≤ len ∧ len < s.1 + k + 16 := by
  rw [step16, Hash.step16]
  by_cases hfits : s.1 + 16 ≤ len
  · rw [if_pos hfits, if_pos hfits]
    have hsecond := (getU64_spans f (s.1 + 8)).last fun b ↦ (s.1 + 16,
      rotl64 (s.2 + LittleEndian.getU64 f s.1 * prime3) 23 * prime2 +
        rotl64 (s.2 + b * prime3) 23 * prime2)
    exact ⟨16, (getU64_spans f s.1).bind hsecond rfl rfl, rfl, hfits, by omega⟩
  · rw [if_neg hfits, if_neg hfits]
    exact ⟨0, .pure _ _, rfl, hs, by omega⟩

theorem step8_spans (hs : s.1 ≤ len) (hlt : len < s.1 + 16) :
    ∃ k, Spans (step8 f len s) (Hash.step8 f len s) s.1 k ∧
      (Hash.step8 f len s).1 = s.1 + k ∧ s.1 + k ≤ len ∧ len < s.1 + k + 8 := by
  rw [step8, Hash.step8]
  by_cases hfits : s.1 + 8 ≤ len
  · rw [if_pos hfits, if_pos hfits]
    exact ⟨8, (getU64_spans f s.1).last fun a ↦
      (s.1 + 8, rotl64 (s.2 + a * prime3) 23 * prime2), rfl, hfits, by omega⟩
  · rw [if_neg hfits, if_neg hfits]
    exact ⟨0, .pure _ _, rfl, hs, by omega⟩

theorem step4_spans (hs : s.1 ≤ len) :
    ∃ k, Spans (step4 f len s) (Hash.step4 f len s) s.1 k ∧
      (Hash.step4 f len s).1 = s.1 + k ∧ s.1 + k ≤ len := by
  rw [step4, Hash.step4]
  by_cases hfits : s.1 + 4 ≤ len
  · rw [if_pos hfits, if_pos hfits]
    exact ⟨4, (getU32_spans f s.1).last fun a ↦
      (s.1 + 4, rotl64 (s.2 + a.toUInt64 * prime4) 17 * prime1), rfl, hfits⟩
  · rw [if_neg hfits, if_neg hfits]
    exact ⟨0, .pure _ _, rfl, hs⟩

theorem tailLoop_spans {len : ℕ} {s : ℕ × UInt64} {k fuel : ℕ} (hk : s.1 + k = len) (hf : k < fuel) :
    Spans (tailLoop f len fuel s) (tailBytes f k s) s.1 k := by
  induction k generalizing s fuel with
  | zero =>
    obtain ⟨n, rfl⟩ : ∃ n, fuel = n + 1 := ⟨fuel - 1, by omega⟩
    rw [tailLoop, if_neg (by omega)]
    exact .pure _ _
  | succ k ih =>
    obtain ⟨n, rfl⟩ : ∃ n, fuel = n + 1 := ⟨fuel - 1, by omega⟩
    rw [tailLoop, if_pos (by omega), tailBytes]
    exact (Spans.read f s.1).bind (ih (by dsimp only; omega) (by omega)) rfl (Nat.add_comm 1 k)

/-- The phases read one behind the other, from the first byte to the last. -/
theorem xxh64_spans {len fuel : ℕ} (hf : len < fuel) :
    Spans (xxh64 f len fuel) (xxh64Raw f len) 0 len := by
  obtain ⟨k₀, h₀, he₀, hle₀, hlt₀⟩ := head_spans f hf
  obtain ⟨k₁, h₁, he₁, hle₁, hlt₁⟩ := step16_spans f len (Hash.head f len) (by omega) (by omega)
  obtain ⟨k₂, h₂, he₂, hle₂, hlt₂⟩ := step8_spans f len (Hash.step16 f len (Hash.head f len))
    (by omega) (by omega)
  obtain ⟨k₃, h₃, he₃, hle₃⟩ :=
    step4_spans f len (Hash.step8 f len (Hash.step16 f len (Hash.head f len))) (by omega)
  have hrest : (Hash.step4 f len (Hash.step8 f len (Hash.step16 f len (Hash.head f len)))).1 +
      (len - (k₀ + k₁ + k₂ + k₃)) = len := by omega
  have h₄ := (@tailLoop_spans f len _ _ fuel hrest (by omega)).last fun s ↦ avalanche s.2
  have hfuel : len - (Hash.step4 f len (Hash.step8 f len (Hash.step16 f len (Hash.head f len)))).1 =
      len - (k₀ + k₁ + k₂ + k₃) := by omega
  rw [xxh64Raw, hfuel]
  refine h₀.bind (h₁.bind (h₂.bind (h₃.bind h₄ he₃.symm rfl) he₂.symm rfl) he₁.symm rfl) ?_ ?_
  · rw [he₀, Nat.zero_add]
  · omega

/-- `xxh64` ends, with the value that the index is built on, and has read every byte of the key
once and no other. -/
theorem reads_exactly (len : UInt32) {fuel : ℕ} (hf : len.toNat < fuel) :
    ∃ reads, xxh64 f len.toNat fuel [] = some (xxh64Raw f len.toNat, reads) ∧
      ∀ i, reads.count i = if i < len.toNat then 1 else 0 :=
  (xxh64_spans f hf).count

/-- 45 bytes: a stripe of 32, then 8, 4 and a single one. -/
theorem reads_exactly_stripe : ∃ reads, xxh64 (fun _ ↦ 47) (45 : UInt32).toNat 46 [] =
    some (xxh64Raw (fun _ ↦ 47) (45 : UInt32).toNat, reads) ∧
      ∀ i, reads.count i = if i < (45 : UInt32).toNat then 1 else 0 :=
  reads_exactly (fun _ ↦ 47) 45 (by decide)

end phases

end Xxfs.HashReads

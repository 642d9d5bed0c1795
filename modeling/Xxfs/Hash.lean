import Xxfs.Lib.LittleEndian

namespace Xxfs.Hash

open Xxfs.Lib.LittleEndian

def rotl64 (v : UInt64) (n : UInt64) : UInt64 := (v <<< n) ||| (v >>> (64 - n))

def prime1 : UInt64 := 0x9e3779b97f4a7c15
def prime2 : UInt64 := 0x85ebca6bcae6d1d5
def prime3 : UInt64 := 0xc2b2ae3cc27b9a21
def prime4 : UInt64 := 0x27d4eb2f165b7d03
def prime5 : UInt64 := 0x659e8513b3a1b327

structure Lanes where
  v1 : UInt64
  v2 : UInt64
  v3 : UInt64
  v4 : UInt64

def laneRound (v w : UInt64) : UInt64 := rotl64 (v + w * prime2) 31 * prime1

def stripe (f : ℕ → UInt8) (p : ℕ) (l : Lanes) : Lanes where
  v1 := laneRound l.v1 (getU64 f p)
  v2 := laneRound l.v2 (getU64 f (p + 8))
  v3 := laneRound l.v3 (getU64 f (p + 16))
  v4 := laneRound l.v4 (getU64 f (p + 24))

/-- The `do … while (p <= limit)` loop over 32-byte stripes, with the cursor it ends at. -/
def stripes (f : ℕ → UInt8) (limit : ℕ) : ℕ → ℕ → Lanes → ℕ × Lanes
  | 0, p, l => (p, l)
  | n + 1, p, l =>
    if p + 32 ≤ limit then stripes f limit n (p + 32) (stripe f p l) else (p + 32, stripe f p l)

def mergeLanes (l : Lanes) (len : ℕ) : UInt64 :=
  let h := rotl64 l.v1 1 + rotl64 l.v2 7 + rotl64 l.v3 12 + rotl64 l.v4 18
  let h := h + UInt64.ofNat len
  let h := rotl64 (l.v3 * prime1) 17 * prime4 + h
  let h := rotl64 (l.v4 * prime1) 17 * prime4 + h
  let h := rotl64 (l.v2 * prime1) 17 * prime4 + h
  rotl64 (l.v1 * prime1) 17 * prime4 + h

def head (f : ℕ → UInt8) (len : ℕ) : ℕ × UInt64 :=
  if len ≥ 32 then
    let r := stripes f (len - 32) (len / 32) 0 ⟨prime1 + prime2, prime2, 0, -prime1⟩
    (r.1, mergeLanes r.2 len)
  else (0, prime5 + UInt64.ofNat len)

def step16 (f : ℕ → UInt8) (len : ℕ) (s : ℕ × UInt64) : ℕ × UInt64 :=
  if s.1 + 16 ≤ len then
    (s.1 + 16, rotl64 (s.2 + getU64 f s.1 * prime3) 23 * prime2 +
      rotl64 (s.2 + getU64 f (s.1 + 8) * prime3) 23 * prime2)
  else s

def step8 (f : ℕ → UInt8) (len : ℕ) (s : ℕ × UInt64) : ℕ × UInt64 :=
  if s.1 + 8 ≤ len then (s.1 + 8, rotl64 (s.2 + getU64 f s.1 * prime3) 23 * prime2) else s

def step4 (f : ℕ → UInt8) (len : ℕ) (s : ℕ × UInt64) : ℕ × UInt64 :=
  if s.1 + 4 ≤ len then
    (s.1 + 4, rotl64 (s.2 + (getU32 f s.1).toUInt64 * prime4) 17 * prime1)
  else s

/-- The byte loop `while (p < end)`; the fuel is the number of bytes left. -/
def tailBytes (f : ℕ → UInt8) : ℕ → ℕ × UInt64 → ℕ × UInt64
  | 0, s => s
  | n + 1, s => tailBytes f n (s.1 + 1, rotl64 (s.2 + (f s.1).toUInt64 * prime5) 11 * prime1)

def avalanche (h : UInt64) : UInt64 :=
  let h := (h ^^^ (h >>> 33)) * prime2
  let h := (h ^^^ (h >>> 29)) * prime3
  let h := h ^^^ (h >>> 32)
  if h < 2 then h + 2 else h

def xxh64Raw (f : ℕ → UInt8) (len : ℕ) : UInt64 :=
  let s := step4 f len (step8 f len (step16 f len (head f len)))
  avalanche (tailBytes f (len - s.1) s).2

def xxh64 (key : List UInt8) : UInt64 := xxh64Raw (fun i ↦ key.getD i 0) key.length

end Xxfs.Hash

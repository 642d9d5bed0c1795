import Mathlib.Tactic.Ring
import Mathlib.Data.Nat.Basic

namespace Xxfs.Lib.LittleEndian

/-- The `j`-th byte of `v` in little-endian order. -/
def leByte (v j : ℕ) : UInt8 := UInt8.ofNat (v / 256 ^ j)

/-- The number held little-endian in the `w` bytes of `f` from `o` on. -/
def getLE (f : ℕ → UInt8) : ℕ → ℕ → ℕ
  | 0, _ => 0
  | w + 1, o => (f o).toNat + 256 * getLE f w (o + 1)

theorem leByte_succ (v j : ℕ) : leByte v (j + 1) = leByte (v / 256) j := by
  simp only [leByte, pow_succ', Nat.div_div_eq_div_mul]

theorem getLE_congr {f g : ℕ → UInt8} {w o o' : ℕ} (h : ∀ j < w, f (o + j) = g (o' + j)) :
    getLE f w o = getLE g w o' := by
  induction w generalizing o o' with
  | zero => rfl
  | succ w ih =>
    have h0 := h 0 (by omega)
    have hs : getLE f w (o + 1) = getLE g w (o' + 1) := ih (fun j hj ↦ by
      have := h (j + 1) (by omega)
      simpa only [Nat.add_assoc, Nat.add_comm 1 j] using this)
    simp only [Nat.add_zero] at h0
    simp only [getLE, h0, hs]

theorem getLE_leByte (v w : ℕ) : getLE (leByte v) w 0 = v % 256 ^ w := by
  suffices h : ∀ (w o v : ℕ) (f : ℕ → UInt8), (∀ j < w, f (o + j) = leByte v j) →
      getLE f w o = v % 256 ^ w by
    exact h w 0 v _ (fun j _ ↦ by rw [Nat.zero_add])
  clear v w
  intro w
  induction w with
  | zero => intro o v f _; simp [getLE, Nat.mod_one]
  | succ w ih =>
    intro o v f hf
    have h0 : (f o).toNat = v % 256 := by
      have := hf 0 (by omega)
      simp only [Nat.add_zero] at this
      simp [this, leByte]
    have hs : getLE f w (o + 1) = v / 256 % 256 ^ w := by
      apply ih
      intro j hj
      rw [← leByte_succ, ← hf (j + 1) (by omega)]
      congr 1
      omega
    rw [getLE, h0, hs, pow_succ', Nat.mod_mul]

theorem getLE_lt (f : ℕ → UInt8) (w o : ℕ) : getLE f w o < 256 ^ w := by
  induction w generalizing o with
  | zero => simp [getLE]
  | succ w ih =>
    have h := ih (o + 1)
    have hb := (f o).toNat_lt
    rw [getLE, pow_succ']
    omega

def getU64 (f : ℕ → UInt8) (o : ℕ) : UInt64 := UInt64.ofNat (getLE f 8 o)
def getU32 (f : ℕ → UInt8) (o : ℕ) : UInt32 := UInt32.ofNat (getLE f 4 o)
def getU16 (f : ℕ → UInt8) (o : ℕ) : UInt16 := UInt16.ofNat (getLE f 2 o)

@[simp] theorem getU64_leByte (v : UInt64) : getU64 (leByte v.toNat) 0 = v := by
  simp [getU64, getLE_leByte]

@[simp] theorem getU32_leByte (v : UInt32) : getU32 (leByte v.toNat) 0 = v := by
  simp [getU32, getLE_leByte]

@[simp] theorem getU16_leByte (v : UInt16) : getU16 (leByte v.toNat) 0 = v := by
  simp [getU16, getLE_leByte]

/-- The bytes of a number read in little-endian order are the ones it was read from. -/
theorem leByte_getLE (f : ℕ → UInt8) {w o j : ℕ} (hj : j < w) :
    leByte (getLE f w o) j = f (o + j) := by
  induction w generalizing o j with
  | zero => omega
  | succ w ih =>
    have hb := (f o).toNat_lt
    cases j with
    | zero =>
      apply UInt8.toNat_inj.mp
      rw [leByte, getLE, pow_zero, Nat.div_one, UInt8.toNat_ofNat', Nat.add_mul_mod_self_left,
        Nat.mod_eq_of_lt hb, Nat.add_zero]
    | succ j =>
      have hdiv : getLE f (w + 1) o / 256 = getLE f w (o + 1) := by
        rw [getLE]
        omega
      rw [leByte_succ, hdiv, ih (by omega), Nat.add_right_comm, Nat.add_assoc]

/-- A list of bytes packed into one number. -/
theorem getD_eq_leByte (l : List UInt8) (i : ℕ) :
    l.getD i 0 = leByte (l.foldr (fun b v ↦ b.toNat + 256 * v) 0) i := by
  induction l generalizing i with
  | nil => simp [leByte]
  | cons b l ih =>
    have hb := b.toNat_lt
    rw [List.foldr_cons]
    cases i with
    | zero =>
      apply UInt8.toNat_inj.mp
      rw [List.getD_cons_zero, leByte, pow_zero, Nat.div_one, UInt8.toNat_ofNat',
        Nat.add_mul_mod_self_left, Nat.mod_eq_of_lt hb]
    | succ i =>
      have hdiv (v : ℕ) : (b.toNat + 256 * v) / 256 = v := by omega
      rw [leByte_succ, List.getD_cons_succ, ih, hdiv]

theorem leByte_getU64 (f : ℕ → UInt8) (o : ℕ) {j : ℕ} (hj : j < 8) :
    leByte (getU64 f o).toNat j = f (o + j) := by
  rw [getU64, UInt64.toNat_ofNat_of_lt' (getLE_lt f 8 o), leByte_getLE f hj]

theorem leByte_getU32 (f : ℕ → UInt8) (o : ℕ) {j : ℕ} (hj : j < 4) :
    leByte (getU32 f o).toNat j = f (o + j) := by
  rw [getU32, UInt32.toNat_ofNat_of_lt' (getLE_lt f 4 o), leByte_getLE f hj]

theorem leByte_getU16 (f : ℕ → UInt8) (o : ℕ) {j : ℕ} (hj : j < 2) :
    leByte (getU16 f o).toNat j = f (o + j) := by
  rw [getU16, UInt16.toNat_ofNat_of_lt' (getLE_lt f 2 o), leByte_getLE f hj]

/-- Consecutive byte fields, each given by its width and its bytes. -/
def layout : List (ℕ × (ℕ → UInt8)) → ℕ → UInt8
  | [], _ => 0
  | (w, f) :: rest, i => if i < w then f i else layout rest (i - w)

def fieldOff : List (ℕ × (ℕ → UInt8)) → ℕ → ℕ
  | [], _ => 0
  | _ :: _, 0 => 0
  | s :: rest, k + 1 => s.1 + fieldOff rest k

theorem layout_field {segs : List (ℕ × (ℕ → UInt8))} {k w j : ℕ} {f : ℕ → UInt8}
    (hk : segs[k]? = some (w, f)) (hj : j < w) : layout segs (fieldOff segs k + j) = f j := by
  induction segs generalizing k with
  | nil => simp at hk
  | cons s rest ih =>
    obtain ⟨w', f'⟩ := s
    cases k with
    | zero =>
      simp only [List.getElem?_cons_zero, Option.some.injEq, Prod.mk.injEq] at hk
      obtain ⟨rfl, rfl⟩ := hk
      simp [fieldOff, layout, hj]
    | succ k =>
      simp only [List.getElem?_cons_succ] at hk
      simp only [fieldOff]
      rw [layout, if_neg (by omega), ← ih hk]
      congr 1
      omega

theorem getLE_layout {segs : List (ℕ × (ℕ → UInt8))} {k w o v : ℕ}
    (hk : segs[k]? = some (w, leByte v)) (ho : fieldOff segs k = o) :
    getLE (layout segs) w o = v % 256 ^ w := by
  rw [← getLE_leByte v w]
  apply getLE_congr
  intro j hj
  rw [← ho, layout_field hk hj, Nat.zero_add]

/-- Bytes within the first fields do not depend on the fields behind them. -/
theorem layout_prefix (xs ys zs : List (ℕ × (ℕ → UInt8))) {i : ℕ}
    (h : i < (xs.map Prod.fst).sum) : layout (xs ++ ys) i = layout (xs ++ zs) i := by
  induction xs generalizing i with
  | nil => simp at h
  | cons s rest ih =>
    obtain ⟨w, f⟩ := s
    simp only [List.map_cons, List.sum_cons] at h
    simp only [List.cons_append, layout]
    split
    · rfl
    · exact ih (by omega)

/-- Every field holds the bytes that `f` has at its place; the first one starts at `o`. -/
def Reads (f : ℕ → UInt8) : ℕ → List (ℕ × (ℕ → UInt8)) → Prop
  | _, [] => True
  | o, s :: rest => (∀ j < s.1, s.2 j = f (o + j)) ∧ Reads f (o + s.1) rest

theorem layout_of_reads {f : ℕ → UInt8} {segs : List (ℕ × (ℕ → UInt8))} {o i : ℕ}
    (h : Reads f o segs) (hi : i < (segs.map Prod.fst).sum) : layout segs i = f (o + i) := by
  induction segs generalizing o i with
  | nil => simp at hi
  | cons s rest ih =>
    simp only [List.map_cons, List.sum_cons] at hi
    rw [layout]
    split
    · exact h.1 i ‹_›
    · rw [ih h.2 (by omega)]
      congr 1
      omega

theorem layout_beyond {segs : List (ℕ × (ℕ → UInt8))} {i : ℕ}
    (hi : (segs.map Prod.fst).sum ≤ i) : layout segs i = 0 := by
  induction segs generalizing i with
  | nil => rfl
  | cons s rest ih =>
    simp only [List.map_cons, List.sum_cons] at hi
    rw [layout, if_neg (by omega), ih (by omega)]

end Xxfs.Lib.LittleEndian

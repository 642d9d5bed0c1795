import Xxfs.EccRepair
import Xxfs.InsertOnly
import Xxfs.ReadLock

namespace Xxfs.InodeVerify

open Xxfs.Lib.LittleEndian Xxfs.DiskFormat Xxfs.Checksum Xxfs.EccRepair Xxfs.Machine
open Xxfs.PagedIndex Xxfs.InodeCache Xxfs.DirCache Xxfs.Operations Xxfs.Hash
open Xxfs.PathName Xxfs.Volume Xxfs.Reach Xxfs.OperationFrames Xxfs.FreshVolume Xxfs.FreshIndex
open Xxfs.InsertOnly
open Xxfs.Lib.Computation Xxfs.Lib.Computation.Comp

/-- The first word at which the loop stops, or the number of words. -/
def StopsAt (f : ℕ → UInt8) (eccAt n k : ℕ) : Prop :=
  k ≤ n ∧ Passes f eccAt k ∧ (k = n ∨ syndrome f eccAt k ≠ 0 ∧ ¬ Locates (syndrome f eccAt k))

theorem StopsAt.le {f : ℕ → UInt8} {eccAt n k k' : ℕ} (h : StopsAt f eccAt n k)
    (h' : StopsAt f eccAt n k') : k ≤ k' := by
  by_contra hlt
  rcases h'.2.2 with rfl | ⟨h0, hl⟩
  · exact hlt h.1
  · exact (h.2.1 k' (by omega)).elim h0 hl

theorem eccCorrect_flips {f : ℕ → UInt8} {eccAt len : ℕ} (hat : 8 * nwords len ≤ eccAt + 8) :
    ∃ k, StopsAt f eccAt (nwords len) k ∧ (eccCorrect f len eccAt).2 = flips f eccAt k := by
  rcases passes_or_stops f eccAt (nwords len) with hp | ⟨k, hk, hp, h0, hl⟩
  · obtain ⟨r, hr, -⟩ := eccCorrect_passes hat hp
    exact ⟨_, ⟨le_rfl, hp, .inl rfl⟩, by rw [hr]⟩
  · exact ⟨k, ⟨hk.le, hp, .inr ⟨h0, hl⟩⟩, by rw [eccCorrect_stops hat hk hp h0 hl]⟩

section verify

variable {n : Inode}

/-- The ECC byte of word `i` of the inode against the stored one. -/
def inodeSyndrome (n : Inode) (i : ℕ) : UInt8 := syndrome n.encode inoEccOff i

theorem ecc_room : 8 * nwords inoEccOff ≤ inoEccOff + 8 := by decide

theorem verify_of_damage (h : ¬ Sealed n) : ∃ k,
    StopsAt n.encode inoEccOff (nwords inoEccOff) k ∧
      (inodeVerifyEcc n).2 = Inode.decode (flips n.encode inoEccOff k) := by
  obtain ⟨k, hk, hr⟩ := eccCorrect_flips (f := n.encode) ecc_room
  refine ⟨k, hk, ?_⟩
  unfold Sealed at h
  rw [inodeVerifyEcc, if_neg h, ← hr]
  dsimp only
  split <;> rfl

theorem decode_flips_eq {k : ℕ} :
    Inode.decode (flips n.encode inoEccOff k) = n ↔
      ∀ a < inodeSize, flips n.encode inoEccOff k a = n.encode a := by
  refine ⟨fun h a ha ↦ ?_, fun h ↦ ?_⟩
  · rw [← Inode.encode_decode (flips n.encode inoEccOff k) ha, h]
  · rw [Inode.decode_congr h, Inode.decode_encode]

theorem flips_located_ne {f : ℕ → UInt8} {eccAt k i : ℕ} (hi : i < k)
    (hl : Locates (syndrome f eccAt i)) :
    flips f eccAt k (8 * i + (bitPos (syndrome f eccAt i) - 1) / 8) ≠
      f (8 * i + (bitPos (syndrome f eccAt i) - 1) / 8) := by
  obtain ⟨-, hpos, hmax⟩ := id hl
  rw [flips_word hi (by omega), if_pos ⟨hl.ne_zero, rfl⟩]
  exact flip_ne _ (by omega)

theorem flips_none {f : ℕ → UInt8} {eccAt k : ℕ} (h : ∀ i < k, syndrome f eccAt i = 0) :
    flips f eccAt k = f := by
  induction k with
  | zero => exact flips_zero
  | succ k ih => rw [flips_clear (h k (Nat.lt_succ_self k)), ih fun i hi ↦ h i (by omega)]

/-- The first word whose ECC byte is not the stored one, if there is such a word, has a syndrome
that names no bit. -/
def FirstNamesNone (n : Inode) : Prop :=
  ∀ i < nwords inoEccOff, (∀ k < i, inodeSyndrome n k = 0) → ¬ Locates (inodeSyndrome n i)

theorem FirstNamesNone.clear (h : FirstNamesNone n) {k : ℕ} (hk : k ≤ nwords inoEccOff)
    (hp : Passes n.encode inoEccOff k) : ∀ i < k, inodeSyndrome n i = 0 := by
  intro i
  induction i using Nat.strong_induction_on with
  | _ i ih =>
    intro hi
    have hbefore (j : ℕ) (hj : j < i) : inodeSyndrome n j = 0 := ih j hj (by omega)
    exact (hp i hi).resolve_right (h i (by omega) hbefore)

theorem damaged_unchanged_iff (hs : ¬ Sealed n) :
    (inodeVerifyEcc n).2 = n ↔ FirstNamesNone n := by
  obtain ⟨k, hk, hr⟩ := verify_of_damage hs
  rw [hr, decode_flips_eq]
  refine ⟨fun hsame i hi hbefore hl ↦ ?_, fun hf a ha ↦ ?_⟩
  · -- the loop gets past word `i` and flips a bit in it
    have hik : i < k := by
      by_contra hki
      rcases hk.2.2 with rfl | ⟨h0, hbad⟩
      · exact hki hi
      · rcases Nat.lt_or_ge k i with hlt | hge
        · exact h0 (hbefore k hlt)
        · obtain rfl : i = k := by omega
          exact hbad hl
    have hwords : nwords inoEccOff = 62 := by decide
    have hsize : inodeSize = 560 := rfl
    have hmax := hl.2
    unfold inodeSyndrome at hmax
    exact flips_located_ne hik hl (hsame _ (by omega))
  · rw [flips_none (hf.clear hk.1 hk.2.1)]

/-- A failed check leaves the inode as it was exactly when the first damaged word cannot be
corrected. -/
theorem uncorrectable_unchanged_iff (n : Inode) (h : (inodeVerifyEcc n).1 = .uncorrectable) :
    (inodeVerifyEcc n).2 = n ↔ FirstNamesNone n := by
  refine damaged_unchanged_iff fun hs ↦ ?_
  rw [hs.verify] at h
  cases h

theorem verify_uncorrectable (h : ¬ Sealed n) {k : ℕ} (hk : k < nwords inoEccOff)
    (hp : Passes n.encode inoEccOff k) (h0 : inodeSyndrome n k ≠ 0)
    (hl : ¬ Locates (inodeSyndrome n k)) : (inodeVerifyEcc n).1 = .uncorrectable := by
  unfold Sealed at h
  rw [inodeVerifyEcc, if_neg h, eccCorrect_stops ecc_room hk hp h0 hl]
  dsimp only
  rw [if_neg fun hc ↦ by cases hc.1]

/-- A zero inode with a wrong checksum and the syndromes `s` and `t` in its first two words. -/
def torn (s t : UInt8) : Inode :=
  Inode.reseal Inode.zero (crc32c Inode.zero.encode inoCrcOff + 1) fun j ↦
    if j.val = 0 then eccWord Inode.zero.encode 0 ^^^ s else eccWord Inode.zero.encode 8 ^^^ t

theorem torn_not_sealed (s t : UInt8) : ¬ Sealed (torn s t) := by
  intro h
  rw [Sealed, torn, crc_inode_reseal] at h
  have hne : ∀ c : UInt32, c ≠ c + 1 := fun c hc ↦ by simp at hc
  exact hne _ h

theorem torn_syndrome (s t : UInt8) (i : Fin 62) (hi : i.val < 2) :
    inodeSyndrome (torn s t) i = if i.val = 0 then s else t := by
  have hcrc : inoCrcOff = 488 := rfl
  have hword : eccWord (torn s t).encode (8 * i) = eccWord Inode.zero.encode (8 * i) :=
    eccWord_congr fun j hj ↦ inode_reseal_encode _ _ _ (by omega)
  rw [inodeSyndrome, syndrome, hword, encode_iEcc, torn, Inode.reseal]
  dsimp only
  have hcancel (x y : UInt8) : x ^^^ y ^^^ x = y := by
    rw [UInt8.xor_comm, ← UInt8.xor_assoc, UInt8.xor_self, UInt8.zero_xor]
  by_cases h0 : i.val = 0
  · rw [if_pos h0, if_pos h0, h0]
    exact hcancel _ _
  · obtain h1 : i.val = 1 := by omega
    rw [if_neg h0, if_neg h0, h1]
    exact hcancel _ _

theorem torn_first (s t : UInt8) : inodeSyndrome (torn s t) 0 = s :=
  torn_syndrome s t 0 (by decide)

theorem torn_second (s t : UInt8) : inodeSyndrome (torn s t) 1 = t :=
  torn_syndrome s t 1 (by decide)

theorem torn_uncorrectable (t : UInt8) : (inodeVerifyEcc (torn 1 t)).1 = .uncorrectable := by
  refine verify_uncorrectable (torn_not_sealed 1 t) (k := 0) (by decide)
    (fun j hj ↦ absurd hj (Nat.not_lt_zero j)) ?_ ?_
  · rw [torn_first]
    decide
  · rw [torn_first]
    decide

theorem torn_first_none : FirstNamesNone (torn 1 0) := by
  intro i hi hbefore hl
  rcases Nat.eq_zero_or_pos i with rfl | hpos
  · rw [torn_first] at hl
    exact absurd hl (by decide)
  · have h0 := hbefore 0 hpos
    rw [torn_first] at h0
    exact absurd h0 (by decide)

theorem torn_unchanged : (inodeVerifyEcc (torn 1 0)).1 = .uncorrectable ∧
    (inodeVerifyEcc (torn 1 0)).2 = torn 1 0 :=
  ⟨torn_uncorrectable 0,
    (uncorrectable_unchanged_iff _ (torn_uncorrectable 0)).mpr torn_first_none⟩

/-- The syndrome of the first word names its bit 0, the one of the second word nothing: the bit
is flipped before the correction gives up. -/
theorem torn_changed : (inodeVerifyEcc (torn 0x81 1)).1 = .uncorrectable ∧
    (inodeVerifyEcc (torn 0x81 1)).2 ≠ torn 0x81 1 := by
  have hfirst : Locates (inodeSyndrome (torn 0x81 1) 0) := by
    rw [torn_first]
    decide
  have hp : Passes (torn 0x81 1).encode inoEccOff 1 := by
    intro j hj
    obtain rfl := Nat.lt_one_iff.mp hj
    exact .inr hfirst
  have h0 : inodeSyndrome (torn 0x81 1) 1 ≠ 0 := by
    rw [torn_second]
    decide
  have hl : ¬ Locates (inodeSyndrome (torn 0x81 1) 1) := by
    rw [torn_second]
    decide
  refine ⟨verify_uncorrectable (torn_not_sealed _ _) (by decide) hp h0 hl, fun hsame ↦ ?_⟩
  obtain ⟨k, hk, hr⟩ := verify_of_damage (torn_not_sealed 0x81 1)
  obtain rfl : k = 1 := by
    have hstop : StopsAt (torn 0x81 1).encode inoEccOff (nwords inoEccOff) 1 :=
      ⟨by decide, hp, .inr ⟨h0, hl⟩⟩
    exact le_antisymm (hk.le hstop) (hstop.le hk)
  rw [hr, decode_flips_eq] at hsame
  have hmax := hfirst.2
  have hsize : inodeSize = 560 := rfl
  unfold inodeSyndrome at hmax
  exact flips_located_ne Nat.one_pos hfirst (hsame _ (by omega))

end verify

section delivered

variable (env : Env)

/-- The inode that a value of the index leaves in the memory `ino`. -/
def landed (ino : ℕ → UInt8) (val : List UInt8) : Inode :=
  Inode.decode fun i ↦ if i < val.length then bytesAt val i else ino i

/-- `inode_paged_get` into the memory `ino`: a value shorter than an inode leaves the rest of it
as it was. -/
def inodePagedGetInto (ino : ℕ → UInt8) (key : Path) : FsM (Except Rc Inode) := do
  match ← pagedGet env key inodeSize with
  | .error rc => return .error rc
  | .ok val => return .ok (inodeVerifyEcc (landed ino val)).2

theorem landed_zero (val : List UInt8) : landed (fun _ ↦ 0) val = valToInode val := by
  refine Inode.decode_congr fun j _ ↦ ?_
  split
  · rfl
  · rename_i hj
    exact (List.getD_eq_default _ _ (by omega)).symm

theorem inodePagedGet_into (key : Path) :
    inodePagedGet env key = inodePagedGetInto env (fun _ ↦ 0) key := by
  rw [inodePagedGet, inodePagedGetInto]
  refine congrArg _ (funext fun r ↦ ?_)
  cases r with
  | error rc => rfl
  | ok val => dsimp only; rw [landed_zero]

/-- The checksum is right, or it is once the bits are flipped that the syndromes of the words
name, up to the first word whose syndrome names none. -/
def Restorable (n : Inode) : Prop :=
  Sealed n ∨ ∃ k, StopsAt n.encode inoEccOff (nwords inoEccOff) k ∧
    Sealed (Inode.decode (flips n.encode inoEccOff k))

theorem sealed_verify_iff (n : Inode) : Sealed (inodeVerifyEcc n).2 ↔ Restorable n := by
  by_cases hs : Sealed n
  · rw [hs.verify]
    exact ⟨.inl, fun _ ↦ hs⟩
  · obtain ⟨k, hk, hr⟩ := verify_of_damage hs
    rw [hr]
    refine ⟨fun h ↦ .inr ⟨k, hk, h⟩, fun h ↦ ?_⟩
    obtain ⟨k', hk', h'⟩ := h.resolve_left hs
    obtain rfl : k = k' := le_antisymm (hk.le hk') (hk'.le hk)
    exact h'

theorem getInto_sealed_iff (ino : ℕ → UInt8) (key : Path) (fs : Fs) :
    (∀ n fs', inodePagedGetInto env ino key fs = some (.ok n, fs') → Sealed n) ↔
      ∀ val fs', pagedGet env key inodeSize fs = some (.ok val, fs') →
        Restorable (landed ino val) := by
  refine ⟨fun h val fs' hget ↦ ?_, fun h n fs' hget ↦ ?_⟩
  · rw [← sealed_verify_iff]
    refine h _ fs' ?_
    rw [inodePagedGetInto, bind_apply, hget]
    rfl
  · obtain ⟨r, fs₁, h₁, h₂⟩ := of_bind hget
    cases r with
    | error rc => cases h₂
    | ok val =>
      obtain ⟨hn, rfl⟩ := Prod.mk.inj (Option.some.inj h₂)
      rw [← Except.ok.inj hn, sealed_verify_iff]
      exact h val fs₁ h₁

/-- What the lookups of `xxfs_stat`, of `xxfs_read` and `xxfs_unlink`, and of `xxfs_write` hand
to the rest of the function, with the lock held in `fs`. -/
inductive ActsOn (path : Path) (fs : Fs) (n : Inode) : Prop
  | stat {fs₀ fs' : Fs} {p : Path} (hl : LockFree fs₀) (hfs : held .read fs₀ = fs)
      (hp : pathNormalize p = path) (h : xxfsStat env p fs₀ = some (.ok n, fs'))
  | fetched {fs' : Fs} (h : fetchInode env path fs = some (some n, fs'))
  | current {fs' : Fs} (h : currentInode env path fs = some (.ok n, fs'))

theorem ActsOn.delivered {path : Path} {fs : Fs} {n : Inode}
    (hmiss : icacheInode fs.icache (xxh64 path) = none) (h : ActsOn env path fs n) :
    ∃ fs', inodePagedGet env path fs = some (.ok n, fs') := by
  cases h with
  | @stat fs₀ fs' p hl hfs hp h =>
    subst hfs hp
    rw [held_icache] at hmiss
    rw [xxfsStat, fsRlock, bracket_eq hl, bind_apply] at h
    simp only [get_apply, Option.bind_some, held_icache, hmiss] at h
    obtain ⟨r, fs₁, h₁, h₂⟩ := of_bind h
    cases r with
    | error rc =>
      obtain ⟨_, fs₂, -, h₃⟩ := of_bind h₂
      cases h₃
    | ok n' =>
      obtain ⟨_, fs₂, -, h₃⟩ := of_bind h₂
      obtain ⟨_, fs₃, -, h₄⟩ := of_bind h₃
      obtain ⟨hn, -⟩ := Prod.mk.inj (Option.some.inj h₄)
      exact ⟨fs₁, by rw [h₁, hn]⟩
  | fetched h =>
    simp only [fetchInode, bind_apply, get_apply, Option.bind_some] at h
    simp only [hmiss] at h
    obtain ⟨r, fs₁, h₁, h₂⟩ := of_bind h
    cases r with
    | error rc => cases h₂
    | ok n' =>
      obtain ⟨_, fs₂, -, h₃⟩ := of_bind h₂
      obtain ⟨hn, -⟩ := Prod.mk.inj (Option.some.inj h₃)
      exact ⟨fs₁, by rw [h₁, Option.some.inj hn]⟩
  | current h =>
    simp only [currentInode, bind_apply, get_apply, Option.bind_some, hmiss] at h
    exact ⟨_, h⟩

/-- `inode_paged_get` delivers only inodes with a right checksum, and the operations act only on
such inodes, exactly when the stored value can be restored. -/
theorem delivered_sealed_iff (path : Path) (fs : Fs) :
    ((∀ ino n fs', inodePagedGetInto env ino path fs = some (.ok n, fs') → Sealed n) ∧
      (icacheInode fs.icache (xxh64 path) = none → ∀ n, ActsOn env path fs n → Sealed n)) ↔
    ∀ ino val fs', pagedGet env path inodeSize fs = some (.ok val, fs') →
      Restorable (landed ino val) := by
  refine ⟨fun h ino ↦ (getInto_sealed_iff env ino path fs).mp (h.1 ino), fun h ↦ ?_⟩
  have hget (ino : ℕ → UInt8) := (getInto_sealed_iff env ino path fs).mpr (h ino)
  refine ⟨hget, fun hmiss n hn ↦ ?_⟩
  obtain ⟨fs', hfs⟩ := hn.delivered env hmiss
  rw [inodePagedGet_into] at hfs
  exact hget _ n fs' hfs

end delivered

/-- With the value of a torn inode in the index, `inode_paged_get` returns `XXFS_OK` and an inode
whose checksum is wrong. -/
theorem torn_delivered : ∃ fs, insertAll steady [([97], inodeToVal (torn 1 0))]
      (freshFs steady 1 0) = some ([.ok], fs) ∧
    ∃ n fs', inodePagedGet steady [97] fs = some (.ok n, fs') ∧ ¬ Sealed n := by
  have hlen : (inodeToVal (torn 1 0)).length = 560 := inodeToVal_length _
  have hkeys : (([([97], inodeToVal (torn 1 0))] : List (Path × List UInt8)).map Prod.fst).Nodup :=
    List.nodup_singleton _
  obtain ⟨fs, hrun, hget, -⟩ := inserted_exact steady_healthy
    (fresh_apply steady_healthy goodSize_one 0) hkeys (by simp [rootPath, slash]) (by simp [hlen])
    (freshOne_ample.mono (by simp))
  obtain ⟨fs', hval⟩ := hget _ List.mem_cons_self inodeSize (by rw [hlen]; exact le_rfl)
  refine ⟨fs, hrun, torn 1 0, fs', ?_, torn_not_sealed 1 0⟩
  rw [inodePagedGet, bind_apply, hval, Option.bind_some]
  dsimp only
  rw [valToInode_inodeToVal,
    (damaged_unchanged_iff (torn_not_sealed 1 0)).mpr torn_first_none]
  rfl

end Xxfs.InodeVerify

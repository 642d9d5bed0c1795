import Xxfs.NamespaceRuns
import Xxfs.WriteStores

namespace Xxfs.WriteStores

open Xxfs.DiskFormat Xxfs.Machine Xxfs.Allocator Xxfs.InodeCache Xxfs.PathName Xxfs.Hash
open Xxfs.Volume Xxfs.DirCache Xxfs.Operations
open Xxfs.Lib.Computation Xxfs.Lib.Computation.Comp Xxfs.Lib.Computation.Noting

section bounds

/-- Where the blocks of a file start when `xxfs_write` stores to them: where they are or, if the
file needs more of them, at the next block of the pool. -/
def extentFor (sb : Super) (n : Inode) (endOff : UInt64) : UInt64 :=
  if 0 < n.iSize ∧ n.iBlocks = 0 then
    if blocksFor endOff > 1 then nextOff (allocated sb) else nextOff sb
  else if blocksFor endOff > n.iBlocks then nextOff sb else n.iExtentOff

/-- The sum of an extent and an offset wraps around to an offset that a file can have. -/
def Wraps (extentOff off : UInt64) : Prop :=
  2 ^ 64 ≤ extentOff.toNat + off.toNat ∧ extentOff.toNat + off.toNat < 2 ^ 64 + 2 ^ 63

/-- The sum that `xxfs_write` goes by does not wrap around: that of offset and length for bytes
that seem to go into the inode, else that of extent and offset. -/
def Exact (sb : Super) (n : Inode) (off : UInt64) (len : UInt32) : Prop :=
  if (off + len.toUInt64).toNat ≤ inlineMax then off.toNat + len.toNat < 2 ^ 64
  else ¬Wraps (extentFor sb n (off + len.toUInt64)) off

variable {ext off blocks : UInt64} {len : ℕ}

/-- A store at the sum of extent and offset is inside the extent if the sum is exact, and the
bytes end within the blocks. -/
theorem image_inside {o k : ℕ} (hpos : (ext + off).toNat < 2 ^ 63) :
    (Event.image (ext + off).toNat len ext blocks).Inside o k ↔
      ¬Wraps ext off ∧ off.toNat + len ≤ blocks.toNat * 4096 := by
  have h₁ := ext.toNat_lt
  have h₂ := off.toNat_lt
  rw [UInt64.toNat_add] at hpos
  rw [Event.Inside, Wraps, UInt64.toNat_add]
  omega

theorem size_inside {old endOff : UInt64} {o k : ℕ}
    (h : endOff > old → endOff.toNat ≤ o + k ∧ endOff.toNat ≤ space blocks) :
    (Event.size old (maxSize old endOff) blocks).Inside o k := by
  rw [maxSize]
  split
  · obtain ⟨h₁, h₂⟩ := h ‹_›
    exact ⟨h₁.trans (le_max_right _ _), .inr h₂⟩
  · exact ⟨le_max_left _ _, .inl rfl⟩

theorem space_of_blocks (h : 0 < blocks.toNat) : space blocks = blocks.toNat * 4096 := by
  rw [space, if_neg]
  rintro rfl
  exact absurd h (by decide)

/-- A position that a file can have comes from an offset that leaves the other sums exact. -/
theorem fits_of_position {len : UInt32} (hgt : inlineMax < (off + len.toUInt64).toNat)
    (hb : blocksFor (off + len.toUInt64) ≤ blocks) (hpos : (ext + off).toNat < 2 ^ 63)
    (hw : ¬Wraps ext off) : (off + len.toUInt64).toNat = off.toNat + len.toNat ∧
      off.toNat + len.toNat ≤ blocks.toNat * 4096 ∧ 0 < blocks.toNat := by
  have h₁ := ext.toNat_lt
  have h₂ := off.toNat_lt
  have h₃ := len.toNat_lt
  rw [UInt64.toNat_add] at hpos
  rw [Wraps] at hw
  have hoff : off.toNat < 2 ^ 63 := by omega
  have hend : (off + len.toUInt64).toNat = off.toNat + len.toNat := by
    rw [UInt64.toNat_add, UInt32.toNat_toUInt64]
    exact Nat.mod_eq_of_lt (by omega)
  have hle := UInt64.le_iff_toNat_le.mp hb
  rw [Soundness.blocksFor_toNat (by omega)] at hle
  have h128 : inlineMax = 128 := rfl
  exact ⟨hend, by omega, by omega⟩

end bounds

section write

variable {env : Env} {fs fs' : Fs} {path : Path} {buf : ℕ → UInt8} {off : UInt64} {len : UInt32}
  {rc : Rc} {w : List Event}

/-- The inode that an operation finds under the path, once it has the lock. -/
def Finds (env : Env) (fs : Fs) (path : Path) (n : Inode) : Prop :=
  ∃ fs₁, (fsWlock >>= fun _ ↦ currentInode env (pathNormalize path)) fs = some (.ok n, fs₁)

theorem inline_iff {n : Inode} (hin : (off + len.toUInt64).toNat ≤ inlineMax) :
    (∀ e ∈ [Event.inline off.toNat len.toNat,
      .size n.iSize (maxSize n.iSize (off + len.toUInt64)) n.iBlocks],
        e.Inside off.toNat len.toNat) ↔ off.toNat + len.toNat < 2 ^ 64 := by
  have h128 : inlineMax = 128 := rfl
  constructor
  · intro h
    have : off.toNat + len.toNat ≤ inlineMax := h _ List.mem_cons_self
    omega
  · intro hlt
    have hend : (off + len.toUInt64).toNat = off.toNat + len.toNat := by
      rw [UInt64.toNat_add, UInt32.toNat_toUInt64]
      exact Nat.mod_eq_of_lt hlt
    have hsum : off.toNat + len.toNat ≤ inlineMax := by omega
    refine List.forall_mem_cons.mpr ⟨hsum, List.forall_mem_singleton.mpr
      (size_inside fun _ ↦ ⟨hend.le, hin.trans ?_⟩)⟩
    by_cases hb : n.iBlocks = 0
    · rw [space, if_pos hb]
    · rw [space, if_neg hb]
      have := Soundness.pos_of_ne_zero hb
      omega

/-- The last store of `xxfs_write`, to blocks. -/
def tailStores (env : Env) (p : Path) (buf : ℕ → UInt8) (off : UInt64) (len : UInt32) (n : Inode) :
    Traced Rc := do
  if ← storeImage env n.iExtentOff n.iBlocks buf len.toNat (n.iExtentOff + off) then
    note (.size n.iSize (maxSize n.iSize (off + len.toUInt64)) n.iBlocks)
    icachePut env (xxh64 p) p { n with iSize := maxSize n.iSize (off + len.toUInt64) }
    wreturn .ok
  else wreturn .eio

/-- The part of `xxfs_write` behind the inline case. -/
def blocksStores (env : Env) (p : Path) (buf : ℕ → UInt8) (off : UInt64) (len : UInt32)
    (n : Inode) : Traced Rc := do
  match ← leaveInlineStores env n with
  | .error rc => wreturn rc
  | .ok n =>
    match ← growExtentStores env n (blocksFor (off + len.toUInt64)) with
    | .error rc => wreturn rc
    | .ok n => tailStores env p buf off len n

theorem tail_iff {n : Inode} {p : Path} (hgt : inlineMax < (off + len.toUInt64).toNat)
    (hb : blocksFor (off + len.toUInt64) ≤ n.iBlocks)
    (h : (tailStores env p buf off len n).run fs = some ((rc, w), fs')) :
    (¬Wraps n.iExtentOff off → ∀ e ∈ w, e.Inside off.toNat len.toNat) ∧
      (rc = .ok → (∀ e ∈ w, e.Inside off.toNat len.toNat) → ¬Wraps n.iExtentOff off) := by
  obtain ⟨ok, w₁, fs₁, w₂, hstore, h₁, rfl⟩ := Noting.of_bind h
  have hrest : w₂ = [] ∧ rc = .eio ∨
      w₂ = [.size n.iSize (maxSize n.iSize (off + len.toUInt64)) n.iBlocks] ∧ ok = true := by
    split at h₁
    · obtain ⟨w₃, h₂, rfl⟩ := of_note_bind h₁
      obtain ⟨_, _, _, _, hput, hret, rfl⟩ := Noting.of_bind h₂
      obtain ⟨-, rfl⟩ := of_lift hput
      obtain ⟨-, rfl⟩ := of_lift hret
      exact .inr ⟨rfl, ‹_›⟩
    · obtain ⟨hret, rfl⟩ := of_lift h₁
      obtain ⟨rfl, -⟩ := Soundness.unlocked_cases hret
      exact .inl ⟨rfl, rfl⟩
  rcases (storeImage_notes hstore).2 with ⟨hpos, rfl⟩ | ⟨-, rfl, rfl⟩
  · constructor
    · intro hw
      obtain ⟨hend, hroom, hsome⟩ := fits_of_position hgt hb hpos hw
      have himg : (Event.image (n.iExtentOff + off).toNat len.toNat n.iExtentOff n.iBlocks).Inside
          off.toNat len.toNat := (image_inside hpos).mpr ⟨hw, hroom⟩
      rcases hrest with ⟨rfl, -⟩ | ⟨rfl, -⟩
      · exact List.forall_mem_singleton.mpr himg
      · refine List.forall_mem_cons.mpr ⟨himg, List.forall_mem_singleton.mpr (size_inside fun _ ↦
          ⟨hend.le, ?_⟩)⟩
        rw [space_of_blocks hsome, hend]
        exact hroom
    · intro _ hin
      have himg := hin _ (List.mem_append_left _ (List.mem_singleton_self _))
      exact ((image_inside hpos).mp himg).1
  · rcases hrest with ⟨rfl, rfl⟩ | ⟨-, hok⟩
    · exact ⟨fun _ ↦ by simp, fun hrc ↦ by cases hrc⟩
    · cases hok

theorem extentFor_eq {sb₁ sb₂ : Super} {n n₁ n₂ : Inode} {endOff : UInt64}
    (h₁ : if 0 < n.iSize ∧ n.iBlocks = 0 then n₁.iExtentOff = nextOff sb₁ ∧ n₁.iBlocks = 1 ∧
      sb₂ = allocated sb₁ else n₁ = n ∧ sb₂ = sb₁)
    (h₂ : if blocksFor endOff > n₁.iBlocks then n₂.iExtentOff = nextOff sb₂ ∧
      n₂.iBlocks = blocksFor endOff else n₂ = n₁) :
    n₂.iExtentOff = extentFor sb₁ n endOff ∧ blocksFor endOff ≤ n₂.iBlocks := by
  rw [extentFor]
  split at h₁
  · rename_i hleave
    obtain ⟨ho₁, hb₁, rfl⟩ := h₁
    rw [hb₁] at h₂
    rw [if_pos hleave]
    split at h₂
    · rename_i hgrow
      rw [if_pos hgrow]
      exact ⟨h₂.1, UInt64.le_of_eq h₂.2.symm⟩
    · rename_i hstay
      rw [if_neg hstay, h₂, hb₁]
      exact ⟨ho₁, UInt64.not_lt.mp hstay⟩
  · rename_i hleave
    obtain ⟨rfl, rfl⟩ := h₁
    rw [if_neg hleave]
    split at h₂
    · rename_i hgrow
      rw [if_pos hgrow]
      exact ⟨h₂.1, UInt64.le_of_eq h₂.2.symm⟩
    · rename_i hstay
      rw [if_neg hstay, h₂]
      exact ⟨rfl, UInt64.not_lt.mp hstay⟩

theorem blocks_iff {n : Inode} {p : Path} (hgt : inlineMax < (off + len.toUInt64).toNat)
    (h : (blocksStores env p buf off len n).run fs = some ((rc, w), fs')) :
    (¬Wraps (extentFor fs.sb n (off + len.toUInt64)) off →
      ∀ e ∈ w, e.Inside off.toNat len.toNat) ∧
    (rc = .ok → (∀ e ∈ w, e.Inside off.toNat len.toNat) →
      ¬Wraps (extentFor fs.sb n (off + len.toUInt64)) off) := by
  obtain ⟨r, w₁, fs₁, w₂, hleave, h₁, rfl⟩ := Noting.of_bind h
  obtain ⟨hin₁, hne₁, hleft⟩ : (∀ e ∈ w₁, e.Inside off.toNat len.toNat) ∧ _ :=
    leaveInline_notes hleave
  have hfail {x : Rc} {w' : List Event} {fs₁ : Fs} (hne : (.error x : Except Rc Inode) ≠ .error .ok)
      (hret : (liftM (wreturn x) : Traced Rc).run fs₁ = some ((rc, w'), fs')) :
      w' = [] ∧ rc ≠ .ok := by
    obtain ⟨hrun, rfl⟩ := of_lift hret
    obtain ⟨rfl, -⟩ := Soundness.unlocked_cases hrun
    exact ⟨rfl, fun hrc ↦ hne (by rw [hrc])⟩
  cases r with
  | error x =>
    obtain ⟨rfl, hrc⟩ := hfail hne₁ h₁
    rw [List.append_nil]
    exact ⟨fun _ ↦ hin₁, fun h ↦ (hrc h).elim⟩
  | ok n₁ =>
    obtain ⟨r, w₃, fs₂, w₄, hgrow, h₂, rfl⟩ := Noting.of_bind h₁
    obtain ⟨hin₂, hne₂, hgrown⟩ : (∀ e ∈ w₃, e.Inside off.toNat len.toNat) ∧ _ :=
      growExtent_notes hgrow
    cases r with
    | error x =>
      obtain ⟨rfl, hrc⟩ := hfail hne₂ h₂
      rw [List.append_nil]
      exact ⟨fun _ ↦ List.forall_mem_append.mpr ⟨hin₁, hin₂⟩, fun h ↦ (hrc h).elim⟩
    | ok n₂ =>
      obtain ⟨hext, hb⟩ := extentFor_eq (hleft n₁ rfl) (hgrown n₂ rfl)
      obtain ⟨htail, hback⟩ := tail_iff hgt hb h₂
      rw [← hext]
      refine ⟨fun hw ↦ ?_, fun hrc hin ↦ ?_⟩
      · exact List.forall_mem_append.mpr ⟨hin₁, List.forall_mem_append.mpr ⟨hin₂, htail hw⟩⟩
      · exact hback hrc (List.forall_mem_append.mp (List.forall_mem_append.mp hin).2).2

/-- What `xxfs_write` stores is inside the file if the sum that it goes by is exact, and if it
succeeds only then. -/
theorem write_iff (hx : xxfsWrite env path buf off len fs = some (rc, fs')) : ∃ w,
    (xxfsWriteStores env path buf off len).run fs = some ((rc, w), fs') ∧
      ((∀ n, Finds env fs path n → n.iFileType ≠ ftDir → Exact fs.sb n off len) →
        ∀ e ∈ w, e.Inside off.toNat len.toNat) ∧
      (rc = .ok → (∀ e ∈ w, e.Inside off.toNat len.toNat) →
        ∀ n, Finds env fs path n → n.iFileType ≠ ftDir → Exact fs.sb n off len) := by
  rw [← erase_write] at hx
  obtain ⟨w, h⟩ := exists_notes hx
  refine ⟨w, h, ?_⟩
  rw [xxfsWriteStores] at h
  split at h
  · obtain ⟨rfl, rfl, -⟩ := of_pure h
    exact ⟨fun _ ↦ by simp, fun hrc ↦ by cases hrc⟩
  obtain ⟨_, w₁, fs₁, w₂, hlift, h₁, rfl⟩ := Noting.of_bind h
  obtain ⟨hlock, rfl⟩ := of_lift hlift
  obtain ⟨r, w₃, fs₂, w₄, hlift, h₂, rfl⟩ := Noting.of_bind h₁
  obtain ⟨hcur, rfl⟩ := of_lift hlift
  have hfind : (fsWlock >>= fun _ ↦ currentInode env (pathNormalize path)) fs = some (r, fs₂) := by
    rw [bind_apply, hlock]
    exact hcur
  have hsb : fs₂.sb = fs.sb :=
    (currentInode_sameSb env _ _ _ _ hcur).sb.trans (fsWlock_sameSb _ _ _ hlock).sb
  have honly {n : Inode} (hn : Finds env fs path n) : r = .ok n := by
    obtain ⟨fs₃, hn⟩ := hn
    rw [hfind] at hn
    exact (Prod.mk.inj (Option.some.inj hn)).1
  rw [List.nil_append, List.nil_append]
  cases r with
  | error _ =>
    obtain ⟨hret, rfl⟩ := of_lift h₂
    exact ⟨fun _ ↦ by simp, fun _ _ n hn ↦ by cases honly hn⟩
  | ok n =>
    dsimp only at h₂
    split at h₂
    · obtain ⟨hret, rfl⟩ := of_lift h₂
      exact ⟨fun _ ↦ by simp, fun _ _ n' hn' ht ↦ by cases honly hn'; exact (ht ‹_›).elim⟩
    rename_i ht
    suffices hn : (Exact fs.sb n off len → ∀ e ∈ w₄, e.Inside off.toNat len.toNat) ∧
        (rc = .ok → (∀ e ∈ w₄, e.Inside off.toNat len.toNat) → Exact fs.sb n off len) from
      ⟨fun hall ↦ hn.1 (hall n ⟨_, hfind⟩ ht), fun hrc hin n' hn' _ ↦ by
        cases honly hn'; exact hn.2 hrc hin⟩
    rw [Exact]
    split at h₂
    · -- the bytes go into the inode
      rename_i hin
      obtain ⟨w₅, h₃, rfl⟩ := of_note_bind h₂
      obtain ⟨w₆, h₄, rfl⟩ := of_note_bind h₃
      obtain ⟨_, _, _, _, hput, hret, rfl⟩ := Noting.of_bind h₄
      obtain ⟨-, rfl⟩ := of_lift hput
      obtain ⟨-, rfl⟩ := of_lift hret
      rw [if_pos hin]
      exact ⟨(inline_iff hin).mpr, fun _ ↦ (inline_iff hin).mp⟩
    · -- the bytes go to blocks
      rename_i hgt
      rw [if_neg hgt, ← hsb]
      exact blocks_iff (Nat.not_le.mp hgt) h₂

end write

section handle

variable {env : Env} {fs fs' : Fs} {fp fp' : File} {buf : ℕ → UInt8} {off count : UInt64}
  {w : List Event}

/-- The blocks of the handle do not reach to `endOff`, as `xxfs_write_fd` tests it. -/
def Grows (fp : File) (endOff : UInt64) : Prop :=
  endOff.toNat > inlineMax ∧ fp.blocks = 0 ∨ endOff > fp.blocks * 4096

instance (fp : File) (endOff : UInt64) : Decidable (Grows fp endOff) :=
  inferInstanceAs (Decidable (_ ∨ _))

/-- The sums that `xxfs_write_fd` goes by do not wrap around: that of offset and length, rounded up
to a block if the handle needs blocks, and that of extent and offset. -/
def ExactFd (sb : Super) (fp : File) (off count : UInt64) : Prop :=
  if Grows fp (off + count) then
    off.toNat + count.toNat + 4095 < 2 ^ 64 ∧ ¬Wraps (nextOff sb) off
  else (off.toNat + count.toNat < 2 ^ 64 ∨ off.toNat + count.toNat ≤ fp.blocks.toNat * 4096) ∧
    ¬Wraps fp.extentOff off

theorem growHandle_notes {endOff : UInt64} {o k : ℕ} {r : Except Rc File}
    (h : (growHandleStores env fp endOff).run fs = some ((r, w), fs')) :
    ((Grows fp endOff → endOff.toNat + 4095 < 2 ^ 64) → ∀ e ∈ w, e.Inside o k) ∧
      ∀ fp', r = .ok fp' → (if Grows fp endOff then fp'.extentOff = nextOff fs.sb ∧
        fp'.blocks = blocksFor endOff ∧ fp'.size = fp.size else fp' = fp) := by
  have hret {x : Except Rc File} {w' : List Event} {fs₁ : Fs}
      (hlift : (liftM (wreturn x) : Traced _).run fs₁ = some ((r, w'), fs')) :
      r = x ∧ w' = [] := by
    obtain ⟨hrun, rfl⟩ := of_lift hlift
    exact ⟨(Soundness.unlocked_cases hrun).1, rfl⟩
  rw [growHandleStores] at h
  split at h
  · rename_i hfirst
    obtain ⟨_, w₁, fs₁, w₂, hlift, h₁, rfl⟩ := Noting.of_bind h
    obtain ⟨hlock, rfl⟩ := of_lift hlift
    obtain ⟨newOff, w₃, fs₂, w₄, hlift, h₂, rfl⟩ := Noting.of_bind h₁
    obtain ⟨halloc, rfl⟩ := of_lift hlift
    have hans := pageAllocN_answer halloc
    rw [(fsWlock_sameSb _ _ _ hlock).sb] at hans
    split at h₂
    · obtain ⟨rfl, rfl⟩ := hret h₂
      exact ⟨fun _ ↦ by simp, fun fp' hfp ↦ by cases hfp⟩
    · rename_i h0
      obtain rfl := hans.resolve_left h0
      obtain ⟨rfl, rfl⟩ := hret h₂
      refine ⟨fun _ ↦ by simp, fun fp' hfp ↦ ?_⟩
      cases hfp
      rw [if_pos (.inl hfirst)]
      exact ⟨rfl, rfl, rfl⟩
  · rename_i hfirst
    split at h
    · rename_i hsecond
      obtain ⟨_, w₁, fs₁, w₂, hlift, h₁, rfl⟩ := Noting.of_bind h
      obtain ⟨hlock, rfl⟩ := of_lift hlift
      obtain ⟨newOff, w₃, fs₂, w₄, hlift, h₂, rfl⟩ := Noting.of_bind h₁
      obtain ⟨halloc, rfl⟩ := of_lift hlift
      have hans := pageAllocN_answer halloc
      rw [(fsWlock_sameSb _ _ _ hlock).sb] at hans
      split at h₂
      · obtain ⟨rfl, rfl⟩ := hret h₂
        exact ⟨fun _ ↦ by simp, fun fp' hfp ↦ by cases hfp⟩
      · rename_i h0
        obtain rfl := hans.resolve_left h0
        have hend : r = .ok { fp with extentOff := nextOff fs.sb, blocks := blocksFor endOff } ∧
            (endOff.toNat + 4095 < 2 ^ 64 → ∀ e ∈ w₄, e.Inside o k) := by
          dsimp only at h₂
          split at h₂
          · obtain ⟨u, w₅, fs₃, w₆, hcopy, h₃, rfl⟩ := Noting.of_bind h₂
            obtain ⟨rfl, rfl⟩ := hret h₃
            refine ⟨rfl, fun hend ↦ ?_⟩
            have hlt := UInt64.lt_iff_toNat_lt.mp hsecond
            have hroom : (fp.blocks * 4096).toNat ≤ (blocksFor endOff).toNat * 4096 := by
              rw [Soundness.blocksFor_toNat hend]
              omega
            simpa using copyExtent_notes hcopy hroom
          · obtain ⟨rfl, rfl⟩ := hret h₂
            exact ⟨rfl, fun _ ↦ by simp⟩
        obtain ⟨rfl, hin⟩ := hend
        have hgrows : Grows fp endOff := .inr hsecond
        refine ⟨fun hexact ↦ by simpa using hin (hexact hgrows), fun fp' hfp ↦ ?_⟩
        cases hfp
        rw [if_pos hgrows]
        exact ⟨rfl, rfl, rfl⟩
    · rename_i hsecond
      obtain ⟨rfl, rfl, -⟩ := of_pure h
      refine ⟨fun _ ↦ by simp, fun fp' hfp ↦ ?_⟩
      cases hfp
      have hstay : ¬Grows fp endOff := not_or.mpr ⟨hfirst, hsecond⟩
      rw [if_neg hstay]

/-- The blocks that a handle gets hold the bytes if their end can be rounded up to a block. -/
theorem grown_iff (hc : count ≠ 0) :
    off.toNat + count.toNat ≤ (blocksFor (off + count)).toNat * 4096 ↔
      off.toNat + count.toNat + 4095 < 2 ^ 64 := by
  have h₁ := off.toNat_lt
  have h₂ := count.toNat_lt
  have hpos := Soundness.pos_of_ne_zero hc
  have hb : (blocksFor (off + count)).toNat =
      ((off.toNat + count.toNat) % 2 ^ 64 + 4095) % 2 ^ 64 / 4096 := by
    rw [blocksFor, UInt64.toNat_div, UInt64.toNat_add, UInt64.toNat_add]
    rfl
  rw [hb]
  omega

/-- The sums that `xxfs_write_fd` goes by say whether its last store is inside the blocks. -/
theorem exactFd_iff {sb : Super} {fp₁ : File} (hc : count ≠ 0)
    (hgrown : if Grows fp (off + count) then fp₁.extentOff = nextOff sb ∧
      fp₁.blocks = blocksFor (off + count) ∧ fp₁.size = fp.size else fp₁ = fp) :
    ExactFd sb fp off count ↔
      ¬Wraps fp₁.extentOff off ∧ off.toNat + count.toNat ≤ fp₁.blocks.toNat * 4096 := by
  rw [ExactFd]
  split at hgrown
  · rename_i hg
    obtain ⟨hext, hb, -⟩ := hgrown
    rw [if_pos hg, hext, hb, grown_iff hc, and_comm]
  · rename_i hg
    rw [if_neg hg, hgrown, and_comm]
    refine and_congr_right fun _ ↦ ⟨fun h ↦ h.elim (fun hlt ↦ ?_) id, .inr⟩
    have hle := UInt64.le_iff_toNat_le.mp (UInt64.not_lt.mp (not_or.mp hg).2)
    rw [UInt64.toNat_add, UInt64.toNat_mul, Nat.mod_eq_of_lt hlt] at hle
    exact hle.trans (Nat.mod_le _ _)

/-- What `xxfs_write_fd` stores is inside the blocks of the handle if the sums that it goes by are
exact, and if it succeeds only then. -/
theorem writeFd_iff {r : Except Rc UInt64}
    (hx : xxfsWriteFd env fp buf count off fs = some ((r, fp'), fs')) : ∃ w,
    (xxfsWriteFdStores env fp buf count off).run fs = some (((r, fp'), w), fs') ∧
      (ExactFd fs.sb fp off count → ∀ e ∈ w, e.Inside off.toNat count.toNat) ∧
      (∀ k, r = .ok k → (∀ e ∈ w, e.Inside off.toNat count.toNat) →
        ExactFd fs.sb fp off count) := by
  rw [← erase_writeFd] at hx
  obtain ⟨w, h⟩ := exists_notes hx
  refine ⟨w, h, ?_⟩
  rw [xxfsWriteFdStores] at h
  split at h
  · obtain ⟨hr, rfl, -⟩ := of_pure h
    obtain ⟨rfl, -⟩ := Prod.mk.inj hr
    exact ⟨fun _ ↦ by simp, fun k hk ↦ by cases hk⟩
  rename_i hc
  obtain ⟨r₁, w₁, fs₁, w₂, hgrow, h₁, rfl⟩ := Noting.of_bind h
  obtain ⟨hin, hgrown⟩ := growHandle_notes (o := off.toNat) (k := count.toNat) hgrow
  replace hin (hexact : ExactFd fs.sb fp off count) : ∀ e ∈ w₁, e.Inside off.toNat count.toNat := by
    refine hin fun hg ↦ ?_
    rw [ExactFd, if_pos hg] at hexact
    rw [UInt64.toNat_add]
    omega
  cases r₁ with
  | error x =>
    obtain ⟨hr, rfl, -⟩ := of_pure h₁
    obtain ⟨rfl, -⟩ := Prod.mk.inj hr
    rw [List.append_nil]
    exact ⟨hin, fun k hk ↦ by cases hk⟩
  | ok fp₁ =>
    have hexact := exactFd_iff hc (hgrown fp₁ rfl)
    obtain ⟨ok, w₃, fs₂, w₄, hstore, h₂, rfl⟩ := Noting.of_bind h₁
    have hrest : w₄ = [] ∧ (∀ k, r ≠ .ok k) ∨
        w₄ = [.size fp₁.size (maxSize fp₁.size (off + count)) fp₁.blocks] ∧ ok = true := by
      split at h₂
      · obtain ⟨w₅, h₃, rfl⟩ := of_note_bind h₂
        obtain ⟨-, rfl, -⟩ := of_pure h₃
        exact .inr ⟨rfl, ‹_›⟩
      · obtain ⟨hr, rfl, -⟩ := of_pure h₂
        obtain ⟨rfl, -⟩ := Prod.mk.inj hr
        exact .inl ⟨rfl, fun k hk ↦ by cases hk⟩
    rcases (storeImage_notes hstore).2 with ⟨hpos, rfl⟩ | ⟨-, rfl, rfl⟩
    · refine ⟨fun he ↦ ?_, fun k _ hall ↦ ?_⟩
      · have himg := (image_inside (o := off.toNat) (k := count.toNat) hpos).mpr (hexact.mp he)
        refine List.forall_mem_append.mpr ⟨hin he, List.forall_mem_append.mpr
          ⟨List.forall_mem_singleton.mpr himg, ?_⟩⟩
        rcases hrest with ⟨rfl, -⟩ | ⟨rfl, -⟩
        · simp
        · refine List.forall_mem_singleton.mpr (size_inside fun hgt ↦ ⟨?_, ?_⟩)
          · rw [UInt64.toNat_add]
            exact Nat.mod_le _ _
          · have hroom := (hexact.mp he).2
            have hpos := Soundness.pos_of_ne_zero hc
            rw [space_of_blocks (by omega), UInt64.toNat_add]
            exact (Nat.mod_le _ _).trans hroom
      · have hmid := (List.forall_mem_append.mp (List.forall_mem_append.mp hall).2).1
        exact hexact.mpr ((image_inside hpos).mp (hmid _ (List.mem_singleton_self _)))
    · rcases hrest with ⟨rfl, hne⟩ | ⟨-, hok⟩
      · rw [List.append_nil, List.append_nil]
        exact ⟨hin, fun k hk ↦ (hne k hk).elim⟩
      · cases hok

end handle

section examples

open Xxfs.Soundness Xxfs.NamespaceRuns Xxfs.Runs Xxfs.CacheMap Xxfs.FreshVolume

theorem few_write : ∃ fs n, Reachable steady fs ∧ Finds steady fs [slash, 97] n ∧
    n.iFileType ≠ ftDir ∧ ∀ buf off len, len ≠ 0 → (off + UInt32.toUInt64 len).toNat ≤ inlineMax →
      ∃ fs', xxfsWrite steady [slash, 97] buf off len fs = some (.ok, fs') := by
  have hmem : pathNormalize [slash, 97] ∈ fewPaths := by decide
  obtain ⟨m, fs, hr, hs, -, hA⟩ := first_file fewPaths_names
    (careful_first fewPaths_names 0 0 0 hmem (by decide) (by decide)) hmem (by decide) (by decide)
  have hn := hA.fresh
  have ht : (createdInode (pathNormalize [slash, 97]) 0 0 0 (freshFs steady 1 0).cowGen).iFileType =
      ftReg := (sameBody_sealed _).type
  generalize createdInode (pathNormalize [slash, 97]) 0 0 0 (freshFs steady 1 0).cowGen = n at hn ht
  have hreg : n.iFileType ≠ ftDir := by
    rw [ht]
    decide
  obtain ⟨l, hlock⟩ : ∃ l, fsWlock fs = some ((), { fs with lock := l }) := by
    simp only [fsWlock, fsLock, modify_apply]
    split
    · exact ⟨fs.lock, rfl⟩
    · exact ⟨_, rfl⟩
  have hL := hs.relock l
  obtain ⟨fs₁, hcur, hs₁, -, -⟩ := hL.sound.current steady_healthy fewPaths_names hmem
  rw [hL.seen, hn] at hcur
  refine ⟨fs, n, hr.reachable, ⟨fs₁, ?_⟩, hreg, fun buf off len hlen hin ↦ ?_⟩
  · rw [bind_apply, hlock]
    exact hcur
  · obtain ⟨c, t, hput, -⟩ := icachePut_apply steady_healthy fewPaths_names.distinct hs₁.settled hmem
      { n with
        iUnion := arrCopy n.iUnion off.toNat len.toNat buf
        iSize := maxSize n.iSize (off + len.toUInt64) }
    rw [xxfsWrite, if_neg hlen, bind_apply, hlock, Option.bind_some, bind_apply, hcur,
      Option.bind_some]
    dsimp only [IndexState.answered]
    rw [if_neg hreg, if_pos hin, bind_apply, hput, Option.bind_some]
    exact ⟨_, rfl⟩

end examples

end Xxfs.WriteStores

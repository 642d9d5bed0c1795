import Xxfs.AttrSteps
import Xxfs.Lib.Noting
import Xxfs.ReadLock

namespace Xxfs.WriteStores

open Xxfs.DiskFormat Xxfs.Machine Xxfs.Allocator Xxfs.InodeCache Xxfs.PathName Xxfs.Hash
open Xxfs.PageCache Xxfs.PagedIndex Xxfs.Volume Xxfs.DirCache Xxfs.Operations Xxfs.ReadLock
open Xxfs.Lib.Computation Xxfs.Lib.Computation.Comp Xxfs.Lib.Computation.Noting

/-- What a write does to a file: bytes stored to `i_inline`, bytes stored to the image while the
file has `blocks` blocks at `extentOff`, and a new `i_size`. -/
inductive Event
  | inline (start len : ℕ)
  | image (start len : ℕ) (extentOff blocks : UInt64)
  | size (old new blocks : UInt64)

def space (blocks : UInt64) : ℕ := if blocks = 0 then inlineMax else blocks.toNat * 4096

/-- The event stays inside the file, for a write of `len` bytes at `off`. The sum is exact. -/
def Event.Inside (off len : ℕ) : Event → Prop
  | .inline start k => start + k ≤ inlineMax
  | .image start k extentOff blocks =>
    extentOff.toNat ≤ start ∧ start + k ≤ extentOff.toNat + blocks.toNat * 4096
  | .size old new blocks =>
    new.toNat ≤ max old.toNat (off + len) ∧ (new = old ∨ new.toNat ≤ space blocks)

abbrev Traced := Noting Fs Event

section traced

variable (env : Env)

/-- A write to the image of a file; one at a negative offset stores nothing. -/
def storeImage (extentOff blocks : UInt64) (src : ℕ → UInt8) (len : ℕ) (off : UInt64) :
    Traced Bool := do
  if off.toNat < 2 ^ 63 then
    note (.image off.toNat len extentOff blocks)
    osPwrite env src len off
  else osPwrite env src len off

def leaveInlineStores (n : Inode) : Traced (Except Rc Inode) := do
  if 0 < n.iSize ∧ n.iBlocks = 0 then
    let newOff ← pageAlloc env
    if newOff = 0 then return .error .enospc
    else if ← storeImage env newOff 1 (arr n.iUnion).2 (min n.iSize.toNat inlineMax) newOff then
      return .ok { n.setExtent newOff 1 with iBlocks := 1 }
    else return .error .eio
  else return .ok n

/-- The copy goes to the extent that the file is about to have, of `needBlocks` blocks. -/
def copyExtentStores (src dst blocks needBlocks : UInt64) : Traced Unit := do
  let fs ← FsM.get
  let len := (blocks * 4096).toNat
  if ← osAlloc env then
    let buf := match ← osPread env (env.junk fs.clock) len src with
      | none => env.junk fs.clock
      | some (buf, _) => buf
    discard (storeImage env dst needBlocks buf len dst)

def growExtentStores (n : Inode) (needBlocks : UInt64) : Traced (Except Rc Inode) := do
  if needBlocks > n.iBlocks then
    let newOff ← pageAllocN env (needBlocks - n.iBlocks)
    if newOff = 0 then return .error .enospc
    else
      if 0 < n.iBlocks ∧ n.iExtentOff ≠ 0 ∧ newOff ≠ n.iExtentOff + n.iBlocks * 4096 then
        copyExtentStores env n.iExtentOff newOff n.iBlocks needBlocks
      return .ok { n.setExtent newOff needBlocks.toUInt32 with iBlocks := needBlocks }
  else return .ok n

/-- `xxfs_write` with what it does to the file. -/
def xxfsWriteStores (path : Path) (buf : ℕ → UInt8) (off : UInt64) (len : UInt32) :
    Traced Rc := do
  if len = 0 then return .einval
  else
    let norm := pathNormalize path
    fsWlock
    match ← currentInode env norm with
    | .error _ => wreturn .enoent
    | .ok n =>
      if n.iFileType = ftDir then wreturn .eisdir
      else
        let endOff := off + len.toUInt64
        if endOff.toNat ≤ inlineMax then
          note (.inline off.toNat len.toNat)
          note (.size n.iSize (maxSize n.iSize endOff) n.iBlocks)
          icachePut env (xxh64 norm) norm { n with
            iUnion := arrCopy n.iUnion off.toNat len.toNat buf
            iSize := maxSize n.iSize endOff }
          wreturn .ok
        else
          match ← leaveInlineStores env n with
          | .error rc => wreturn rc
          | .ok n =>
            match ← growExtentStores env n (blocksFor endOff) with
            | .error rc => wreturn rc
            | .ok n =>
              if ← storeImage env n.iExtentOff n.iBlocks buf len.toNat (n.iExtentOff + off) then
                note (.size n.iSize (maxSize n.iSize endOff) n.iBlocks)
                icachePut env (xxh64 norm) norm { n with iSize := maxSize n.iSize endOff }
                wreturn .ok
              else wreturn .eio

def growHandleStores (fp : File) (endOff : UInt64) : Traced (Except Rc File) := do
  if endOff.toNat > inlineMax ∧ fp.blocks = 0 then
    fsWlock
    let newOff ← pageAllocN env (blocksFor endOff)
    if newOff = 0 then wreturn (.error .enospc)
    else wreturn (.ok { fp with extentOff := newOff, blocks := blocksFor endOff })
  else if endOff > fp.blocks * 4096 then
    fsWlock
    let newOff ← pageAllocN env (blocksFor endOff - fp.blocks)
    if newOff = 0 then wreturn (.error .enospc)
    else
      if 0 < fp.blocks ∧ fp.extentOff ≠ 0 ∧ newOff ≠ fp.extentOff + fp.blocks * 4096 then
        copyExtentStores env fp.extentOff newOff fp.blocks (blocksFor endOff)
      wreturn (.ok { fp with extentOff := newOff, blocks := blocksFor endOff })
  else return .ok fp

/-- `xxfs_write_fd` with what it does to the file, which is the one the handle describes. -/
def xxfsWriteFdStores (fp : File) (buf : ℕ → UInt8) (count off : UInt64) :
    Traced (Except Rc UInt64 × File) := do
  if count = 0 then return (.error .einval, fp)
  else
    let endOff := off + count
    match ← growHandleStores env fp endOff with
    | .error rc => return (.error rc, fp)
    | .ok fp =>
      if ← storeImage env fp.extentOff fp.blocks buf count.toNat (fp.extentOff + off) then
        note (.size fp.size (maxSize fp.size endOff) fp.blocks)
        return (.ok count, { fp with size := maxSize fp.size endOff })
      else return (.error .eio, fp)

end traced

section erase

variable (env : Env)

theorem erase_storeImage (extentOff blocks : UInt64) (src : ℕ → UInt8) (len : ℕ) (off : UInt64) :
    erase (storeImage env extentOff blocks src len off) = osPwrite env src len off := by
  rw [storeImage, erase_ite, erase_note_bind, erase_lift, ite_self]

theorem erase_leaveInline (n : Inode) : erase (leaveInlineStores env n) = leaveInline env n := by
  simp only [leaveInlineStores, leaveInline, erase_ite, erase_bind, erase_lift, erase_pure,
    erase_storeImage]

theorem erase_copyExtent (src dst blocks needBlocks : UInt64) :
    erase (copyExtentStores env src dst blocks needBlocks) = copyExtent env src dst blocks := by
  refine erase_seq (erase_lift _) fun fs ↦ erase_seq (erase_lift _) fun ok ↦
    erase_branch (erase_seq (erase_lift _) fun r ↦ ?_) (erase_pure _)
  exact (erase_discard _).trans (congrArg discard (erase_storeImage env _ _ _ _ _))

theorem erase_growExtent (n : Inode) (needBlocks : UInt64) :
    erase (growExtentStores env n needBlocks) = growExtent env n needBlocks := by
  simp only [growExtentStores, growExtent, erase_ite, erase_bind, erase_lift, erase_pure,
    erase_copyExtent]

theorem erase_write (path : Path) (buf : ℕ → UInt8) (off : UInt64) (len : UInt32) :
    erase (xxfsWriteStores env path buf off len) = xxfsWrite env path buf off len := by
  refine erase_branch (erase_pure _) (erase_seq (erase_lift _) fun _ ↦
    erase_seq (erase_lift _) fun r ↦ ?_)
  cases r with
  | error _ => exact erase_lift _
  | ok n =>
    refine erase_branch (erase_lift _) (erase_branch ?_ (erase_seq (erase_leaveInline env n)
      fun r ↦ ?_))
    · rw [erase_note_bind, erase_note_bind]
      exact erase_seq (erase_lift _) fun _ ↦ erase_lift _
    cases r with
    | error _ => exact erase_lift _
    | ok n =>
      refine erase_seq (erase_growExtent env n _) fun r ↦ ?_
      cases r with
      | error _ => exact erase_lift _
      | ok n =>
        refine erase_seq (erase_storeImage env _ _ _ _ _) fun ok ↦
          erase_branch ?_ (erase_lift _)
        rw [erase_note_bind]
        exact erase_seq (erase_lift _) fun _ ↦ erase_lift _

theorem erase_growHandle (fp : File) (endOff : UInt64) :
    erase (growHandleStores env fp endOff) = growHandle env fp endOff := by
  simp only [growHandleStores, growHandle, erase_ite, erase_bind, erase_lift, erase_pure,
    erase_copyExtent]

theorem erase_writeFd (fp : File) (buf : ℕ → UInt8) (count off : UInt64) :
    erase (xxfsWriteFdStores env fp buf count off) = xxfsWriteFd env fp buf count off := by
  refine erase_branch (erase_pure _) (erase_seq (erase_growHandle env fp _) fun r ↦ ?_)
  cases r with
  | error _ => exact erase_pure _
  | ok fp =>
    refine erase_seq (erase_storeImage env _ _ _ _ _) fun ok ↦ erase_branch ?_ (erase_pure _)
    rw [erase_note_bind, erase_pure]

end erase

section counters

/-- The counters of the superblock stay as they are. -/
structure SameSb (fs fs' : Fs) : Prop where
  sb : fs'.sb = fs.sb

instance : Std.Refl SameSb where
  refl _ := ⟨rfl⟩

instance : IsTrans Fs SameSb where
  trans _ _ _ h h' := ⟨h'.sb.trans h.sb⟩

variable (env : Env)

theorem sameSb_of_shared {α : Type} {m : FsM α} (h : Within SameShared m) : Within SameSb m :=
  h.mono fun _ _ hs ↦ ⟨hs.sb⟩

theorem osPwrite_sameSb (src : ℕ → UInt8) (len : ℕ) (off : UInt64) :
    Within SameSb (osPwrite env src len off) :=
  .bind (.bind .get fun _ ↦ .bind (.modify fun _ ↦ ⟨rfl⟩) fun _ ↦ .pure _) fun _ ↦
    .ite (fun _ ↦ .bind (.modify fun _ ↦ ⟨rfl⟩) fun _ ↦ .pure _) fun _ ↦ .pure _

theorem fill_sameSb (off : UInt64) (idx : ℕ) (c : PagedCache) :
    Within SameSb (pageLoad.fill env off idx c) := by
  refine .bind (.modify fun _ ↦ ⟨rfl⟩) fun _ ↦
    .bind (sameSb_of_shared (osAlloc_sameShared env)) fun _ ↦ .ite (fun _ ↦
      .bind (sameSb_of_shared (osPread_sameShared env _ _ _)) fun r ↦ ?_) fun _ ↦ .pure _
  cases r with
  | none => exact .pure _
  | some p => exact .bind (.modify fun _ ↦ ⟨rfl⟩) fun _ ↦ .pure _

/-- Loading a page may write another one back, but takes nothing from the pool. -/
theorem pageLoad_sameSb (off : UInt64) : Within SameSb (pageLoad env off) := by
  refine .bind .get fun fs ↦ ?_
  dsimp only
  split
  · refine .ite (fun _ ↦ .pure _) fun _ ↦ .ite (fun _ ↦ ?_) fun _ ↦ fill_sameSb env _ _ _
    exact .bind (.bind (osPwrite_sameSb env _ _ _) fun _ ↦ .pure _) fun _ ↦ fill_sameSb env _ _ _
  · exact fill_sameSb env _ _ _

theorem getWalk_sameSb (h : UInt64) (key : Path) (cap n : ℕ) (curOff : UInt64) :
    Within SameSb (getWalk env h key cap n curOff) := by
  induction n generalizing curOff with
  | zero => exact .diverge
  | succ n ih =>
    rw [getWalk]
    refine .ite (fun _ ↦ .pure _) fun _ ↦ .bind (pageLoad_sameSb env _) fun r ↦ ?_
    cases r with
    | none => exact .pure _
    | some pg =>
      refine .bind (sameSb_of_shared (getScan_sameShared env _ _ _ _ _)) fun r ↦ ?_
      cases r with
      | none => exact ih _
      | some r => exact .pure _

theorem inodePagedGet_sameSb (key : Path) : Within SameSb (inodePagedGet env key) := by
  refine .bind (.bind .get fun _ ↦ .ite (fun _ ↦ getWalk_sameSb env _ _ _ _ _) fun _ ↦ .pure _)
    fun r ↦ ?_
  cases r with
  | error _ => exact .pure _
  | ok _ => exact .pure _

theorem fsWlock_sameSb : Within SameSb fsWlock :=
  .modify fun fs ↦ ⟨by split <;> rfl⟩

theorem currentInode_sameSb (path : Path) : Within SameSb (currentInode env path) := by
  refine .bind .get fun fs ↦ ?_
  cases icacheInode fs.icache (xxh64 path) with
  | none => exact inodePagedGet_sameSb env _
  | some n => exact .pure _

end counters

section steps

variable {env : Env} {fs fs' : Fs} {w : List Event} {off len : ℕ}

theorem storeImage_notes {extentOff blocks pos : UInt64} {src : ℕ → UInt8} {k : ℕ} {ok : Bool}
    (h : (storeImage env extentOff blocks src k pos).run fs = some ((ok, w), fs')) :
    fs'.sb = fs.sb ∧
      (pos.toNat < 2 ^ 63 ∧ w = [.image pos.toNat k extentOff blocks] ∨
        2 ^ 63 ≤ pos.toNat ∧ w = [] ∧ ok = false) := by
  have hrun : osPwrite env src k pos fs = some (ok, fs') := by
    rw [← erase_storeImage env extentOff blocks]
    exact of_notes h
  refine ⟨(osPwrite_sameSb env _ _ _ _ _ _ hrun).sb, ?_⟩
  rw [storeImage] at h
  split at h
  · rename_i hpos
    obtain ⟨w', hlift, rfl⟩ := of_note_bind h
    obtain ⟨-, rfl⟩ := of_lift hlift
    exact .inl ⟨hpos, rfl⟩
  · rename_i hneg
    refine .inr ⟨Nat.not_lt.mp hneg, (of_lift h).2, ?_⟩
    simp only [osPwrite, bind_apply, tick_apply, Option.bind_some, hneg, and_false, ↓reduceIte,
      pure_apply, Option.some.injEq, Prod.mk.injEq] at hrun
    exact hrun.1.symm

theorem leaveInline_notes {n : Inode} {r : Except Rc Inode}
    (h : (leaveInlineStores env n).run fs = some ((r, w), fs')) :
    (∀ e ∈ w, e.Inside off len) ∧ r ≠ .error .ok ∧ ∀ n', r = .ok n' →
      (if 0 < n.iSize ∧ n.iBlocks = 0 then n'.iExtentOff = nextOff fs.sb ∧ n'.iBlocks = 1 ∧
        fs'.sb = allocated fs.sb else n' = n ∧ fs'.sb = fs.sb) := by
  rw [leaveInlineStores] at h
  split at h
  · rename_i hleave
    obtain ⟨newOff, w₁, fs₁, w₂, hlift, h₁, rfl⟩ := Noting.of_bind h
    obtain ⟨halloc, rfl⟩ := of_lift hlift
    have hans := (pageAlloc_answer halloc).1
    split at h₁
    · obtain ⟨rfl, rfl, -⟩ := of_pure h₁
      exact ⟨by simp, by simp, fun n' hn' ↦ by cases hn'⟩
    · rename_i h0
      obtain ⟨rfl, hsb⟩ := hans.resolve_left h0
      obtain ⟨ok, w₃, fs₂, w₄, hstore, h₂, rfl⟩ := Noting.of_bind h₁
      obtain ⟨hsb', hw⟩ := storeImage_notes hstore
      have hin : ∀ e ∈ w₃, e.Inside off len := by
        rcases hw with ⟨-, rfl⟩ | ⟨-, rfl, -⟩
        · intro e he
          obtain rfl := List.mem_singleton.mp he
          refine ⟨le_rfl, Nat.add_le_add_left ((min_le_right _ _).trans ?_) _⟩
          decide
        · simp
      split at h₂
      · obtain ⟨rfl, rfl, rfl⟩ := of_pure h₂
        refine ⟨by simpa using hin, by simp, fun n' hn' ↦ ?_⟩
        cases hn'
        rw [if_pos hleave]
        exact ⟨Soundness.setExtent_extentOff n _ _, rfl, hsb'.trans hsb⟩
      · obtain ⟨rfl, rfl, -⟩ := of_pure h₂
        exact ⟨by simpa using hin, by simp, fun n' hn' ↦ by cases hn'⟩
  · rename_i hstay
    obtain ⟨rfl, rfl, rfl⟩ := of_pure h
    refine ⟨by simp, by simp, fun n' hn' ↦ ?_⟩
    cases hn'
    rw [if_neg hstay]
    exact ⟨rfl, rfl⟩

/-- The copy of the old blocks stays inside the new ones if these are at least as long. -/
theorem copyExtent_notes {src dst blocks needBlocks : UInt64} {u : Unit}
    (h : (copyExtentStores env src dst blocks needBlocks).run fs = some ((u, w), fs'))
    (hroom : (blocks * 4096).toNat ≤ needBlocks.toNat * 4096) : ∀ e ∈ w, e.Inside off len := by
  rw [copyExtentStores] at h
  obtain ⟨fs₀, w₁, fs₁, w₂, hget, h₁, rfl⟩ := Noting.of_bind h
  obtain ⟨-, rfl⟩ := of_lift hget
  obtain ⟨ok, w₃, fs₂, w₄, halloc, h₂, rfl⟩ := Noting.of_bind h₁
  obtain ⟨-, rfl⟩ := of_lift halloc
  split at h₂
  · obtain ⟨r, w₅, fs₃, w₆, hread, h₃, rfl⟩ := Noting.of_bind h₂
    obtain ⟨-, rfl⟩ := of_lift hread
    obtain ⟨ok', w₇, fs₄, w₈, hstore, h₄, rfl⟩ := Noting.of_bind h₃
    obtain ⟨-, rfl, -⟩ := of_pure h₄
    rcases (storeImage_notes hstore).2 with ⟨-, rfl⟩ | ⟨-, rfl, -⟩
    · intro e he
      obtain rfl : e = _ := by simpa using he
      exact ⟨le_rfl, Nat.add_le_add_left hroom _⟩
    · simp
  · obtain ⟨-, rfl, -⟩ := of_pure h₂
    simp

theorem growExtent_notes {n : Inode} {need : UInt64} {r : Except Rc Inode}
    (h : (growExtentStores env n need).run fs = some ((r, w), fs')) :
    (∀ e ∈ w, e.Inside off len) ∧ r ≠ .error .ok ∧ ∀ n', r = .ok n' →
      (if need > n.iBlocks then n'.iExtentOff = nextOff fs.sb ∧ n'.iBlocks = need else n' = n) := by
  rw [growExtentStores] at h
  split at h
  · rename_i hgrow
    obtain ⟨newOff, w₁, fs₁, w₂, hlift, h₁, rfl⟩ := Noting.of_bind h
    obtain ⟨halloc, rfl⟩ := of_lift hlift
    have hans := pageAllocN_answer halloc
    split at h₁
    · obtain ⟨rfl, rfl, -⟩ := of_pure h₁
      exact ⟨by simp, by simp, fun n' hn' ↦ by cases hn'⟩
    · rename_i h0
      obtain rfl := hans.resolve_left h0
      have hlt := UInt64.lt_iff_toNat_lt.mp hgrow
      have hroom : (n.iBlocks * 4096).toNat ≤ need.toNat * 4096 := by
        rw [UInt64.toNat_mul]
        exact (Nat.mod_le _ _).trans (Nat.mul_le_mul_right _ hlt.le)
      have hend : r = .ok { n.setExtent (nextOff fs.sb) need.toUInt32 with iBlocks := need } ∧
          ∀ e ∈ w₂, e.Inside off len := by
        dsimp only at h₁
        split at h₁
        · obtain ⟨u, w₃, fs₂, w₄, hcopy, h₂, rfl⟩ := Noting.of_bind h₁
          obtain ⟨rfl, rfl, -⟩ := of_pure h₂
          exact ⟨rfl, by simpa using copyExtent_notes hcopy hroom⟩
        · obtain ⟨rfl, rfl, -⟩ := of_pure h₁
          exact ⟨rfl, by simp⟩
      obtain ⟨rfl, hin⟩ := hend
      refine ⟨by simpa using hin, by simp, fun n' hn' ↦ ?_⟩
      cases hn'
      rw [if_pos hgrow]
      exact ⟨Soundness.setExtent_extentOff n _ _, rfl⟩
  · rename_i hstay
    obtain ⟨rfl, rfl, rfl⟩ := of_pure h
    refine ⟨by simp, by simp, fun n' hn' ↦ ?_⟩
    cases hn'
    rw [if_neg hstay]

end steps

end Xxfs.WriteStores

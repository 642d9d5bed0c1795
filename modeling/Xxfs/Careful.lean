import Xxfs.IndexMap
import Xxfs.RemountSteps

namespace Xxfs.Soundness

open Function
open Xxfs.DiskFormat Xxfs.Machine Xxfs.Allocator Xxfs.PageCache Xxfs.PagedIndex Xxfs.PageStore
open Xxfs.InodeCache Xxfs.DirCache Xxfs.Volume Xxfs.Operations Xxfs.Hash Xxfs.PathName
open Xxfs.IndexRep Xxfs.CacheMap Xxfs.IndexState Xxfs.OperationFrames Xxfs.Checksum Xxfs.CacheKeys
open Xxfs.Frames Xxfs.FreshVolume Xxfs.FreshIndex Xxfs.Runs
open Xxfs.Lib Xxfs.Lib.Computation Xxfs.Lib.Computation.Comp

section fresh

def freshInodes (now : UInt64) : Inodes := fun p ↦ if p = rootPath then some (rootInode now) else none

theorem freshInodes_root (now : UInt64) : freshInodes now rootPath = some (rootInode now) :=
  if_pos rfl

theorem freshInodes_cases {now : UInt64} {p : Path} {n : Inode} (h : freshInodes now p = some n) :
    p = rootPath ∧ n = rootInode now := by
  rw [freshInodes] at h
  split at h
  · exact ⟨‹_›, (Option.some.inj h).symm⟩
  · cases h

theorem hollow_root (now : UInt64) : Hollow (rootInode now) := hollow_sealed rfl rfl rfl

theorem rootInode_type (now : UInt64) : (rootInode now).iFileType = ftDir :=
  (sameBody_sealed _).type

theorem extentOf_fresh (now : UInt64) (p : Path) : extentOf (freshInodes now p) = ∅ := by
  cases h : freshInodes now p with
  | none => exact extentOf_none
  | some n =>
    obtain ⟨-, rfl⟩ := freshInodes_cases h
    rw [extentOf_some, extent_empty (hollow_root now).blocks]

theorem seen_fresh (env : Env) (sizeMb flags : UInt64) :
    seen (freshInodes (env.time 1)) (freshFs env sizeMb flags) = freshInodes (env.time 1) := by
  funext p
  rw [seen, cur]
  have : cell (freshFs env sizeMb flags).icache p = none := cell_init p
  rw [this]
  rfl

theorem share_fresh {now table : UInt64} {x : Owner} {i : ℕ}
    (hi : i ∈ share (freshInodes now) table ∅ x) :
    x = .super ∧ i < 4096 ∨ x = .table ∧ InBlock table i := by
  cases x with
  | super => exact .inl ⟨rfl, hi⟩
  | table => exact .inr ⟨rfl, hi⟩
  | hand => exact hi.elim
  | path p =>
    rw [share, extentOf_fresh] at hi
    exact hi.elim

theorem owned_fresh {now table : UInt64} (ht : 4096 ≤ table.toNat) (size : ℕ) :
    Owned (freshInodes now) table ∅ size := by
  refine ⟨fun x y hxy ↦ Set.disjoint_left.mpr fun i hx hy ↦ ?_, fun p n hn ↦ ?_⟩
  · rcases share_fresh hx with ⟨rfl, hi⟩ | ⟨rfl, hi⟩
    · rcases share_fresh hy with ⟨rfl, -⟩ | ⟨rfl, hi'⟩
      · exact hxy rfl
      · have := hi'.1
        omega
    · rcases share_fresh hy with ⟨rfl, hi'⟩ | ⟨rfl, -⟩
      · have := hi.1
        omega
      · exact hxy rfl
  · obtain ⟨-, rfl⟩ := freshInodes_cases hn
    exact (hollow_root now).shape size

theorem tree_fresh (now : UInt64) : Tree (kind (freshInodes now)) := by
  refine ⟨?_, fun p hp hk ↦ ?_⟩
  · rw [kind, freshInodes_root, Option.map_some, rootInode_type]
  · rw [kind, freshInodes, if_neg hp] at hk
    exact (hk rfl).elim

variable {env : Env} {K : Path → Prop} (hK : Names K) {sizeMb : UInt64} (hg : GoodSize sizeMb)
include hK hg

theorem sound_fresh (flags : UInt64) :
    Sound K (freshInodes (env.time 1)) ∅ (freshFs env sizeMb flags) := by
  have hi : FreshImage (freshFs env sizeMb flags).img _ _ := fresh_image sizeMb flags
  have hs : FreshSuper (freshFs env sizeMb flags).sb _ := fresh_super sizeMb flags
  obtain ⟨hp, hfree⟩ := fresh_poolOk env hg flags
  have hd := dataStart_bounds (totalBlocks sizeMb)
  have hpage : (dataStart (totalBlocks sizeMb) + 4096).toNat =
      (dataStart (totalBlocks sizeMb)).toNat + 4096 := dataStart_add _ 4096 (by decide)
  have htable : (freshFs env sizeMb flags).sb.sPdirOff.toNat =
      (dataStart (totalBlocks sizeMb)).toNat + 8192 := by
    rw [hs.pdirOff]
    exact dataStart_add _ 8192 (by decide)
  have hfront : front (freshFs env sizeMb flags).sb =
      (dataStart (totalBlocks sizeMb)).toNat + 7 * 4096 := by
    rw [front, hs.dataOff, ← hfree]
    omega
  have hseen : seen (freshInodes (env.time 1)) (freshFs env sizeMb flags) =
      freshInodes (env.time 1) := seen_fresh env sizeMb flags
  have hground {i : ℕ} (hi : i ∈ ground (freshInodes (env.time 1)) ∅ (freshFs env sizeMb flags)) :
      i < 4096 ∨ InBlock (freshFs env sizeMb flags).sb.sPdirOff i := by
    rw [ground, hseen] at hi
    obtain ⟨x, hx⟩ := Shares.mem_owned.mp hi
    exact (share_fresh hx).imp And.right And.right
  refine ⟨settled_init hK, ⟨freshChain (totalBlocks sizeMb) (env.time 1), ?_⟩, fun p ↦ ?_, ?_,
    tree_fresh _, ?_, hs.magic, fun i hfi ↦ hi.zero i (by omega)⟩
  · refine ⟨fresh_represents env hg flags, ?_, ?_, fun p ↦ ?_, fun p n hn ↦ ?_, fun b hb i hbi hif ↦ ?_,
      fun i hif ↦ ?_⟩
    · rw [IndexMap.contents_fresh]
      simpa [PagedMap.AllKeys] using hK.root
    · rw [IndexMap.contents_fresh]
      simp [PagedMap.KeysNodup]
    · rw [IndexMap.contents_fresh, IndexMap.rootVal, freshInodes]
      by_cases hpr : p = rootPath
      · subst hpr
        simp [PagedMap.get, PagedMap.pageGet]
      · simp [PagedMap.get, PagedMap.pageGet, Ne.symm hpr, hpr]
    · obtain ⟨-, rfl⟩ := freshInodes_cases hn
      exact (hollow_root _).whole
    · have hblock : (dataStart (totalBlocks sizeMb)).toNat ≤ b.toNat ∧
          b.toNat ≤ (dataStart (totalBlocks sizeMb)).toNat + 4096 := by
        rcases List.mem_pair.mp hb with rfl | rfl
        · change _ ≤ (dataStart (totalBlocks sizeMb) + 4096).toNat ∧
            (dataStart (totalBlocks sizeMb) + 4096).toNat ≤ _
          omega
        · omega
      obtain ⟨h₁, h₂⟩ := hbi
      rcases hground hif with h | h
      · omega
      · have := h.1
        omega
    · rcases hground hif with h | h
      · omega
      · have := h.2
        omega
  · have : cell (freshFs env sizeMb flags).icache p = none :=
      cell_init p
    rw [this]
    exact coherentAt_none _
  · rw [hseen]
    exact owned_fresh (by omega) _
  · exact ⟨fun i hi ↦ (by cases hi), fun i hi ↦ (by cases hi), fun i n hi ↦ (by cases hi),
      fun i n hi ↦ by cases hi⟩

end fresh

def indexed (fs : Fs) : Inodes := fun p ↦
  if p.length < maxPath then
    match inodePagedGet steady p fs with
    | some (.ok n, _) => some n
    | _ => none
  else none

section indexed

variable {K : Path → Prop} (hK : Names K) {m : Inodes} {fs : Fs} (h : Sound K m ∅ fs)

include hK in
theorem indexed_of_backed {F : Set ℕ} {L : Chain} (hb : Backed K m F fs L) : indexed fs = m := by
  funext p
  rw [indexed]
  split
  · rename_i hlen
    have h4096 : maxPath = 4096 := rfl
    have hlong : p.length < 2 ^ 32 := by omega
    obtain ⟨fs', hget, -⟩ := hb.inodePagedGet steady_healthy hlong
    rw [hget]
    cases m p with
    | none => rfl
    | some n => rfl
  · rename_i hlen
    have h4096 : maxPath = 4096 := rfl
    by_contra hne
    have := hK.short p (hb.names (Ne.symm hne))
    omega

include h hK

theorem Sound.indexed_eq : indexed fs = m := by
  obtain ⟨L, hb⟩ := h.backed
  exact indexed_of_backed hK hb

end indexed

/-- The conditions on the arguments of an operation, and on the state it finds, under which it
keeps the file system sound. `m` is what the index holds. -/
def CarefulAt (K : Path → Prop) (m : Inodes) (fs : Fs) : Op → Prop
  | .create path _ _ _ | .mkdir path _ _ _ => K (pathNormalize path) ∧
    (cell fs.icache (pathNormalize path) = none → Vacant m fs (pathNormalize path))
  | .unlink path => K (pathNormalize path) ∧
    (kind m (pathNormalize path) ≠ some ftDir → Loose K fs (pathNormalize path))
  | .rmdir path => K (pathNormalize path) ∧
    (kind m (pathNormalize path) = some ftDir → Leaf K m fs (pathNormalize path))
  | .stat path | .read path _ _ _ | .readlink path _ _ | .openFile path _ | .readdir path =>
    K (pathNormalize path)
  | .write path _ off len => K (pathNormalize path) ∧ (len ≠ 0 →
    ∀ n, seen m fs (pathNormalize path) = some n → n.iFileType ≠ ftDir → Takes n off len)
  | .chmod path _ | .chown path _ _ | .utime path _ _ => K (pathNormalize path) ∧
    seen m fs (pathNormalize path) = m (pathNormalize path)
  | .rename old new => K (pathNormalize old) ∧ K (pathNormalize new) ∧
    seen m fs (pathNormalize old) = m (pathNormalize old) ∧
    getParentPath (pathNormalize new) ≠ pathNormalize old ∧ (m (pathNormalize old) ≠ none →
      Leaf K m fs (pathNormalize old) ∧ Spot m fs (pathNormalize new))
  | .symlink _ linkpath => K (pathNormalize linkpath) ∧
    (m (pathNormalize linkpath) = none → Spot m fs (pathNormalize linkpath))
  | .closeFile fp => K fp.path ∧ fp.hash = xxh64 fp.path ∧
    ∀ n d, cell fs.icache fp.path = some (n, d) → Closes fs.img.size fp n
  | .writeFd fp _ count off => count ≠ 0 → ∃ n, seen m fs fp.path = some n ∧ Lands fp n count off
  | .readFd _ _ _ _ | .sync => True
  | .remount _ => ∀ p, seen m fs p = m p

def Careful (K : Path → Prop) (fs : Fs) (op : Op) : Prop := CarefulAt K (indexed fs) fs op

/-- The operations that make an entry `n` at a path. -/
def Makes (p : Path) (n : Inode) : Op → Prop
  | .create path _ _ _ => pathNormalize path = p ∧ n.iFileType = ftReg
  | .mkdir path _ _ _ => pathNormalize path = p ∧ n.iFileType = ftDir
  | _ => False

/-- The operations that remove the entry `n` of a path. -/
def Removes (p : Path) (n : Inode) : Op → Prop
  | .unlink path => pathNormalize path = p ∧ n.iFileType ≠ ftDir
  | .rmdir path => pathNormalize path = p ∧ n.iFileType = ftDir
  | _ => False

/-- The inode `n'` is of the type of `n` and has its blocks. -/
structure Refiled (n n' : Inode) : Prop where
  type : n'.iFileType = n.iFileType
  blocks : n'.iBlocks = n.iBlocks
  off : n'.iExtentOff = n.iExtentOff

/-- What a careful operation can do. -/
inductive Outcome (K : Path → Prop) (m m' : Inodes) (fs fs' : Fs) : Op → Prop
  | looked {op : Op} : m' = m → Looked K m fs fs' → Outcome K m m' fs fs' op
  | added {op : Op} {p : Path} {n : Inode} : Makes p n op → K p → Vacant m fs p → Hollow n →
    Added p n n.iFileType.toUInt8 m m' fs fs' →
    fs'.sb.sInodesCount = fs.sb.sInodesCount + 1 → Outcome K m m' fs fs' op
  | removed {op : Op} {p : Path} {n : Inode} : Removes p n op → K p → m p = some n → Leaf K m fs p →
    Removed p m m' fs fs' → fs'.sb.sInodesCount = fs.sb.sInodesCount - 1 → Outcome K m m' fs fs' op
  | wrote {path : Path} {n n' : Inode} {buf : ℕ → UInt8} {off : UInt64} {len : UInt32} :
    m' = m → seen m fs (pathNormalize path) = some n → n.iFileType ≠ ftDir →
    Wrote (pathNormalize path) n n' buf off len m fs fs' →
    Outcome K m m' fs fs' (.write path buf off len)
  | poured {op : Op} {p : Path} {n : Inode} : m' = m → seen m fs p = some n → n.iFileType ≠ ftDir →
    Effect {p} ∅ ∅ m m fs fs' → seen m fs' p = some n → fs'.dcache = fs.dcache → fs'.sb = fs.sb →
    Outcome K m m' fs fs' op
  | restored {op : Op} {p : Path} {n n' : Inode} : seen m fs p = some n →
    Refiled n n' → (n.iFileType = ftDir → SameBody n n') →
    Restored p n' m m' fs fs' → Outcome K m m' fs fs' op
  | linked {target linkpath : Path} {n : Inode} : target.length ≤ inlineMax → n.iBlocks = 0 →
    Spot m fs (pathNormalize linkpath) →
    Restored (pathNormalize linkpath) n m m' fs fs' →
    Outcome K m m' fs fs' (.symlink target linkpath)
  | renamed {old new : Path} {n n' : Inode} : m (pathNormalize old) = some n → SameBody n n' →
    Leaf K m fs (pathNormalize old) → Spot m fs (pathNormalize new) →
    Renamed (pathNormalize old) (pathNormalize new) n n' m m' fs fs' →
    Outcome K m m' fs fs' (.rename old new)
  | synced {env : Env} : Synced env m m' fs fs' → Outcome K m m' fs fs' .sync
  | remounted {flags : UInt64} : Remounted m m' fs fs' → Outcome K m m' fs fs' (.remount flags)

section step

variable {env : Env} (he : Healthy env) {K : Path → Prop} (hK : Names K) {m : Inodes} {fs fs' : Fs}
  (h : Sound K m ∅ fs) {path : Path} {rc : Rc}
theorem Looked.outcome {op : Op} (hL : Looked K m fs fs') :
    ∃ m', Sound K m' ∅ fs' ∧ Outcome K m m' fs fs' op :=
  ⟨m, hL.sound, .looked rfl hL⟩

theorem Made.outcome (h : Sound K m ∅ fs) {op : Op} {p : Path} {n : Inode} (hop : Makes p n op)
    (hp : K p)
    (hv : cell fs.icache p = none → Vacant m fs p) (hn : Hollow n)
    (hM : Made K p n n.iFileType.toUInt8 m fs rc fs') :
    ∃ m', Sound K m' ∅ fs' ∧ Outcome K m m' fs fs' op := by
  rcases hM with ⟨-, -, l, rfl⟩ | ⟨hc, -, hcount, m', hs, hA⟩
  · exact (h.relock l).outcome
  · exact ⟨m', hs, .added hop hp (hv hc) hn hA hcount⟩

theorem Unlinked.outcome {op : Op} {p : Path} {n : Inode} (hop : Removes p n op) (hp : K p) (hn : m p = some n)
    (hleaf : Leaf K m fs p) (hU : Unlinked K p m fs rc fs') :
    ∃ m', Sound K m' ∅ fs' ∧ Outcome K m m' fs fs' op := by
  obtain ⟨-, hcount, m', hs, hR⟩ := hU
  exact ⟨m', hs, .removed hop hp hn hleaf hR hcount⟩

include he hK h

theorem Sound.create_outcome {mode uid gid : UInt16}
    (hc : CarefulAt K m fs (.create path mode uid gid))
    (hx : xxfsCreate env path mode uid gid fs = some (rc, fs')) (hl : Live fs') :
    ∃ m', Sound K m' ∅ fs' ∧ Outcome K m m' fs fs' (.create path mode uid gid) := by
  have hn : Hollow (createdInode (pathNormalize path) mode uid gid fs.cowGen) :=
    hollow_sealed rfl rfl rfl
  have ht : (createdInode (pathNormalize path) mode uid gid fs.cowGen).iFileType = ftReg :=
    (sameBody_sealed _).type
  have hM := h.create he hK hc.1 hc.2 hx hl
  rw [← ht] at hM
  exact hM.outcome h ⟨rfl, ht⟩ hc.1 hc.2 hn

theorem Sound.mkdir_outcome {mode uid gid : UInt16}
    (hc : CarefulAt K m fs (.mkdir path mode uid gid))
    (hx : xxfsMkdir env path mode uid gid fs = some (rc, fs')) (hl : Live fs') :
    ∃ m', Sound K m' ∅ fs' ∧ Outcome K m m' fs fs' (.mkdir path mode uid gid) := by
  have hn : Hollow (madeDirInode (pathNormalize path) mode uid gid fs.cowGen) :=
    hollow_sealed rfl rfl rfl
  have ht : (madeDirInode (pathNormalize path) mode uid gid fs.cowGen).iFileType = ftDir :=
    (sameBody_sealed _).type
  have hM := h.mkdir he hK hc.1 hc.2 hx hl
  rw [← ht] at hM
  exact hM.outcome h ⟨rfl, ht⟩ hc.1 hc.2 hn

theorem Sound.unlink_outcome (hc : CarefulAt K m fs (.unlink path))
    (hx : xxfsUnlink env path fs = some (rc, fs')) (hl : Live fs') :
    ∃ m', Sound K m' ∅ fs' ∧ Outcome K m m' fs fs' (.unlink path) := by
  have hU := h.unlink he hK hc.1 hc.2 hx hl
  cases hn : seen m fs (pathNormalize path) with
  | none =>
    rw [hn] at hU
    exact hU.2.outcome
  | some n =>
    rw [hn] at hU
    dsimp only at hU
    split at hU
    · exact hU.2.outcome
    · rename_i ht
      obtain ⟨x, hx, htx⟩ := h.stored_some hn
      have htx' : x.iFileType ≠ ftDir := fun hd ↦ ht (htx.symm.trans hd)
      refine hU.outcome ⟨rfl, htx'⟩ hc.1 hx (h.leaf_file hx htx' (hc.2 ?_))
      rw [kind, hx, Option.map_some]
      exact fun hd ↦ htx' (Option.some.inj hd)

theorem Sound.rmdir_outcome (hc : CarefulAt K m fs (.rmdir path))
    (hx : xxfsRmdir env path fs = some (rc, fs')) (hl : Live fs') :
    ∃ m', Sound K m' ∅ fs' ∧ Outcome K m m' fs fs' (.rmdir path) := by
  have hU := h.rmdir he hK hc.1 hc.2 hx hl
  split at hU
  · obtain ⟨-, rfl⟩ := hU
    exact (h.looked_same rfl rfl rfl rfl rfl rfl).outcome
  cases hn : seen m fs (pathNormalize path) with
  | none =>
    rw [hn] at hU
    exact hU.2.outcome
  | some n =>
    rw [hn] at hU
    dsimp only at hU
    split at hU
    · exact hU.2.outcome
    · rename_i ht
      obtain ⟨x, hx, htx⟩ := h.stored_some hn
      refine hU.outcome ⟨rfl, htx.trans (not_not.mp ht)⟩ hc.1 hx (hc.2 ?_)
      rw [kind, hx, Option.map_some, htx, not_not.mp ht]

theorem Sound.write_outcome {buf : ℕ → UInt8} {off : UInt64} {len : UInt32}
    (hc : CarefulAt K m fs (.write path buf off len))
    (hx : xxfsWrite env path buf off len fs = some (rc, fs')) (hl : Live fs') :
    ∃ m', Sound K m' ∅ fs' ∧ Outcome K m m' fs fs' (.write path buf off len) := by
  by_cases hlen : len = 0
  · rw [xxfsWrite, if_pos hlen] at hx
    obtain ⟨-, rfl⟩ := Prod.mk.inj (Option.some.inj hx)
    exact (h.looked_same rfl rfl rfl rfl rfl rfl).outcome
  have hW := h.writes he hK hc.1 hlen (hc.2 hlen) hx hl
  cases hn : seen m fs (pathNormalize path) with
  | none =>
    rw [hn] at hW
    exact hW.2.outcome
  | some n =>
    rw [hn] at hW
    dsimp only at hW
    split at hW
    · exact hW.2.outcome
    · obtain ⟨-, n', hs, hW⟩ := hW
      exact ⟨m, hs, .wrote rfl hn ‹_› hW⟩

theorem Sound.setAttr_outcome {op : Op} {set : Inode → Inode} (hset : ∀ n, SameBody n (set n))
    (hp : K (pathNormalize path))
    (hsame : seen m fs (pathNormalize path) = m (pathNormalize path))
    (hx : Operations.setAttr env set path fs = some (rc, fs')) (hl : Live fs') :
    ∃ m', Sound K m' ∅ fs' ∧ Outcome K m m' fs fs' op := by
  have hA := h.setAttr he hK hset hp (sameBody_of_eq hsame) hx hl
  cases hn : m (pathNormalize path) with
  | none =>
    rw [hn] at hA
    exact hA.2.outcome
  | some n =>
    rw [hn] at hA
    obtain ⟨-, now, m', hs, hR⟩ := hA
    have hb := sameBody_attr hset n now
    exact ⟨m', hs, .restored (hsame.trans hn) ⟨hb.type, hb.blocks, hb.extentOff⟩ (fun _ ↦ hb) hR⟩

theorem Sound.rename_outcome {old new : Path} (hc : CarefulAt K m fs (.rename old new))
    (hx : xxfsRename env old new fs = some (rc, fs')) (hl : Live fs') :
    ∃ m', Sound K m' ∅ fs' ∧ Outcome K m m' fs fs' (.rename old new) := by
  obtain ⟨hold, hnew, hsame, hnot, hmove⟩ := hc
  have hR := h.rename he hK hold hnew hsame (fun hn ↦ (hmove hn).1) (fun hn ↦ (hmove hn).2) hnot
    hx hl
  cases hn : m (pathNormalize old) with
  | none =>
    rw [hn] at hR
    exact hR.2.outcome
  | some n =>
    rw [hn] at hR hmove
    obtain ⟨hleaf, hspot⟩ := hmove (Option.some_ne_none n)
    obtain ⟨-, now, m', hs, hR⟩ := hR
    exact ⟨m', hs, .renamed hn (sameBody_renamed _ _ _) hleaf hspot hR⟩

theorem Sound.symlink_outcome {target linkpath : Path}
    (hc : CarefulAt K m fs (.symlink target linkpath))
    (hx : xxfsSymlink env target linkpath fs = some (rc, fs')) (hl : Live fs') :
    ∃ m', Sound K m' ∅ fs' ∧ Outcome K m m' fs fs' (.symlink target linkpath) := by
  have hS := h.symlink he hK hc.1 hc.2 hx hl
  split at hS
  · obtain ⟨-, rfl⟩ := hS
    exact (h.looked_same rfl rfl rfl rfl rfl rfl).outcome
  cases hn : seen m fs (pathNormalize linkpath) with
  | some n =>
    rw [hn] at hS
    exact hS.2.outcome
  | none =>
    rw [hn] at hS
    obtain ⟨-, now, m', hs, hR⟩ := hS
    exact ⟨m', hs, .linked (Nat.le_of_not_lt ‹_›) (sameBody_sealed _).blocks (hc.2 ((cur_none (h.coherent _)).mp hn)) hR⟩

theorem Sound.close_outcome {fp : File} (hc : CarefulAt K m fs (.closeFile fp))
    (hx : xxfsClose env fp fs = some (rc, fs')) (hl : Live fs') :
    ∃ m', Sound K m' ∅ fs' ∧ Outcome K m m' fs fs' (.closeFile fp) := by
  obtain ⟨hp, hhash, hcl⟩ := hc
  have hC := (h.close he hK hp hhash hcl hx hl).2
  cases hcell : cell fs.icache fp.path with
  | none =>
    rw [hcell] at hC
    exact hC.outcome
  | some x =>
    rw [hcell] at hC
    obtain ⟨now, m', hs, hR⟩ := hC
    have hn : seen m fs fp.path = some x.1 := by
      rw [seen, cur, hcell]
      rfl
    have hfile := (hcl x.1 x.2 hcell).file
    have hb := sameBody_closed fp x.1 now
    refine ⟨m', hs, .restored hn ⟨hb.type, ?_, hb.extentOff⟩ (fun hd ↦ (hfile hd).elim) hR⟩
    exact hb.blocks.trans (hcl x.1 x.2 hcell).blocks

omit hK in
theorem Sound.writeFd_outcome {fp : File} {buf : ℕ → UInt8} {count off : UInt64}
    {r : Except Rc UInt64 × File} (hc : CarefulAt K m fs (.writeFd fp buf count off))
    (hx : xxfsWriteFd env fp buf count off fs = some (r, fs')) :
    ∃ m', Sound K m' ∅ fs' ∧ Outcome K m m' fs fs' (.writeFd fp buf count off) := by
  by_cases h0 : count = 0
  · rw [xxfsWriteFd, if_pos h0] at hx
    obtain ⟨-, rfl⟩ := Prod.mk.inj (Option.some.inj hx)
    exact (h.looked_same rfl rfl rfl rfl rfl rfl).outcome
  obtain ⟨n, hn, hin⟩ := hc h0
  rw [h.writeFd he hn hin h0] at hx
  obtain ⟨-, rfl⟩ := Prod.mk.inj (Option.some.inj hx)
  have hpour : Sound K m ∅ (Soundness.poured fs n buf count off) ∧ _ := h.poured hn hin
  obtain ⟨hs, hE⟩ := hpour
  exact ⟨m, hs, .poured rfl hn hin.file hE hn rfl rfl⟩

theorem Sound.step {op : Op} (hc : CarefulAt K m fs op) (hx : exec env op fs = some ((), fs'))
    (hl : Live fs') : ∃ m', Sound K m' ∅ fs' ∧ Outcome K m m' fs fs' op := by
  have hret {α : Type} {c : FsM α} (hd : discard c fs = some ((), fs')) :
      ∃ a, c fs = some (a, fs') := by
    obtain ⟨⟨a, fs₁⟩, ha, hfs⟩ := Option.bind_eq_some_iff.mp hd
    obtain ⟨-, rfl⟩ := Prod.mk.inj (Option.some.inj hfs)
    exact ⟨a, ha⟩
  have hlook {α : Type} {c : FsM α} {a : α} (ha : ∃ fs₁, c fs = some (a, fs₁) ∧ Looked K m fs fs₁)
      (hd : discard c fs = some ((), fs')) : ∃ m', Sound K m' ∅ fs' ∧ Outcome K m m' fs fs' op := by
    obtain ⟨fs₁, ha, hL⟩ := ha
    obtain ⟨b, hb⟩ := hret hd
    obtain ⟨-, rfl⟩ := Prod.mk.inj (Option.some.inj (hb.symm.trans ha))
    exact hL.outcome
  cases op with
  | create path mode uid gid =>
    obtain ⟨rc, hx⟩ := hret hx
    exact h.create_outcome he hK hc hx hl
  | mkdir path mode uid gid =>
    obtain ⟨rc, hx⟩ := hret hx
    exact h.mkdir_outcome he hK hc hx hl
  | unlink path =>
    obtain ⟨rc, hx⟩ := hret hx
    exact h.unlink_outcome he hK hc hx hl
  | rmdir path =>
    obtain ⟨rc, hx⟩ := hret hx
    exact h.rmdir_outcome he hK hc hx hl
  | stat path => exact hlook (h.stat he hK (hK.untwinned hc)) hx
  | write path buf off len =>
    obtain ⟨rc, hx⟩ := hret hx
    exact h.write_outcome he hK hc hx hl
  | read path buf off len =>
    by_cases hlen : len = 0
    · obtain ⟨r, hx⟩ := hret hx
      rw [xxfsRead, if_pos hlen] at hx
      obtain ⟨-, rfl⟩ := Prod.mk.inj (Option.some.inj hx)
      exact (h.looked_same rfl rfl rfl rfl rfl rfl).outcome
    · exact hlook (h.read he hK (hK.untwinned hc) hlen) hx
  | chmod path mode =>
    obtain ⟨rc, hx⟩ := hret hx
    have hset (n : Inode) : SameBody n { n with iMode := mode } := ⟨rfl, rfl, rfl, rfl⟩
    exact h.setAttr_outcome he hK hset hc.1 hc.2 hx hl
  | chown path uid gid =>
    obtain ⟨rc, hx⟩ := hret hx
    have hset (n : Inode) : SameBody n { n with iUid := uid, iGid := gid } := ⟨rfl, rfl, rfl, rfl⟩
    exact h.setAttr_outcome he hK hset hc.1 hc.2 hx hl
  | utime path atime mtime =>
    obtain ⟨rc, hx⟩ := hret hx
    have hset (n : Inode) : SameBody n { n with iAtime := atime, iMtime := mtime } := ⟨rfl, rfl, rfl, rfl⟩
    exact h.setAttr_outcome he hK hset hc.1 hc.2 hx hl
  | rename old new =>
    obtain ⟨rc, hx⟩ := hret hx
    exact h.rename_outcome he hK hc hx hl
  | symlink target linkpath =>
    obtain ⟨rc, hx⟩ := hret hx
    exact h.symlink_outcome he hK hc hx hl
  | readlink path buf len =>
    obtain ⟨r, hr⟩ := h.readlink he hK (hK.untwinned hc)
    exact hlook hr hx
  | sync =>
    obtain ⟨rc, hx⟩ := hret hx
    obtain ⟨-, m', hs, hS⟩ := h.sync he hK hx hl
    exact ⟨m', hs, .synced hS⟩
  | openFile path flags => exact hlook (h.open he hK hc) hx
  | closeFile fp =>
    obtain ⟨rc, hx⟩ := hret hx
    exact h.close_outcome he hK hc hx hl
  | readFd fp buf count off =>
    obtain ⟨r, hx⟩ := hret hx
    obtain ⟨t, rfl⟩ := readFd_cases hx
    exact (h.atClock t).outcome
  | writeFd fp buf count off =>
    obtain ⟨r, hx⟩ := hret hx
    exact h.writeFd_outcome he hc hx
  | readdir path => exact hlook (h.readdir he) hx
  | remount flags =>
    obtain ⟨ok, fs₁, hm, hx⟩ := of_bind hx
    split at hx
    · obtain ⟨-, rfl⟩ := Prod.mk.inj (Option.some.inj hx)
      subst ‹ok = true›
      obtain ⟨m', hs, hR⟩ := h.remount he hK hc hm hl
      exact ⟨m', hs, .remounted hR⟩
    · cases hx

end step

/-- The states that operations which meet a condition, and leave free blocks, lead to. -/
inductive RunBy (C : Fs → Op → Prop) (env : Env) : Fs → Prop
  | fresh {sizeMb flags : UInt64} {fs : Fs} : Volume.fresh env sizeMb flags = some fs →
    RunBy C env fs
  | step {op : Op} {fs fs' : Fs} : RunBy C env fs → C fs op → exec env op fs = some ((), fs') →
    Live fs' → RunBy C env fs'

abbrev CarefulRun (K : Path → Prop) (env : Env) : Fs → Prop := RunBy (Careful K) env

section run

variable {env : Env} (he : Healthy env) {K : Path → Prop} (hK : Names K) {fs : Fs}
  {C : Fs → Op → Prop}

theorem RunBy.reachable (h : RunBy C env fs) : Reachable env fs := by
  induction h with
  | fresh hx => exact .fresh hx
  | step _ _ hx _ ih => exact .step ih hx

include he hK

/-- An invariant of the fresh state that every outcome keeps holds along every careful run. -/
theorem RunBy.invariant (hC : ∀ fs op, C fs op → Careful K fs op) {I : Inodes → Fs → Prop}
    (hfresh : ∀ sizeMb flags, GoodSize sizeMb →
      I (freshInodes (env.time 1)) (freshFs env sizeMb flags))
    (hstep : ∀ {op m m' fs fs'}, Sound K m ∅ fs → I m fs → C fs op →
      Sound K m' ∅ fs' → Outcome K m m' fs fs' op → I m' fs')
    (h : RunBy C env fs) : Sound K (indexed fs) ∅ fs ∧ I (indexed fs) fs := by
  induction h with
  | @fresh sizeMb flags _ hx =>
    have hg := goodSize_of_fresh hx
    obtain rfl := eq_freshFs he hx
    have hs : Sound K _ ∅ (freshFs env sizeMb flags) := sound_fresh hK hg flags
    rw [hs.indexed_eq hK]
    exact ⟨hs, hfresh _ _ hg⟩
  | step _ hc hx hl ih =>
    obtain ⟨m', hs, ho⟩ := ih.1.step he hK (hC _ _ hc) hx hl
    rw [hs.indexed_eq hK]
    exact ⟨hs, hstep ih.1 ih.2 hc hs ho⟩

theorem CarefulRun.sound (h : CarefulRun K env fs) : Sound K (indexed fs) ∅ fs :=
  (h.invariant he hK (fun _ _ ↦ id) (I := fun _ _ ↦ True) (fun _ _ _ ↦ trivial)
    fun _ _ _ _ _ ↦ trivial).1

end run

end Xxfs.Soundness

import Xxfs.Careful

namespace Xxfs.Soundness

open Function
open Xxfs.DiskFormat Xxfs.Machine Xxfs.PageStore Xxfs.InodeCache Xxfs.DirCache Xxfs.Volume
open Xxfs.Operations Xxfs.Hash Xxfs.PathName Xxfs.IndexRep Xxfs.CacheMap Xxfs.IndexState Xxfs.Runs
open Xxfs.Lib Xxfs.Lib.Computation Xxfs.Lib.Computation.Comp

/-- The operations that may change what the file at `p` holds, or take it away. -/
def Alters (p : Path) : Op → Prop
  | .unlink path | .rename path _ => pathNormalize path = p
  | .write path _ _ len => pathNormalize path = p ∧ len ≠ 0
  | .closeFile fp => fp.path = p
  | .writeFd fp _ count _ => fp.path = p ∧ count ≠ 0
  | _ => False

/-- The file `n` is still at `p`, with the same content. -/
def Keeps (p : Path) (n : Inode) (m' : Inodes) (fs fs' : Fs) : Prop :=
  ∃ n', seen m' fs' p = some n' ∧ SameBody n n' ∧
    ∀ i ∈ extent n, fs'.img.data i = fs.img.data i

section keeps

variable {K : Path → Prop} {m m' : Inodes} {fs fs' : Fs} (h : Sound K m ∅ fs) {p : Path} {n : Inode}
  (hn : seen m fs p = some n) (ht : n.iFileType ≠ ftDir)
include h hn ht

theorem Sound.keeps_effect {P D W : Set Path} (hE : Effect P D W m m' fs fs') (hp : p ∉ P) :
    Keeps p n m' fs fs' :=
  ⟨n, (hE.stays h.coherent hp hn fun hd ↦ (ht hd).elim).2, .refl n,
    hE.data p n hp hn fun hd ↦ (ht hd).elim⟩

theorem Sound.keeps_looked (hL : Looked K m fs fs') : ∃ m', Sound K m' ∅ fs' ∧ Keeps p n m' fs fs' :=
  ⟨m, hL.sound, h.keeps_effect hn ht hL.effect (Set.notMem_empty _)⟩

omit ht in
theorem Sound.ne_of_absent {q : Path} (hq : m q = none) : p ≠ q := by
  rintro rfl
  obtain ⟨x, hx, -⟩ := h.stored_some hn
  rw [hq] at hx
  cases hx

end keeps

section step

variable {env : Env} (he : Healthy env) {K : Path → Prop} (hK : Names K) {m : Inodes} {fs fs' : Fs}
  (h : Sound K m ∅ fs) {p : Path} {n : Inode} (hn : seen m fs p = some n)
  (ht : n.iFileType ≠ ftDir) {path : Path} {rc : Rc}
include h hn ht

theorem Made.keeps {q : Path} {x : Inode} {type : UInt8} (hM : Made K q x type m fs rc fs')
    (hv : cell fs.icache q = none → Vacant m fs q) :
    ∃ m', Sound K m' ∅ fs' ∧ Keeps p n m' fs fs' := by
  rcases hM with ⟨-, -, l, rfl⟩ | ⟨hc, -, -, m', hs, hA⟩
  · exact h.keeps_looked hn ht (h.relock l)
  · exact ⟨m', hs, h.keeps_effect hn ht hA.toEffect (h.ne_of_absent hn (hv hc).absent)⟩

theorem Unlinked.keeps {q : Path} (hU : Unlinked K q m fs rc fs') (hne : p ≠ q) :
    ∃ m', Sound K m' ∅ fs' ∧ Keeps p n m' fs fs' := by
  obtain ⟨-, -, m', hs, hR⟩ := hU
  exact ⟨m', hs, h.keeps_effect hn ht hR.toEffect hne⟩

include he hK

theorem Sound.unlink_keeps (hc : CarefulAt K m fs (.unlink path)) (hne : pathNormalize path ≠ p)
    (hx : xxfsUnlink env path fs = some (rc, fs')) (hl : Live fs') :
    ∃ m', Sound K m' ∅ fs' ∧ Keeps p n m' fs fs' := by
  have hU := h.unlink he hK hc.1 hc.2 hx hl
  cases hx : seen m fs (pathNormalize path) with
  | none =>
    rw [hx] at hU
    exact h.keeps_looked hn ht hU.2
  | some x =>
    rw [hx] at hU
    dsimp only at hU
    split at hU
    · exact h.keeps_looked hn ht hU.2
    · exact hU.keeps h hn ht hne.symm

theorem Sound.rmdir_keeps (hc : CarefulAt K m fs (.rmdir path))
    (hx : xxfsRmdir env path fs = some (rc, fs')) (hl : Live fs') :
    ∃ m', Sound K m' ∅ fs' ∧ Keeps p n m' fs fs' := by
  have hU := h.rmdir he hK hc.1 hc.2 hx hl
  split at hU
  · obtain ⟨-, rfl⟩ := hU
    exact h.keeps_looked hn ht (h.looked_same rfl rfl rfl rfl rfl rfl)
  cases hx : seen m fs (pathNormalize path) with
  | none =>
    rw [hx] at hU
    exact h.keeps_looked hn ht hU.2
  | some x =>
    rw [hx] at hU
    dsimp only at hU
    split at hU
    · exact h.keeps_looked hn ht hU.2
    · rename_i hdir
      refine hU.keeps h hn ht ?_
      rintro rfl
      rw [hn] at hx
      cases hx
      exact hdir ht

theorem Sound.write_keeps {buf : ℕ → UInt8} {off : UInt64} {len : UInt32}
    (hc : CarefulAt K m fs (.write path buf off len)) (hop : ¬Alters p (.write path buf off len))
    (hx : xxfsWrite env path buf off len fs = some (rc, fs')) (hl : Live fs') :
    ∃ m', Sound K m' ∅ fs' ∧ Keeps p n m' fs fs' := by
  by_cases hlen : len = 0
  · rw [xxfsWrite, if_pos hlen] at hx
    obtain ⟨-, rfl⟩ := Prod.mk.inj (Option.some.inj hx)
    exact h.keeps_looked hn ht (h.looked_same rfl rfl rfl rfl rfl rfl)
  have hne : p ≠ pathNormalize path := fun hp ↦ hop ⟨hp.symm, hlen⟩
  have hW := h.writes he hK hc.1 hlen (hc.2 hlen) hx hl
  cases hx : seen m fs (pathNormalize path) with
  | none =>
    rw [hx] at hW
    exact h.keeps_looked hn ht hW.2
  | some x =>
    rw [hx] at hW
    dsimp only at hW
    split at hW
    · exact h.keeps_looked hn ht hW.2
    · obtain ⟨-, x', hs, hW⟩ := hW
      exact ⟨m, hs, h.keeps_effect hn ht hW.toEffect hne⟩

theorem Sound.setAttr_keeps {set : Inode → Inode} (hset : ∀ n, SameBody n (set n))
    (hp : K (pathNormalize path))
    (hsame : seen m fs (pathNormalize path) = m (pathNormalize path))
    (hx : Operations.setAttr env set path fs = some (rc, fs')) (hl : Live fs') :
    ∃ m', Sound K m' ∅ fs' ∧ Keeps p n m' fs fs' := by
  have hA := h.setAttr he hK hset hp (sameBody_of_eq hsame) hx hl
  cases hx : m (pathNormalize path) with
  | none =>
    rw [hx] at hA
    exact h.keeps_looked hn ht hA.2
  | some x =>
    rw [hx] at hA
    obtain ⟨-, now, m', hs, hR⟩ := hA
    refine ⟨m', hs, ?_⟩
    by_cases hpp : p = pathNormalize path
    · subst hpp
      obtain rfl : x = n := Option.some.inj (hx.symm.trans (hsame.symm.trans hn))
      exact ⟨_, hR.now, sameBody_attr hset x now, hR.bytes x hn⟩
    · exact h.keeps_effect hn ht hR.toEffect hpp

theorem Sound.rename_keeps {old new : Path} (hc : CarefulAt K m fs (.rename old new))
    (hne : pathNormalize old ≠ p) (hx : xxfsRename env old new fs = some (rc, fs')) (hl : Live fs') :
    ∃ m', Sound K m' ∅ fs' ∧ Keeps p n m' fs fs' := by
  obtain ⟨hold, hnew, hsame, hnot, hmove⟩ := hc
  have hR := h.rename he hK hold hnew hsame (fun hn ↦ (hmove hn).1) (fun hn ↦ (hmove hn).2) hnot
    hx hl
  cases hx : m (pathNormalize old) with
  | none =>
    rw [hx] at hR
    exact h.keeps_looked hn ht hR.2
  | some x =>
    rw [hx] at hR hmove
    obtain ⟨-, now, m', hs, hR⟩ := hR
    have hspot := (hmove (Option.some_ne_none x)).2
    refine ⟨m', hs, h.keeps_effect hn ht hR.toEffect ?_⟩
    rintro (rfl | rfl)
    · exact hne rfl
    · exact h.ne_of_absent hn hspot.absent rfl

theorem Sound.symlink_keeps {target linkpath : Path}
    (hc : CarefulAt K m fs (.symlink target linkpath))
    (hx : xxfsSymlink env target linkpath fs = some (rc, fs')) (hl : Live fs') :
    ∃ m', Sound K m' ∅ fs' ∧ Keeps p n m' fs fs' := by
  have hS := h.symlink he hK hc.1 hc.2 hx hl
  split at hS
  · obtain ⟨-, rfl⟩ := hS
    exact h.keeps_looked hn ht (h.looked_same rfl rfl rfl rfl rfl rfl)
  cases hx : seen m fs (pathNormalize linkpath) with
  | some x =>
    rw [hx] at hS
    exact h.keeps_looked hn ht hS.2
  | none =>
    rw [hx] at hS
    obtain ⟨-, now, m', hs, hR⟩ := hS
    refine ⟨m', hs, h.keeps_effect hn ht hR.toEffect ?_⟩
    rintro rfl
    rw [hn] at hx
    cases hx

theorem Sound.close_keeps {fp : File} (hc : CarefulAt K m fs (.closeFile fp)) (hne : fp.path ≠ p)
    (hx : xxfsClose env fp fs = some (rc, fs')) (hl : Live fs') :
    ∃ m', Sound K m' ∅ fs' ∧ Keeps p n m' fs fs' := by
  obtain ⟨hp, hhash, hcl⟩ := hc
  have hC := (h.close he hK hp hhash hcl hx hl).2
  cases hcell : cell fs.icache fp.path with
  | none =>
    rw [hcell] at hC
    exact h.keeps_looked hn ht hC
  | some x =>
    rw [hcell] at hC
    obtain ⟨now, m', hs, hR⟩ := hC
    exact ⟨m', hs, h.keeps_effect hn ht hR.toEffect hne.symm⟩

omit hK in
theorem Sound.writeFd_keeps {fp : File} {buf : ℕ → UInt8} {count off : UInt64}
    {r : Except Rc UInt64 × File} (hc : CarefulAt K m fs (.writeFd fp buf count off))
    (hop : ¬Alters p (.writeFd fp buf count off))
    (hx : xxfsWriteFd env fp buf count off fs = some (r, fs')) :
    ∃ m', Sound K m' ∅ fs' ∧ Keeps p n m' fs fs' := by
  by_cases h0 : count = 0
  · rw [xxfsWriteFd, if_pos h0] at hx
    obtain ⟨-, rfl⟩ := Prod.mk.inj (Option.some.inj hx)
    exact h.keeps_looked hn ht (h.looked_same rfl rfl rfl rfl rfl rfl)
  obtain ⟨x, hx', hin⟩ := hc h0
  rw [h.writeFd he hx' hin h0] at hx
  obtain ⟨-, rfl⟩ := Prod.mk.inj (Option.some.inj hx)
  obtain ⟨hs, hE⟩ : Sound K m ∅ (Soundness.poured fs x buf count off) ∧ _ :=
    h.poured hx' hin
  exact ⟨m, hs, h.keeps_effect hn ht hE fun hp ↦ hop ⟨hp.symm, h0⟩⟩

theorem Sound.sync_keeps (hx : xxfsSync env fs = some (rc, fs')) (hl : Live fs') :
    ∃ m', Sound K m' ∅ fs' ∧ Keeps p n m' fs fs' := by
  obtain ⟨-, m', hs, hS⟩ := h.sync he hK hx hl
  obtain ⟨⟨n', hn', hb⟩, hdata⟩ := hS.files p n hn fun hd ↦ (ht hd).elim
  exact ⟨m', hs, n', hn', hb, hdata⟩

/-- A careful operation that does not alter a file keeps it at its path, with its content. -/
theorem Sound.keeps {op : Op} (hc : CarefulAt K m fs op) (hop : ¬Alters p op)
    (hx : exec env op fs = some ((), fs')) (hl : Live fs') :
    ∃ m', Sound K m' ∅ fs' ∧ Keeps p n m' fs fs' := by
  have hret {α : Type} {c : FsM α} (hd : discard c fs = some ((), fs')) :
      ∃ a, c fs = some (a, fs') := by
    obtain ⟨⟨a, fs₁⟩, ha, hfs⟩ := Option.bind_eq_some_iff.mp hd
    obtain ⟨-, rfl⟩ := Prod.mk.inj (Option.some.inj hfs)
    exact ⟨a, ha⟩
  have hlook {α : Type} {c : FsM α} {a : α} (ha : ∃ fs₁, c fs = some (a, fs₁) ∧ Looked K m fs fs₁)
      (hd : discard c fs = some ((), fs')) : ∃ m', Sound K m' ∅ fs' ∧ Keeps p n m' fs fs' := by
    obtain ⟨fs₁, ha, hL⟩ := ha
    obtain ⟨b, hb⟩ := hret hd
    obtain ⟨-, rfl⟩ := Prod.mk.inj (Option.some.inj (hb.symm.trans ha))
    exact h.keeps_looked hn ht hL
  cases op with
  | create path mode uid gid =>
    obtain ⟨rc, hx⟩ := hret hx
    exact (h.create he hK hc.1 hc.2 hx hl).keeps h hn ht hc.2
  | mkdir path mode uid gid =>
    obtain ⟨rc, hx⟩ := hret hx
    exact (h.mkdir he hK hc.1 hc.2 hx hl).keeps h hn ht hc.2
  | unlink path =>
    obtain ⟨rc, hx⟩ := hret hx
    exact h.unlink_keeps he hK hn ht hc hop hx hl
  | rmdir path =>
    obtain ⟨rc, hx⟩ := hret hx
    exact h.rmdir_keeps he hK hn ht hc hx hl
  | stat path => exact hlook (h.stat he hK (hK.untwinned hc)) hx
  | write path buf off len =>
    obtain ⟨rc, hx⟩ := hret hx
    exact h.write_keeps he hK hn ht hc hop hx hl
  | read path buf off len =>
    by_cases hlen : len = 0
    · obtain ⟨r, hx⟩ := hret hx
      rw [xxfsRead, if_pos hlen] at hx
      obtain ⟨-, rfl⟩ := Prod.mk.inj (Option.some.inj hx)
      exact h.keeps_looked hn ht (h.looked_same rfl rfl rfl rfl rfl rfl)
    · exact hlook (h.read he hK (hK.untwinned hc) hlen) hx
  | chmod path mode =>
    obtain ⟨rc, hx⟩ := hret hx
    have hset (n : Inode) : SameBody n { n with iMode := mode } := ⟨rfl, rfl, rfl, rfl⟩
    exact h.setAttr_keeps he hK hn ht hset hc.1 hc.2 hx hl
  | chown path uid gid =>
    obtain ⟨rc, hx⟩ := hret hx
    have hset (n : Inode) : SameBody n { n with iUid := uid, iGid := gid } := ⟨rfl, rfl, rfl, rfl⟩
    exact h.setAttr_keeps he hK hn ht hset hc.1 hc.2 hx hl
  | utime path atime mtime =>
    obtain ⟨rc, hx⟩ := hret hx
    have hset (n : Inode) : SameBody n { n with iAtime := atime, iMtime := mtime } :=
      ⟨rfl, rfl, rfl, rfl⟩
    exact h.setAttr_keeps he hK hn ht hset hc.1 hc.2 hx hl
  | rename old new =>
    obtain ⟨rc, hx⟩ := hret hx
    exact h.rename_keeps he hK hn ht hc hop hx hl
  | symlink target linkpath =>
    obtain ⟨rc, hx⟩ := hret hx
    exact h.symlink_keeps he hK hn ht hc hx hl
  | readlink path buf len =>
    obtain ⟨r, hr⟩ := h.readlink he hK (hK.untwinned hc)
    exact hlook hr hx
  | sync =>
    obtain ⟨rc, hx⟩ := hret hx
    exact h.sync_keeps he hK hn ht hx hl
  | openFile path flags => exact hlook (h.open he hK hc) hx
  | closeFile fp =>
    obtain ⟨rc, hx⟩ := hret hx
    exact h.close_keeps he hK hn ht hc hop hx hl
  | readFd fp buf count off =>
    obtain ⟨r, hx⟩ := hret hx
    obtain ⟨t, rfl⟩ := readFd_cases hx
    exact h.keeps_looked hn ht (h.atClock t)
  | writeFd fp buf count off =>
    obtain ⟨r, hx⟩ := hret hx
    exact h.writeFd_keeps he hn ht hc hop hx
  | readdir path => exact hlook (h.readdir he) hx
  | remount flags =>
    obtain ⟨ok, fs₁, hm, hx⟩ := of_bind hx
    split at hx
    · obtain ⟨-, rfl⟩ := Prod.mk.inj (Option.some.inj hx)
      subst ‹ok = true›
      obtain ⟨m', hs, hR⟩ := h.remount he hK hc hm hl
      exact ⟨m', hs, h.keeps_effect hn ht hR.toEffect (Set.notMem_empty _)⟩
    · cases hx

end step

end Xxfs.Soundness

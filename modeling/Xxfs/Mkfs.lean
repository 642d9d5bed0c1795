import Xxfs.FsckRuns
import Xxfs.Shell

namespace Xxfs.Mkfs

open Xxfs.DiskFormat Xxfs.Machine Xxfs.Volume Xxfs.Operations Xxfs.PathName Xxfs.Shell
open Xxfs.Runs Xxfs.CacheMap Xxfs.Soundness Xxfs.IndexState Xxfs.FreshVolume Xxfs.FreshIndex
open Xxfs.NamespaceRuns Xxfs.ListingRuns Xxfs.PowerLoss Xxfs.Fsck Xxfs.Lib.Computation Xxfs.Lib.Computation.Comp

variable (env : Env)

/-- The exit code of mkfs for a return code of the library. -/
def exitCode (rc : Rc) : ℕ := if rc ≠ .ok then 1 else 0

def mkfsMain : List Path → FsM ℕ
  | _ :: path :: rest =>
    if ascii "/dev/" <+: path then exitCode <$> xxfsMkfsDevice env
    else match rest with
      | [] => return 1
      | word :: _ =>
        let sizeMb := UInt64.ofInt (strtol 10 word)
        if sizeMb < 1 then return 1
        else exitCode <$> xxfsMkfs env sizeMb
  | _ => return 1

section image

variable {env : Env} (he : Healthy env) {K : Path → Prop} (hK : Names K) {sizeMb : UInt64} {k : ℕ}

theorem xxfsMkfs_refused (h : ¬GoodSize sizeMb) :
    ∃ rc fs, xxfsMkfs env sizeMb (blank emptyImage 0 0) = some (rc, fs) ∧ rc ≠ .ok := by
  by_cases h1 : sizeMb < 1
  · exact ⟨.einval, _, by rw [xxfsMkfs, if_pos h1]; rfl, by decide⟩
  · have h2 : ¬(sizeMb * 1024 * 1024).toNat < 2 ^ 63 := fun h2 ↦ h ⟨UInt64.not_lt.mp h1, h2⟩
    refine ⟨.eio, { blank emptyImage 0 0 with clock := 1 }, ?_, by decide⟩
    rw [xxfsMkfs, if_neg h1, bind_apply, tick_apply, Option.bind_some, if_neg fun hc ↦ h2 hc.2]
    rfl

include he

theorem xxfsMkfs_mounts (h : GoodSize sizeMb) : ∃ fs, xxfsMkfs env sizeMb (blank emptyImage 0 0) = some (.ok, fs) ∧
    powerLoss env 0 fs = some (true, freshFs env sizeMb 0) := by
  have hlt : ¬sizeMb < 1 := UInt64.not_lt.mpr h.1
  have hmkfs : xxfsMkfs env sizeMb (blank emptyImage 0 0) = some (.ok, { blank emptyImage 0 0 with
      img := mkfsImage (zeros (sizeMb * 1024 * 1024).toNat) (totalBlocks sizeMb) (env.time 1)
      clock := 10 }) := by
    rw [xxfsMkfs, if_neg hlt, bind_apply, tick_apply, Option.bind_some, if_pos ⟨he.io _, h.2⟩, bind_apply]
    simp only [modify_apply, Option.bind_some]
    rw [mkfsWrite_apply he]
    rfl
  have hfresh := fresh_apply he h 0
  rw [fresh, hmkfs, Option.bind_some, if_pos rfl] at hfresh
  obtain ⟨⟨ok, fs⟩, hmount, hok⟩ := Option.bind_eq_some_iff.mp hfresh
  dsimp only at hok
  split at hok
  · subst ‹ok = true›
    obtain rfl := Option.some.inj hok
    exact ⟨_, hmkfs, hmount⟩
  · cases hok

include hK

theorem fresh_passes (h : GoodSize sizeMb) (hk : maxPath ≤ k) {fs : Fs}
    (hx : powerLoss env 0 fs = some (true, freshFs env sizeMb 0)) : ∃ out fs',
      fsckMain env k fs = some (out, fs') ∧ Passes env K (· = rootPath) fs fs' out := by
  have hs : Sound K _ ∅ (freshFs env sizeMb 0) := sound_fresh hK h 0
  have hlevel (p : Path) : seen (freshInodes (env.time 1)) (freshFs env sizeMb 0) p =
      freshInodes (env.time 1) p := by rw [seen_fresh]
  have hcheck : Checkable K (freshInodes (env.time 1)) (freshFs env sizeMb 0) :=
    ⟨hs, mirror_fresh sizeMb 0, hlevel⟩
  obtain ⟨out, fs', hrun, hpass⟩ := hcheck.fsckMain he hK (dirtyDirs_fresh env sizeMb 0) hx hk
  refine ⟨out, fs', hrun, hpass.exit, hpass.quiet, hpass.once, fun p ↦ ?_, hpass.answers⟩
  rw [hpass.visits]
  constructor
  · intro hex
    obtain ⟨n, hn⟩ := Option.ne_none_iff_exists'.mp hex
    obtain ⟨x, hx, -⟩ := Option.map_eq_some_iff.mp hn
    exact (freshInodes_cases hx).1
  · rintro rfl
    rw [hs.tree.root]
    exact Option.some_ne_none _

/-- mkfs on an image file exits with zero exactly for the sizes that fit; what it leaves then passes
fsck, which finds the root and nothing else. -/
theorem mkfs_chain (prog word : Path) (more : List Path) {path : Path} (hpath : ¬ascii "/dev/" <+: path)
    (hk : maxPath ≤ k) :
    ∃ code fs, mkfsMain env (prog :: path :: word :: more) (blank emptyImage 0 0) = some (code, fs) ∧
      (code = 0 ↔ GoodSize (.ofInt (strtol 10 word))) ∧
      (code = 0 → ∃ out fs', fsckMain env k fs = some (out, fs') ∧ Passes env K (· = rootPath) fs fs' out) := by
  rw [mkfsMain, if_neg hpath]
  generalize UInt64.ofInt (strtol 10 word) = sizeMb
  by_cases h : GoodSize sizeMb
  · obtain ⟨fs, hmkfs, hmount⟩ := xxfsMkfs_mounts he h
    refine ⟨0, fs, ?_, ⟨fun _ ↦ h, fun _ ↦ rfl⟩, fun _ ↦ fresh_passes he hK h hk hmount⟩
    rw [if_neg (UInt64.not_lt.mpr h.1), map_apply, hmkfs]
    rfl
  · by_cases hlt : sizeMb < 1
    · refine ⟨1, blank emptyImage 0 0, ?_, ⟨fun h1 ↦ (Nat.one_ne_zero h1).elim, fun hg ↦ (h hg).elim⟩,
        fun h1 ↦ (Nat.one_ne_zero h1).elim⟩
      rw [if_pos hlt]
      rfl
    · obtain ⟨rc, fs, hmkfs, hrc⟩ :
          ∃ rc fs, xxfsMkfs env sizeMb (blank emptyImage 0 0) = some (rc, fs) ∧ rc ≠ .ok :=
        xxfsMkfs_refused h
      refine ⟨1, fs, ?_, ⟨fun h1 ↦ (Nat.one_ne_zero h1).elim, fun hg ↦ (h hg).elim⟩,
        fun h1 ↦ (Nat.one_ne_zero h1).elim⟩
      rw [if_neg hlt, map_apply, hmkfs, Option.map_some, exitCode, if_pos hrc]

end image

/-- "mkfs i 1" -/
theorem mkfs_chain_one : ∃ fs out fs',
    mkfsMain steady [ascii "mkfs", ascii "i", ascii "1"] (blank emptyImage 0 0) = some (0, fs) ∧
      fsckMain steady maxPath fs = some (out, fs') ∧
      Passes steady (· ∈ fewPaths) (· = rootPath) fs fs' out := by
  obtain ⟨code, fs, hrun, hcode, hpass⟩ := mkfs_chain steady_healthy fewPaths_names (ascii "mkfs")
    (ascii "1") [] (show ¬ascii "/dev/" <+: ascii "i" by decide) le_rfl
  have hsize : UInt64.ofInt (strtol 10 (ascii "1")) = 1 := by decide
  rw [hsize] at hcode
  obtain rfl := hcode.mpr goodSize_one
  obtain ⟨out, fs', hfsck, hout⟩ := hpass rfl
  exact ⟨fs, out, fs', hrun, hfsck, hout⟩

end Xxfs.Mkfs

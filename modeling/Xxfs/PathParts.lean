import Xxfs.Operations
import Xxfs.PathNormal

namespace Xxfs.PathName

open Xxfs.DiskFormat Xxfs.Operations Xxfs.Lib.Segments

/-- The path of a child that fsck's `check_path` prints into its buffer. -/
def checkPathChild (path name : Path) : Path :=
  (if path = [slash] then slash :: name else path ++ slash :: name).take (maxPath - 1)

/-- The last component as a loop of its own scans for it, and how much of it an inode stores. -/
def scannedName (norm : Path) : Path × ℕ :=
  let name := scanBack norm norm.length
  (norm.drop name, if norm.length - name > maxName then maxName else norm.length - name)

def createName (norm : Path) : Path × ℕ := scannedName norm

def renameName (newNorm : Path) : Path × ℕ := scannedName newNorm

theorem scannedName_eq (norm : Path) :
    scannedName norm = (getBasename norm, min (getBasename norm).length maxName) := by
  rw [scannedName, getBasename, List.length_drop]
  refine Prod.ext rfl ?_
  dsimp only
  split <;> omega

/-- The name that a new inode stores is the one that the loop of `xxfs_create` has found. -/
theorem storeName_eq (old : Fin 256 → UInt8) (norm : Path) :
    storeName old norm = arrCopy old 0 (createName norm).2 (bytesAt (createName norm).1) := by
  rw [createName, scannedName_eq, storeName]

theorem nameTerminated_eq (old : Fin 256 → UInt8) (norm : Path) : nameTerminated old norm =
    arrCopy (arrCopy old 0 (renameName norm).2 (bytesAt (renameName norm).1)) (renameName norm).2 1
      fun _ ↦ 0 := by
  rw [renameName, scannedName_eq, nameTerminated, storeName]

section parts

variable {p : Path}

theorem NormalForm.clean (h : NormalForm p) : Clean p := by
  by_cases hroot : p = [slash]
  · exact ⟨[], fun _ hc ↦ absurd hc List.not_mem_nil, hroot⟩
  obtain ⟨rest, rfl⟩ := List.head?_eq_some_iff.mp h.head
  have hparts := h.parts hroot
  rw [List.tail_cons] at hparts
  refine ⟨rest.splitOn slash, fun c hc ↦ ?_, ?_⟩
  · have hblank := hparts c hc
    exact ⟨fun hne ↦ hblank (.inl hne), not_mem_of_mem_splitOn hc, fun hd ↦ hblank (.inr hd)⟩
  · rw [joinPath_eq_intercalate, List.intercalate_splitOn]

theorem checkPathChild_parts {cs : List Path} {c : Path}
    (hne : absPath cs ≠ [slash]) (hlen : (joinPath (cs ++ [c])).length ≤ maxPath - 1) :
    checkPathChild (joinPath cs) c = joinPath (cs ++ [c]) := by
  have hjoin : (if joinPath cs = [slash] then slash :: c else joinPath cs ++ slash :: c) =
      joinPath (cs ++ [c]) := by
    rw [joinPath_snoc, joinPath]
    by_cases hcs : cs = []
    · subst hcs
      rfl
    · rw [if_neg hcs, if_neg hne]
  rw [checkPathChild, hjoin, List.take_of_length_le hlen]

/-- A path is taken apart into its parent and its name, and put together again. -/
theorem parts_rejoin (h : NormalForm p) (hroot : p ≠ [slash]) :
    getBasename p ≠ [] ∧ slash ∉ getBasename p ∧ NormalForm (getParentPath p) ∧
      (getParentPath p).length < p.length ∧
      checkPathChild (getParentPath p) (getBasename p) = p ∧
      (createName p).1 = getBasename p ∧ (renameName p).1 = getBasename p := by
  have hlen : p.length ≤ maxPath - 1 := h.short
  have hclean := h.clean
  have hparent : Clean (getParentPath p) := hclean.parent
  obtain ⟨cs, c, hcs, hc, rfl⟩ := hclean.cases hroot
  have hshorter : (joinPath cs).length < (joinPath (cs ++ [c])).length := by
    have hpos := List.length_pos_iff.mpr hc.ne
    rw [joinPath_snoc, List.length_append, List.length_cons, joinPath]
    split
    · rw [List.length_singleton]
      omega
    · omega
  have hne : absPath cs ≠ [slash] := by
    rcases List.eq_nil_or_concat cs with rfl | ⟨ds, d, rfl⟩
    · exact fun h ↦ by cases h
    · rw [List.concat_eq_append] at hcs ⊢
      have hjoin : joinPath (ds ++ [d]) ≠ [slash] := joinPath_ne_root (hcs d (by simp))
      rwa [joinPath, if_neg (by simp)] at hjoin
  rw [getParentPath_joinPath hc] at hparent ⊢
  rw [getBasename_joinPath hc, createName, renameName, scannedName_eq, getBasename_joinPath hc]
  exact ⟨hc.ne, hc.noSlash, hparent.normalForm (hshorter.le.trans hlen), hshorter,
    checkPathChild_parts hne hlen, rfl, rfl⟩

/-- The path "/a/b". -/
theorem parts_rejoin_short :
    getBasename [47, 97, 47, 98] ≠ [] ∧ slash ∉ getBasename [47, 97, 47, 98] ∧
      NormalForm (getParentPath [47, 97, 47, 98]) ∧
      (getParentPath [47, 97, 47, 98]).length < [(47 : UInt8), 97, 47, 98].length ∧
      checkPathChild (getParentPath [47, 97, 47, 98]) (getBasename [47, 97, 47, 98]) =
        [47, 97, 47, 98] ∧
      (createName [47, 97, 47, 98]).1 = getBasename [47, 97, 47, 98] ∧
      (renameName [47, 97, 47, 98]).1 = getBasename [47, 97, 47, 98] :=
  parts_rejoin ((normalForm_iff [47, 97, 47, 98]).mpr (by decide)) (by decide)

end parts

end Xxfs.PathName

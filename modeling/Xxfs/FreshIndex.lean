import Xxfs.FreshVolume
import Xxfs.IndexWalk

namespace Xxfs.FreshIndex

open Xxfs.DiskFormat Xxfs.Machine Xxfs.Allocator Xxfs.PageCache Xxfs.PagedIndex Xxfs.PageStore
open Xxfs.Volume Xxfs.Hash Xxfs.IndexRep Xxfs.FreshVolume

/-- The chain of a fresh index: one page with the record of the root. -/
def freshChain (blocks now : UInt64) : Chain :=
  [(dataStart blocks + 4096, [⟨rootPath, inodeToVal (rootInode now), some (dataStart blocks)⟩])]

theorem inodeToVal_length (n : Inode) : (inodeToVal n).length = 560 := toList_length _ _

theorem recordAt_root {img : Image} {blocks now : UInt64} (hi : FreshImage img blocks now) :
    RecordAt img (dataStart blocks) rootPath (inodeToVal (rootInode now)) := by
  have hlen := inodeToVal_length (rootInode now)
  have hsize := hi.size
  have h1 : rootPath.length = 1 := rfl
  refine ⟨fun j hj ↦ ?_, fun j hj ↦ ?_, by omega⟩
  · rw [← recordBytes_key rootPath (inodeToVal (rootInode now)) hj, ← hi.record _ (by omega),
      Nat.add_assoc]
  · rw [← recordBytes_val rootPath (inodeToVal (rootInode now)) hj, ← hi.record _ (by omega),
      ← Nat.add_assoc, ← Nat.add_assoc]

theorem rootPage_rep {img : Image} {off : UInt64} {val : List UInt8} (hlen : val.length = 560)
    (hrec : RecordAt img off rootPath val) :
    PageRep img (rootPage off) [⟨rootPath, val, some off⟩] := by
  have hslot : (rootPage off).slot 0 = { PagedSlot.zero with
      hash := xxh64 rootPath
      fileOff := off
      klen := 1
      vlen := 560
      keyPrefix := arrCopy (fun _ ↦ 0) 0 1 (bytesAt rootPath) } :=
    setSlot_slot PagedPage.zero _ (by decide)
  refine ⟨rfl, Nat.succ_le_of_lt (by decide), Nat.zero_le _, fun i e he ↦ ?_,
    fun i j e e' hij he he' ↦ ?_⟩
  · obtain ⟨hlt, rfl⟩ := List.getElem?_eq_some_iff.mp he
    obtain rfl : i = 0 := by simpa using hlt
    rw [hslot, List.getElem_cons_zero]
    refine ⟨by dsimp only, by dsimp only; rfl, by dsimp only; rw [hlen]; rfl, ?_, fun j hj ↦ ?_,
      (by decide : PagedSlot.zero.flags &&& slotFInline = 0), by dsimp only, hrec⟩
    · dsimp only
      rw [hlen]
      decide
    dsimp only at hj ⊢
    obtain rfl : j = 0 := by
      change j < 1 at hj
      omega
    rfl
  · have hi := (List.getElem?_eq_some_iff.mp he).1
    have hj := (List.getElem?_eq_some_iff.mp he').1
    simp only [List.length_singleton] at hi hj
    omega

theorem fresh_represents (env : Env) {sizeMb : UInt64} (hg : GoodSize sizeMb) (flags : UInt64) :
    Represents (freshFs env sizeMb flags) (freshChain (totalBlocks sizeMb) (env.time 1)) := by
  have hi : FreshImage (freshFs env sizeMb flags).img _ _ := fresh_image sizeMb flags
  have hs : FreshSuper (freshFs env sizeMb flags).sb _ := fresh_super sizeMb flags
  obtain ⟨hp, hfree⟩ := fresh_poolOk env hg flags
  have hd := dataStart_bounds (totalBlocks sizeMb)
  have hpage : (dataStart (totalBlocks sizeMb) + 4096).toNat =
      (dataStart (totalBlocks sizeMb)).toNat + 4096 := dataStart_add _ 4096 (by decide)
  have hfront : front (freshFs env sizeMb flags).sb =
      (dataStart (totalBlocks sizeMb)).toNat + 7 * 4096 := by
    rw [front, hs.dataOff, ← hfree]
    omega
  have hdata : (freshFs env sizeMb flags).sb.sDataOff = dataStart (totalBlocks sizeMb) := hs.dataOff
  have hdir : (freshFs env sizeMb flags).pdir = ⟨[dataStart (totalBlocks sizeMb) + 4096], 0⟩ := rfl
  have hcache (i : ℕ) : ((freshFs env sizeMb flags).pcache i).page = none := rfl
  have hrec := recordAt_root hi
  have hdisk : diskPage (freshFs env sizeMb flags).img (dataStart (totalBlocks sizeMb) + 4096) =
      rootPage (dataStart (totalBlocks sizeMb)) := diskPage_eq (by rw [hpage]; exact hi.page)
  have hval := inodeToVal_length (rootInode (env.time 1))
  rw [freshChain]
  generalize inodeToVal (rootInode (env.time 1)) = val at hrec hval ⊢
  generalize freshFs env sizeMb flags = fs at hp hfront hdata hdir hcache hrec hdisk ⊢
  generalize dataStart (totalBlocks sizeMb) = D at hd hpage hfront hdata hdir hrec hdisk ⊢
  have hat : pageAt fs (D + 4096) = rootPage D := by
    rw [pageAt_of_absent fs (by simp [hcache]), hdisk]
  have hblocks : blocks [(D + 4096, [⟨rootPath, val, some D⟩])] = [D + 4096, D] := rfl
  refine ⟨by simp, hdir, hp, by omega, ⟨fun o ho ↦ ?_, fun i pg h ↦ ?_, fun i pg h ↦ ?_,
    fun i pg h ↦ ?_⟩, fun p h ↦ ?_, ⟨by rw [hat]; rfl, trivial⟩, ?_, fun b hb ↦ ?_⟩
  · obtain rfl : o = D + 4096 := by simpa [offs] using ho
    exact ⟨by omega, by omega⟩
  · rw [hcache] at h
    cases h
  · rw [hcache] at h
    cases h
  · rw [hcache] at h
    cases h
  · obtain rfl := List.mem_singleton.mp h
    dsimp only
    rw [hat]
    exact rootPage_rep hval hrec
  · rw [hblocks]
    simp
  · rw [hblocks] at hb
    rw [hdata, hfront]
    simp only [List.mem_cons, List.not_mem_nil, or_false] at hb
    rcases hb with rfl | rfl <;> omega

theorem fresh_page (env : Env) (sizeMb flags : UInt64) :
    pageAt (freshFs env sizeMb flags) (dataStart (totalBlocks sizeMb) + 4096) =
      rootPage (dataStart (totalBlocks sizeMb)) := by
  have hi : FreshImage (freshFs env sizeMb flags).img _ _ := fresh_image sizeMb flags
  have hpage : (dataStart (totalBlocks sizeMb) + 4096).toNat =
      (dataStart (totalBlocks sizeMb)).toNat + 4096 := dataStart_add _ 4096 (by decide)
  have hcache (i : ℕ) : ((freshFs env sizeMb flags).pcache i).page = none := rfl
  rw [pageAt_of_absent _ (by simp [hcache])]
  exact diskPage_eq (by rw [hpage]; exact hi.page)

theorem fresh_found (blocks now : UInt64) :
    found (ents (freshChain blocks now)) rootPath inodeSize = .ok (inodeToVal (rootInode now)) := by
  have hlen := inodeToVal_length (rootInode now)
  rw [freshChain]
  generalize inodeToVal (rootInode now) = val at hlen ⊢
  have hents : ents [(dataStart blocks + 4096, [⟨rootPath, val, some (dataStart blocks)⟩])] =
      [⟨rootPath, val, some (dataStart blocks)⟩] := rfl
  rw [hents, found, lookup, List.find?_cons_of_pos (by simp)]
  exact if_neg (by rw [hlen]; decide)

theorem freshOne_ample : Ample 240 (freshFs steady 1 0) := by
  have hs : FreshSuper (freshFs steady 1 0).sb _ := fresh_super 1 0
  have hp : PoolOk (freshFs steady 1 0).sb ∧ _ := fresh_poolOk steady goodSize_one 0
  have hd := dataStart_bounds (totalBlocks 1)
  have hfree : (freshFs steady 1 0).sb.sFreeBlocks.toNat = 249 := by
    rw [freshOne_free]
    rfl
  refine ⟨by omega, ?_⟩
  rw [front, hs.dataOff, ← hp.2]
  omega

theorem fresh_live (env : Env) {sizeMb : UInt64} (hg : GoodSize sizeMb) (flags : UInt64) :
    Live (freshFs env sizeMb flags) := by
  have hs : FreshSuper (freshFs env sizeMb flags).sb _ := fresh_super sizeMb flags
  obtain ⟨hp, hfree⟩ := fresh_poolOk env hg flags
  have hd := dataStart_bounds (totalBlocks sizeMb)
  have hb := totalBlocks_bounds hg
  rw [hs.blockCount] at hfree
  refine ⟨by omega, ?_⟩
  rw [front, hs.dataOff, hs.blockCount]
  omega

end Xxfs.FreshIndex

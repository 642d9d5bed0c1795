import Xxfs.ShellRuns
import Xxfs.TreeSessions

namespace Xxfs.Shell

open Function
open Xxfs.DiskFormat Xxfs.Machine Xxfs.Volume Xxfs.Operations Xxfs.PathName Xxfs.ShellPath Xxfs.CacheMap
open Xxfs.IndexState Xxfs.IndexRep Xxfs.OperationFrames Xxfs.FreshVolume Xxfs.FreshIndex Xxfs.NamespaceRuns
open Xxfs.Soundness Xxfs.Runs Xxfs.TreeSpec Xxfs.Lib.Splice Xxfs.Lib.Computation Xxfs.Lib.Computation.Comp

section parse

theorem splitAt_append {c : UInt8} {a : Path} (b : Path) (ha : c ∉ a) :
    splitAt c (a ++ c :: b) = some (a, b) := by
  have hall : ∀ x ∈ a, (decide (x ≠ c)) = true := by
    intro x hx
    exact decide_eq_true fun heq ↦ ha (heq ▸ hx)
  rw [splitAt, List.dropWhile_append_of_pos hall, List.takeWhile_append_of_pos hall,
    List.dropWhile_cons_of_neg (by simp), List.takeWhile_cons_of_neg (by simp), List.append_nil]

theorem printing_write (env : Env) (cwd : Path) (arg : Option Path) :
    printing env cwd (ascii "write") arg = cmdWrite env cwd arg := rfl

theorem printing_cat (env : Env) (cwd : Path) (arg : Option Path) :
    printing env cwd (ascii "cat") arg = cmdCat env cwd arg := rfl

/-- A line with a word that is a printing command and the rest of the line as its argument. -/
theorem command_printing (env : Env) (cwd : Path) {word : Path} (arg : Path)
    (hword : space ∉ word) (hshort : word.length ≤ 63)
    (hne : ¬(word = ascii "exit" ∨ word = ascii "quit") ∧ word ≠ ascii "cd") :
    command env cwd (word ++ space :: arg) = do
      let out ← printing env cwd word (some arg)
      return some (cwd, out) := by
  have hparse : parseLine (word ++ space :: arg) = (word, some arg) := by
    rw [parseLine, splitAt_append arg hword]
    dsimp only
    rw [List.take_of_length_le hshort]
  rw [command, if_neg (by simp), hparse]
  dsimp only
  rw [if_neg hne.1, if_neg hne.2]

end parse

section files

/-- What `cmd_cat` prints for a name of the tree. -/
def shows : Option Node → Out
  | none => [.text "  cat: read failed (rc=", .int (rcCode .enoent), .text ")\n"]
  | some n => catOut (n.bytes.take 65535)

def wrote (len : ℕ) (p : Path) : Out :=
  [.text "  wrote ", .int len, .text " bytes to ", .str p, .text "\n"]

theorem toList_bytesAt (bs : List UInt8) : toList (bytesAt bs) bs.length = bs := by
  refine List.ext_getElem (toList_length _ _) fun i hi hi' ↦ ?_
  simp [toList, bytesAt, hi']

variable {env : Env} (he : Healthy env) {K : Path → Prop} (hK : Names K) {log : List (Call × Reply)}
  {fs fs' : Fs} {cwd name : Path}

/-- The one call of `cmd_write`, and what is printed of it. -/
theorem command_write (content : Path) (hname : space ∉ name) (hshort : name.length ≤ maxPath - 1) :
    command env cwd (ascii "write" ++ space :: (name ++ space :: content)) =
      (fun rc ↦ some (cwd, if rc ≠ .ok then failed "  write" rc
        else wrote (UInt32.ofNat content.length).toNat (pathResolve cwd name))) <$>
      xxfsWrite env (pathResolve cwd name) (bytesAt content) 0 (.ofNat content.length) := by
  funext fs
  rw [command_printing env cwd _ (by decide) (by decide) (by decide), printing_write, cmdWrite,
    needs_some (by simp), splitAt_append content hname]
  dsimp only
  rw [List.take_of_length_le hshort, map_apply, bind_apply, bind_apply]
  cases xxfsWrite env (pathResolve cwd name) (bytesAt content) 0 (.ofNat content.length) fs with
  | none => rfl
  | some x =>
    simp only [Option.bind_some, Option.map_some]
    split
    · rfl
    · rfl

include he hK

theorem cat_shows (h : Session K env log fs) (hr : Resolved cwd) (hne : name ≠ [])
    (hp : K (pathResolve cwd name)) (hfile : treeOf fs (pathResolve cwd name) ≠ some .dir) :
    ∃ fs', command env cwd (ascii "cat" ++ space :: name) fs =
      some (some (cwd, shows (treeOf fs (pathResolve cwd name))), fs') := by
  obtain ⟨hs, hA, -⟩ := h.sound he hK
  have hfix := (resolved_pathResolve hr.clean name).normalForm.fixed
  generalize hpath : pathResolve cwd name = p at *
  have hp' : K (pathNormalize p) := hfix.symm ▸ hp
  have hkind : kind (indexed fs) (pathNormalize p) ≠ some ftDir := by
    rw [hfix]
    exact fun hd ↦ hfile ((kind_dir_iff hs).mp hd)
  obtain ⟨q, fs', hread⟩ : ∃ q fs', xxfsRead env p (env.junk fs.clock) 0 65535 fs = some (q, fs') := by
    obtain ⟨fs', hread, -⟩ : ∃ fs', xxfsRead env p (env.junk fs.clock) 0 65535 fs = some (_, fs') ∧ _ :=
      hs.read he hK (hK.untwinned hp') (by decide)
    exact ⟨_, fs', hread⟩
  obtain ⟨m', -, -, hspec⟩ := read_steps he hK hs hA hp' hkind hread
  rw [Call.spec, if_neg (by decide), hfix, ← treeOf] at hspec
  refine ⟨fs', ?_⟩
  rw [command_printing env cwd name (by decide) (by decide) (by decide), printing_cat, cmdCat, needs_some hne]
  simp only [bind_apply, get_apply, Option.bind_some, hpath, hread]
  cases ht : treeOf fs p with
  | none =>
    rw [ht] at hspec
    obtain ⟨hrc, -⟩ := Reply.bytes.inj (Prod.mk.inj hspec).1
    rw [← hrc, if_pos (by decide)]
    rfl
  | some n =>
    rw [ht] at hspec
    obtain ⟨hrc, hbytes⟩ := Reply.bytes.inj (Prod.mk.inj hspec).1
    rw [← hrc, ← hbytes, if_neg (by decide)]
    rfl

/-- A text that is written to a file is what `cat` prints afterwards; where the file was longer,
its old bytes follow. -/
theorem cat_after_write (h : Session K env log fs) (hr : Resolved cwd) {content : Path} {out : Out} {cwd' : Path}
    {fs₁ : Fs} {type mode uid gid : UInt16} {bytes : List UInt8}
    (hname : space ∉ name ∧ name ≠ [] ∧ name.length ≤ maxPath - 1)
    (hcontent : content ≠ [] ∧ content.length < 2 ^ 32)
    (hold : treeOf fs (pathResolve cwd name) = some (.leaf type mode uid gid bytes))
    (hc : Proper K fs (.write (pathResolve cwd name) (bytesAt content) 0 (.ofNat content.length)))
    (hx : command env cwd (ascii "write" ++ space :: (name ++ space :: content)) fs =
      some (some (cwd', out), fs₁)) (hl : Live fs₁) :
    cwd' = cwd ∧ out = wrote content.length (pathResolve cwd name) ∧
      ∃ fs₂, command env cwd (ascii "cat" ++ space :: name) fs₁ =
        some (some (cwd, catOut ((splice 0 bytes 0 content).take 65535)), fs₂) := by
  obtain ⟨hs, hA, -⟩ := h.sound he hK
  have hfix := (resolved_pathResolve hr.clean name).normalForm.fixed
  have hlen : (UInt32.ofNat content.length).toNat = content.length := UInt32.toNat_ofNat_of_lt' hcontent.2
  have hne : UInt32.ofNat content.length ≠ 0 := by
    intro h0
    rw [h0] at hlen
    exact hcontent.1 (List.length_eq_zero_iff.mp hlen.symm)
  rw [command_write content hname.1 hname.2.2] at hx
  obtain ⟨rc, hwrite, hr'⟩ := of_map hx
  obtain ⟨rfl, rfl⟩ := Prod.mk.inj (Option.some.inj hr')
  have hS := h.step hc (map_of hwrite) hl
  obtain ⟨m', hs', -, hspec⟩ := write_steps he hK hs hA hc.1 hc.2 hwrite hl
  rw [Call.spec, if_neg hne, hfix, ← treeOf, writes, hold, hlen, toList_bytesAt] at hspec
  obtain ⟨hrc, htree⟩ := Prod.mk.inj hspec
  obtain rfl := Reply.code.inj hrc
  have hnow : treeOf fs₁ (pathResolve cwd' name) =
      some (.leaf type mode uid gid (splice 0 bytes 0 content)) := by
    rw [treeOf, hs'.indexed_eq hK, ← htree, update_self]
    rfl
  refine ⟨rfl, ?_, ?_⟩
  · rw [if_neg (by decide), hlen]
  · have hp : K (pathResolve cwd' name) := hfix ▸ hc.1.1
    have hleaf : treeOf fs₁ (pathResolve cwd' name) ≠ some .dir := by
      intro hd
      rw [hnow] at hd
      cases hd
    obtain ⟨fs₂, hcat⟩ := cat_shows he hK hS hr hname.2.1 hp hleaf
    rw [hnow] at hcat
    exact ⟨fs₂, hcat⟩

end files

section first

theorem first_session : ∃ fs n, Session (· ∈ fewPaths) steady [(.create [slash, 97] 0 0 0, .code .ok)] fs ∧
    Sound (· ∈ fewPaths) (indexed fs) ∅ fs ∧ Live fs ∧ seen (indexed fs) fs [slash, 97] = some n ∧
    n.iFileType = ftReg ∧ n.iBlocks = 0 ∧ n.iSize = 0 := by
  have hp : pathNormalize [slash, 97] = [slash, 97] := by decide
  have hmem : pathNormalize [slash, 97] ∈ fewPaths := by decide
  have hc := careful_first fewPaths_names 0 0 0 hmem (by decide) (by decide)
  obtain ⟨m, fs, hx, -, hs, ha, hA⟩ := first_create fewPaths_names hc hmem (by decide) (by decide)
  have h := (session_start 0).step (c := .create [slash, 97] 0 0 0) ⟨hc, trivial⟩ (map_of hx) ha.live
  have hn := hA.fresh
  have hh : Hollow (createdInode (pathNormalize [slash, 97]) 0 0 0 (freshFs steady 1 0).cowGen) :=
    hollow_sealed rfl rfl rfl
  rw [hp] at hn hh
  obtain rfl := hs.indexed_eq fewPaths_names
  exact ⟨fs, _, h, hs, ha.live, hn, (sameBody_sealed _).type, hh.blocks, hh.size⟩

/-- The text "hi" in the file "a". -/
theorem cat_after_write_first : ∃ fs fs₁ fs₂,
    command steady rootPath (ascii "write" ++ space :: ([97] ++ space :: [104, 105])) fs =
      some (some (rootPath, wrote 2 [slash, 97]), fs₁) ∧
    command steady rootPath (ascii "cat" ++ space :: [97]) fs₁ =
      some (some (rootPath, [.str [104, 105], .text "\n"]), fs₂) := by
  obtain ⟨fs, n, h, hs, hl, hn, ht, hb, hsize⟩ := first_session
  have hp : pathNormalize [slash, 97] = [slash, 97] := by decide
  have hmem : pathNormalize [slash, 97] ∈ fewPaths := by decide
  have hpath : pathResolve rootPath [97] = [slash, 97] := by decide
  have hfile : n.iFileType ≠ ftDir := by
    rw [ht]
    decide
  obtain ⟨fs₁, hw, -, -, -, hsb⟩ : ∃ fs₁,
      xxfsWrite steady [slash, 97] (bytesAt [104, 105]) 0 2 fs = some (.ok, fs₁) ∧ _ :=
    hs.basis.writeInline steady_healthy fewPaths_names hmem (hp.symm ▸ hn) hfile (by decide) (by decide)
  have hx : command steady rootPath (ascii "write" ++ space :: ([97] ++ space :: [104, 105])) fs =
      some (some (rootPath, wrote 2 [slash, 97]), fs₁) := by
    rw [command_write [104, 105] (by decide) (by decide), hpath]
    exact map_of hw
  have hold : treeOf fs (pathResolve rootPath [97]) = some (.leaf ftReg n.iMode n.iUid n.iGid []) := by
    rw [hpath, treeOf, treeAt_of hn, nodeOf_leaf hfile, ht, hsize]
    rfl
  have hproper : Proper (· ∈ fewPaths) fs (.write (pathResolve rootPath [97]) (bytesAt [104, 105]) 0 2) := by
    rw [hpath]
    refine ⟨⟨hmem, fun _ x hx _ ↦ ?_⟩, ?_⟩
    · rw [hp, hn] at hx
      obtain rfl := Option.some.inj hx
      exact ⟨by decide, .inl ⟨by decide, hb⟩⟩
    · have hcur : kind (seen (indexed fs) fs) [slash, 97] = kind (indexed fs) [slash, 97] :=
        cur_kind (hs.coherent _)
      change kind (indexed fs) (pathNormalize [slash, 97]) ≠ some ftLnk
      rw [hp, ← hcur, kind, hn, Option.map_some, ht]
      decide
  obtain ⟨-, -, fs₂, hcat⟩ := cat_after_write steady_healthy fewPaths_names h resolved_root
    ⟨by decide, by decide, by decide⟩ ⟨by decide, by decide⟩ hold hproper hx (hl.of_sb hsb)
  exact ⟨fs, fs₁, fs₂, hx, hcat⟩

end first

end Xxfs.Shell

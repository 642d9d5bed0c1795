import Xxfs.Shell
import Xxfs.UnlinkUndoes

namespace Xxfs.Shell

open Relation
open Xxfs.DiskFormat Xxfs.Machine Xxfs.Volume Xxfs.Operations Xxfs.PathName Xxfs.ShellPath Xxfs.Runs
open Xxfs.FreshVolume Xxfs.Frames Xxfs.OperationFrames Xxfs.Reach Xxfs.NamespaceRuns
open Xxfs.UnlinkUndoes Xxfs.Lib.Segments
open Xxfs.Lib.Computation Xxfs.Lib.Computation.Comp
open Xxfs.Fsck (xxfsInfo)

section resolve

variable {cwd input : Path}

theorem resolveRaw_length (path out : Path) :
    (resolveRaw path out).length ≤ path.length + out.length := by
  induction path, out using resolveRaw.induct with
  | case1 out => simp [resolveRaw]
  | case2 out c rest hc ih =>
    rw [resolveRaw, if_pos hc, List.length_cons]
    omega
  | case3 out c rest hc hd ih =>
    rw [resolveRaw, if_neg hc, if_pos hd, List.length_cons]
    omega
  | case4 out c rest hc hd hdd ih =>
    have hpop := popName_length out
    have htail := List.length_tail (l := rest)
    rw [resolveRaw, if_neg hc, if_neg hd, if_pos hdd, List.length_cons]
    omega
  | case5 out c rest hc hd hdd ih =>
    rw [resolveRaw, if_neg hc, if_neg hd, if_neg hdd, List.length_cons]
    rw [List.length_cons] at ih
    omega

theorem resolveLoop_eq_of_le (path out : Path) (h : path.length + out.length ≤ maxPath - 1) :
    resolveLoop path out = resolveRaw path out := by
  induction path, out using resolveRaw.induct with
  | case1 out => rw [resolveLoop, resolveRaw]
  | case2 out c rest hc ih =>
    rw [List.length_cons] at h
    rw [resolveLoop_cons, resolveRaw, if_pos hc, if_pos hc]
    exact ih (by omega)
  | case3 out c rest hc hd ih =>
    rw [List.length_cons] at h
    rw [resolveLoop_cons, resolveRaw, if_neg hc, if_neg hc, if_pos hd, if_pos hd]
    exact ih (by omega)
  | case4 out c rest hc hd hdd ih =>
    have hpop := popName_length out
    have htail := List.length_tail (l := rest)
    rw [List.length_cons] at h
    rw [resolveLoop_cons, resolveRaw, if_neg hc, if_neg hc, if_neg hd, if_neg hd, if_pos hdd,
      if_pos hdd]
    exact ih (by omega)
  | case5 out c rest hc hd hdd ih =>
    rw [List.length_cons] at h
    rw [resolveLoop_cons, resolveRaw, if_neg hc, if_neg hc, if_neg hd, if_neg hd, if_neg hdd,
      if_neg hdd]
    split
    · rename_i hfull
      rw [List.length_cons] at hfull
      obtain rfl : rest = [] := List.length_eq_zero_iff.mp (by omega)
      rw [resolveRaw]
    · exact ih (by rw [List.length_cons]; omega)

/-- A path as the shell hands it to the library. -/
structure Resolved (p : Path) : Prop where
  clean : Clean p
  short : p.length ≤ maxPath - 1
  undotted : ∀ c ∈ components p, ¬dotDot <:+ c

theorem Resolved.normalForm {p : Path} (h : Resolved p) : NormalForm p := h.clean.normalForm h.short

theorem resolved_root : Resolved rootPath :=
  ⟨⟨[], fun _ h ↦ absurd h List.not_mem_nil, rfl⟩, by decide, by decide⟩

theorem step_undotted {st : List Path} {c : Path} (hst : ∀ x ∈ st, ¬dotDot <:+ x) :
    ∀ x ∈ step st c, ¬dotDot <:+ x := by
  rw [step]
  split
  · exact hst
  · rename_i htail
    rw [walk]
    split
    · exact hst
    · split
      · exact fun x hx ↦ hst x (List.mem_of_mem_tail hx)
      · rename_i hne
        exact List.forall_mem_cons.mpr ⟨fun h ↦ htail ⟨h, hne⟩, hst⟩

theorem foldl_undotted (cs : List Path) {st : List Path} (hst : ∀ x ∈ st, ¬dotDot <:+ x) :
    ∀ x ∈ cs.foldl step st, ¬dotDot <:+ x := by
  induction cs generalizing st with
  | nil => exact hst
  | cons c cs ih => exact ih (step_undotted hst)

theorem joined_head (hcwd : Clean cwd) (input : Path) : (joined cwd input).head? = some slash := by
  have hhead : (joinInput cwd input).head? = some slash := by
    rw [joinInput]
    split
    · assumption
    · obtain ⟨cs, -, rfl⟩ := hcwd
      rw [joinPath_eq_intercalate]
      rfl
  obtain ⟨rest, hrest⟩ := List.head?_eq_some_iff.mp hhead
  rw [joined, hrest]
  rfl

theorem pathResolve_of_clean (hcwd : Clean cwd) : pathResolve cwd input =
    joinPath (((joined cwd input).splitOn slash).foldl step []).reverse := by
  have hhead := joined_head hcwd input
  have hlen : (joined cwd input).length ≤ maxPath - 1 := List.length_take_le _ _
  rw [pathResolve, if_pos hhead]
  generalize joined cwd input = p at hlen hhead ⊢
  obtain ⟨rest, rfl⟩ := List.head?_eq_some_iff.mp hhead
  have hstart : resolveRaw (slash :: rest) [] = resolveRaw rest (slash :: revPath []) :=
    resolveRaw_push (fun h ↦ by cases h.2) (fun h ↦ absurd h.1 (by decide))
      fun h ↦ absurd (Option.some.inj h.1) (by decide)
  obtain ⟨init, last, hlast, hplain, hsplit, hrun⟩ := resolveRaw_scans.run rest
    (fun _ h ↦ absurd h List.not_mem_nil : ∀ x ∈ ([] : List Path), Plain x)
  have hsegs : (slash :: rest).splitOn slash = [] :: (init ++ [last]) := by
    rw [← hsplit]
    exact List.splitOn_append_cons_self_of_not_mem List.not_mem_nil rest
  rw [resolveLoop_eq_of_le _ _ (by rwa [List.length_nil, Nat.add_zero]), hstart, hrun, resolveRaw,
    past_strip hplain hlast, hsegs, List.foldl_cons, List.foldl_append]
  rfl

theorem resolved_pathResolve (hcwd : Clean cwd) (input : Path) : Resolved (pathResolve cwd input) := by
  have hsegs : ∀ c ∈ (joined cwd input).splitOn slash, slash ∉ c := fun _ ↦ not_mem_of_mem_splitOn
  have hplain : ∀ x ∈ (((joined cwd input).splitOn slash).foldl step []).reverse, Plain x := by
    intro x hx
    exact foldl_plain (fun _ _ ↦ step_plain) hsegs (fun _ h ↦ absurd h List.not_mem_nil) x
      (List.mem_reverse.mp hx)
  refine ⟨⟨_, hplain, pathResolve_of_clean hcwd⟩, ?_, fun c hc ↦ ?_⟩
  · have hhead := joined_head hcwd input
    have hlen : (joined cwd input).length ≤ maxPath - 1 := List.length_take_le _ _
    have hraw := resolveRaw_length (joined cwd input) []
    rw [List.length_nil, Nat.add_zero] at hraw
    rw [pathResolve, if_pos hhead, List.length_reverse,
      resolveLoop_eq_of_le _ _ (by rwa [List.length_nil, Nat.add_zero])]
    exact ((stripSlashes_length _).trans hraw).trans hlen
  · rw [pathResolve_of_clean hcwd, components_joinPath hplain] at hc
    exact foldl_undotted _ (fun _ h ↦ absurd h List.not_mem_nil) c (List.mem_reverse.mp hc)

end resolve

def paths : Op → List Path
  | .create path _ _ _ | .mkdir path _ _ _ | .unlink path | .rmdir path | .stat path
  | .write path _ _ _ | .read path _ _ _ | .chmod path _ | .chown path _ _ | .utime path _ _
  | .symlink _ path | .readlink path _ _ | .openFile path _ | .readdir path => [path]
  | .rename old new => [old, new]
  | .closeFile fp | .readFd fp _ _ _ | .writeFd fp _ _ _ => [fp.path]
  | .sync | .remount _ => []

/-- An operation of a mounted file system on paths that the shell has resolved. -/
def Step (env : Env) (fs fs' : Fs) : Prop :=
  ∃ op, (∀ p ∈ paths op, Resolved p) ∧ (∀ flags, op ≠ .remount flags) ∧ exec env op fs = some ((), fs')

abbrev Run (env : Env) : Fs → Fs → Prop := ReflTransGen (Step env)

section runs

variable {env : Env} {cwd : Path} {α : Type}

theorem run_of {m : FsM α} (op : Op) (hop : exec env op = discard m)
    (hm : ∀ flags, op ≠ .remount flags) (hp : ∀ p ∈ paths op, Resolved p) : Within (Run env) m := by
  intro fs a fs' hx
  refine .single ⟨op, hp, hm, ?_⟩
  rw [hop]
  exact Option.bind_eq_some_iff.mpr ⟨(a, fs'), hx, rfl⟩

theorem run_get : Within (Run env) FsM.get := Within.get

theorem needs_some {usage : String} {arg : Path} (h : arg ≠ []) (run : Path → FsM Out) :
    needs usage (some arg) run = run arg := by
  cases arg with
  | nil => exact (h rfl).elim
  | cons c rest => rfl

theorem needs_run {usage : String} {run : Path → FsM Out} (hrun : ∀ arg, Within (Run env) (run arg))
    (arg : Option Path) : Within (Run env) (needs usage arg run) := by
  cases arg with
  | none => exact .pure _
  | some arg =>
    cases arg with
    | nil => exact .pure _
    | cons c rest => exact hrun (c :: rest)

section calls

variable (hcwd : Clean cwd)
include hcwd

theorem one_resolved (input : Path) : ∀ p ∈ [pathResolve cwd input], Resolved p := by
  intro p hp
  rw [List.mem_singleton.mp hp]
  exact resolved_pathResolve hcwd input

theorem cmdLs_run (hr : Resolved cwd) (arg : Option Path) : Within (Run env) (cmdLs env cwd arg) := by
  refine .bind (run_of (.readdir _) rfl nofun ?_) fun r ↦ ?_
  · intro p hp
    rw [List.mem_singleton.mp hp]
    split
    · exact hr
    · exact hr
    · exact resolved_pathResolve hcwd _
  · split
    · exact .pure _
    · exact .pure _
    · exact .pure _
    · exact .pure _
    · exact .pure _

theorem cmdStat_run (arg : Option Path) : Within (Run env) (cmdStat env cwd arg) := by
  refine needs_run (fun arg ↦ .bind (run_of (.stat _) rfl nofun (one_resolved hcwd arg)) fun r ↦ ?_) arg
  split
  · exact .pure _
  · refine .ite (fun _ ↦ .bind run_get fun fs ↦
      .bind (run_of (.readlink _ _ _) rfl nofun (one_resolved hcwd arg)) fun r ↦ ?_) fun _ ↦ .pure _
    split
    · exact .pure _
    · exact .pure _

theorem cmdMkdir_run (arg : Option Path) : Within (Run env) (cmdMkdir env cwd arg) :=
  needs_run (fun arg ↦ .bind (run_of (.mkdir _ _ _ _) rfl nofun (one_resolved hcwd arg)) fun _ ↦
    .ite (fun _ ↦ .pure _) fun _ ↦ .pure _) arg

theorem cmdTouch_run (arg : Option Path) : Within (Run env) (cmdTouch env cwd arg) :=
  needs_run (fun arg ↦ .bind (run_of (.create _ _ _ _) rfl nofun (one_resolved hcwd arg)) fun _ ↦
    .ite (fun _ ↦ .pure _) fun _ ↦ .ite (fun _ ↦ .pure _) fun _ ↦ .pure _) arg

theorem cmdRm_run (arg : Option Path) : Within (Run env) (cmdRm env cwd arg) :=
  needs_run (fun arg ↦ .bind (run_of (.unlink _) rfl nofun (one_resolved hcwd arg)) fun _ ↦
    .ite (fun _ ↦ .pure _) fun _ ↦ .ite (fun _ ↦ .pure _) fun _ ↦
      .ite (fun _ ↦ .pure _) fun _ ↦ .pure _) arg

theorem cmdRmdir_run (arg : Option Path) : Within (Run env) (cmdRmdir env cwd arg) :=
  needs_run (fun arg ↦ .bind (run_of (.rmdir _) rfl nofun (one_resolved hcwd arg)) fun _ ↦
    .ite (fun _ ↦ .pure _) fun _ ↦ .ite (fun _ ↦ .pure _) fun _ ↦
      .ite (fun _ ↦ .pure _) fun _ ↦ .pure _) arg

theorem cmdCat_run (arg : Option Path) : Within (Run env) (cmdCat env cwd arg) :=
  needs_run (fun arg ↦ .bind run_get fun _ ↦
    .bind (run_of (.read _ _ _ _) rfl nofun (one_resolved hcwd arg)) fun _ ↦
      .ite (fun _ ↦ .pure _) fun _ ↦ .pure _) arg

theorem cmdWrite_run (arg : Option Path) : Within (Run env) (cmdWrite env cwd arg) := by
  refine needs_run (fun arg ↦ ?_) arg
  split
  · exact .pure _
  · exact .bind (run_of (.write _ _ _ _) rfl nofun (one_resolved hcwd _)) fun _ ↦
      .ite (fun _ ↦ .pure _) fun _ ↦ .pure _

theorem cmdChmod_run (arg : Option Path) : Within (Run env) (cmdChmod env cwd arg) := by
  refine needs_run (fun arg ↦ ?_) arg
  split
  · exact .pure _
  · exact .bind (run_of (.chmod _ _) rfl nofun (one_resolved hcwd _)) fun _ ↦
      .ite (fun _ ↦ .pure _) fun _ ↦ .pure _

theorem cmdChown_run (arg : Option Path) : Within (Run env) (cmdChown env cwd arg) := by
  refine needs_run (fun arg ↦ ?_) arg
  split
  · exact .pure _
  · exact .bind (run_of (.chown _ _ _) rfl nofun (one_resolved hcwd _)) fun _ ↦
      .ite (fun _ ↦ .pure _) fun _ ↦ .pure _

theorem cmdRename_run (arg : Option Path) : Within (Run env) (cmdRename env cwd arg) := by
  refine needs_run (fun arg ↦ ?_) arg
  split
  · exact .pure _
  · refine .bind (run_of (.rename _ _) rfl nofun fun p hp ↦ ?_) fun _ ↦ .ite (fun _ ↦ .pure _) fun _ ↦ .pure _
    rcases List.mem_cons.mp hp with rfl | hp
    · exact resolved_pathResolve hcwd _
    · exact one_resolved hcwd _ p hp

theorem cmdSymlink_run (arg : Option Path) : Within (Run env) (cmdSymlink env cwd arg) := by
  refine needs_run (fun arg ↦ ?_) arg
  split
  · exact .pure _
  · exact .bind (run_of (.symlink _ _) rfl nofun (one_resolved hcwd _)) fun _ ↦
      .ite (fun _ ↦ .pure _) fun _ ↦ .pure _

omit hcwd in
theorem cmdSync_run : Within (Run env) (cmdSync env) :=
  .bind (run_of .sync rfl nofun fun _ hp ↦ absurd hp List.not_mem_nil) fun _ ↦ .pure _

theorem printing_run (hr : Resolved cwd) (cmd : Path) (arg : Option Path) :
    Within (Run env) (printing env cwd cmd arg) := by
  rw [printing]
  refine .ite (fun _ ↦ cmdLs_run hcwd hr arg) fun _ ↦ .ite (fun _ ↦ .pure _) fun _ ↦
    .ite (fun _ ↦ cmdStat_run hcwd arg) fun _ ↦ .ite (fun _ ↦ cmdTouch_run hcwd arg) fun _ ↦
    .ite (fun _ ↦ cmdMkdir_run hcwd arg) fun _ ↦ .ite (fun _ ↦ cmdRm_run hcwd arg) fun _ ↦
    .ite (fun _ ↦ cmdRmdir_run hcwd arg) fun _ ↦ .ite (fun _ ↦ cmdCat_run hcwd arg) fun _ ↦
    .ite (fun _ ↦ cmdWrite_run hcwd arg) fun _ ↦ .ite (fun _ ↦ cmdChmod_run hcwd arg) fun _ ↦
    .ite (fun _ ↦ cmdChown_run hcwd arg) fun _ ↦ .ite (fun _ ↦ cmdRename_run hcwd arg) fun _ ↦
    .ite (fun _ ↦ cmdSymlink_run hcwd arg) fun _ ↦ .ite (fun _ ↦ .bind run_get fun _ ↦ .pure _) fun _ ↦
    .ite (fun _ ↦ cmdSync_run) fun _ ↦ .ite (fun _ ↦ .pure _) fun _ ↦ .pure _

end calls

theorem cmdCd_run {fs fs' : Fs} {cwd' : Path} {out : Out} (hr : Resolved cwd) {arg : Option Path}
    (hx : cmdCd env cwd arg fs = some ((cwd', out), fs')) : Resolved cwd' ∧ Run env fs fs' := by
  have hroot (hx : some ((rootPath, ([] : Out)), fs) = some ((cwd', out), fs')) :
      Resolved cwd' ∧ Run env fs fs' := by
    obtain ⟨heq, rfl⟩ := Prod.mk.inj (Option.some.inj hx)
    obtain ⟨rfl, -⟩ := Prod.mk.inj heq
    exact ⟨resolved_root, .refl⟩
  cases arg with
  | none => exact hroot hx
  | some arg =>
    cases arg with
    | nil => exact hroot hx
    | cons c rest =>
      obtain ⟨r, fs₁, hstat, hx⟩ := of_bind hx
      have hrun := run_of (.stat _) rfl nofun (one_resolved hr.clean (c :: rest)) fs r fs₁ hstat
      cases r with
      | error rc =>
        obtain ⟨heq, rfl⟩ := Prod.mk.inj (Option.some.inj hx)
        obtain ⟨rfl, -⟩ := Prod.mk.inj heq
        exact ⟨hr, hrun⟩
      | ok ino =>
        dsimp only at hx
        split at hx
        · obtain ⟨heq, rfl⟩ := Prod.mk.inj (Option.some.inj hx)
          obtain ⟨rfl, -⟩ := Prod.mk.inj heq
          exact ⟨hr, hrun⟩
        · obtain ⟨heq, rfl⟩ := Prod.mk.inj (Option.some.inj hx)
          obtain ⟨rfl, -⟩ := Prod.mk.inj heq
          exact ⟨resolved_pathResolve hr.clean _, hrun⟩

theorem command_run {line : Path} {fs fs' : Fs} {r : Option (Path × Out)} (hr : Resolved cwd)
    (hx : command env cwd line fs = some (r, fs')) :
    Run env fs fs' ∧ ∀ cwd' out, r = some (cwd', out) → Resolved cwd' := by
  rw [command] at hx
  split at hx
  · obtain ⟨rfl, rfl⟩ := Prod.mk.inj (Option.some.inj hx)
    refine ⟨.refl, fun cwd' out heq ↦ ?_⟩
    obtain ⟨rfl, -⟩ := Prod.mk.inj (Option.some.inj heq)
    exact hr
  dsimp only at hx
  split at hx
  · obtain ⟨rfl, rfl⟩ := Prod.mk.inj (Option.some.inj hx)
    refine ⟨.refl, fun cwd' out heq ↦ ?_⟩
    cases heq
  split at hx
  · obtain ⟨⟨⟨c, o⟩, fs₁⟩, hcd, hx⟩ := Option.bind_eq_some_iff.mp hx
    obtain ⟨rfl, rfl⟩ := Prod.mk.inj (Option.some.inj hx)
    obtain ⟨hc, hrun⟩ := cmdCd_run hr hcd
    refine ⟨hrun, fun cwd' out heq ↦ ?_⟩
    obtain ⟨rfl, -⟩ := Prod.mk.inj (Option.some.inj heq)
    exact hc
  · obtain ⟨o, fs₁, hprint, hx⟩ := of_bind hx
    obtain ⟨rfl, rfl⟩ := Prod.mk.inj (Option.some.inj hx)
    refine ⟨printing_run hr.clean hr _ _ _ _ _ hprint, fun cwd' out heq ↦ ?_⟩
    obtain ⟨rfl, -⟩ := Prod.mk.inj (Option.some.inj heq)
    exact hr

theorem loop_run {lines : List Path} {fs fs' : Fs} {cwd' : Path} {out : Out} (hr : Resolved cwd)
    (hx : loop env cwd lines fs = some ((cwd', out), fs')) : Resolved cwd' ∧ Run env fs fs' := by
  induction lines generalizing cwd fs out with
  | nil =>
    obtain ⟨heq, rfl⟩ := Prod.mk.inj (Option.some.inj hx)
    obtain ⟨rfl, -⟩ := Prod.mk.inj heq
    exact ⟨hr, .refl⟩
  | cons line lines ih =>
    obtain ⟨r, fs₁, hcmd, hx⟩ := of_bind hx
    obtain ⟨hrun, hnext⟩ := command_run hr hcmd
    cases r with
    | none =>
      obtain ⟨heq, rfl⟩ := Prod.mk.inj (Option.some.inj hx)
      obtain ⟨rfl, -⟩ := Prod.mk.inj heq
      exact ⟨hr, hrun⟩
    | some x =>
      obtain ⟨⟨last, outs⟩, fs₂, hloop, hx⟩ := of_bind hx
      obtain ⟨heq, rfl⟩ := Prod.mk.inj (Option.some.inj hx)
      obtain ⟨rfl, -⟩ := Prod.mk.inj heq
      obtain ⟨hc, hrun'⟩ := ih (hnext x.1 x.2 rfl) hloop
      exact ⟨hc, hrun.trans hrun'⟩

theorem Run.reachable {fs fs' : Fs} (h : Run env fs fs') (hr : Reachable env fs) :
    Reachable env fs' := by
  induction h with
  | refl => exact hr
  | tail _ hs ih =>
    obtain ⟨op, -, -, hx⟩ := hs
    exact .step ih hx

theorem Run.spent {fs fs' : Fs} (h : Run env fs fs') (hf : LockFree fs) :
    LockFree fs' ∧ Spent fs.sb fs'.sb := by
  induction h with
  | refl => exact ⟨hf, Spent.rfl⟩
  | tail _ hs ih =>
    obtain ⟨hlock, hspent⟩ := ih
    obtain ⟨op, -, hop, hx⟩ := hs
    have hout := exec_outside env hop hlock hx
    exact ⟨hout.lock, hspent.trans hout.spent⟩

end runs

section first

theorem loop_cons {env : Env} {cwd cwd' last line : Path} {lines : List Path} {out outs : Out}
    {fs fs₁ fs' : Fs} (hc : command env cwd line fs = some (some (cwd', out), fs₁))
    (hl : loop env cwd' lines fs₁ = some ((last, outs), fs')) :
    loop env cwd (line :: lines) fs = some ((last, prompt cwd ++ out ++ outs), fs') := by
  rw [loop, bind_apply, hc, Option.bind_some]
  dsimp only
  rw [bind_apply, hl]
  rfl

theorem command_touch {env : Env} {fs fs' : Fs}
    (hx : xxfsCreate env [slash, 97] 0o644 0 0 fs = some (.ok, fs')) :
    command env rootPath (ascii "touch a") fs =
      some (some (rootPath, [.text "  created: ", .str [slash, 97], .text "\n"]), fs') := by
  have hpath : pathResolve rootPath [97] = [slash, 97] := by decide
  have hcmd : command env rootPath (ascii "touch a") =
      (cmdTouch env rootPath (some [97]) >>= fun out ↦ pure (some (rootPath, out))) := rfl
  rw [hcmd, cmdTouch, needs_some (List.cons_ne_nil 97 []), bind_apply, bind_apply, hpath, hx]
  rfl

theorem command_rm {env : Env} {fs fs' : Fs} (hx : xxfsUnlink env [slash, 97] fs = some (.ok, fs')) :
    command env rootPath (ascii "rm a") fs =
      some (some (rootPath, [.text "  removed: ", .str [slash, 97], .text "\n"]), fs') := by
  have hpath : pathResolve rootPath [97] = [slash, 97] := by decide
  have hcmd : command env rootPath (ascii "rm a") =
      (cmdRm env rootPath (some [97]) >>= fun out ↦ pure (some (rootPath, out))) := rfl
  rw [hcmd, cmdRm, needs_some (List.cons_ne_nil 97 []), bind_apply, bind_apply, hpath, hx]
  rfl

theorem first_lines : ∃ out fs, loop steady rootPath [ascii "touch a", ascii "rm a"]
    (freshFs steady 1 0) = some ((rootPath, out), fs) := by
  have hp : pathNormalize [slash, 97] ∈ fewPaths := by decide
  obtain ⟨fs₁, fs₂, hx₁, -, -, hx₂, -⟩ : ∃ fs₁ fs₂,
      xxfsCreate steady [slash, 97] 0o644 0 0 (freshFs steady 1 0) = some (.ok, fs₁) ∧ _ :=
    first_unlink fewPaths_names fewPaths_apart hp (by decide) (by decide)
  exact ⟨_, fs₂, loop_cons (command_touch hx₁) (loop_cons (command_rm hx₂) rfl)⟩

end first

/-- Whatever is typed, the shell only calls operations on paths in normal form and without "..",
and keeps such a path as its working directory. -/
theorem shell_runs {env : Env} {lines : List Path} {fs fs' : Fs} {cwd : Path} {out : Out}
    (h : Reachable env fs) (hx : loop env rootPath lines fs = some ((cwd, out), fs')) :
    Resolved cwd ∧ Run env fs fs' ∧ Reachable env fs' ∧
      ∀ input, pathNormalize (pathResolve cwd input) = pathResolve cwd input := by
  obtain ⟨hc, hrun⟩ := loop_run resolved_root hx
  exact ⟨hc, hrun, hrun.reachable h, fun input ↦ (resolved_pathResolve hc.clean input).normalForm.fixed⟩

/-- A file is made and removed. -/
theorem shell_runs_touch : ∃ out fs, loop steady rootPath [ascii "touch a", ascii "rm a"]
      (freshFs steady 1 0) = some ((rootPath, out), fs) ∧ Run steady (freshFs steady 1 0) fs ∧
    Reachable steady fs := by
  obtain ⟨out, fs, hx⟩ := first_lines
  obtain ⟨-, hrun, hr, -⟩ := shell_runs (.fresh (fresh_apply steady_healthy goodSize_one 0)) hx
  exact ⟨out, fs, hx, hrun, hr⟩

/-- Nothing that is typed gives a block back, `rm` and `rmdir` included: the free blocks that `df`
prints never grow, and while there are any, the total does not change. -/
theorem space_never_returns {env : Env} {lines : List Path} {fs fs' : Fs} {cwd : Path} {out : Out}
    (h : Reachable env fs) (hx : loop env rootPath lines fs = some ((cwd, out), fs')) :
    (xxfsInfo fs').freeBlocks ≤ (xxfsInfo fs).freeBlocks ∧
      (0 < (xxfsInfo fs').freeBlocks → (xxfsInfo fs').blockCount = (xxfsInfo fs).blockCount) := by
  obtain ⟨-, hrun⟩ := loop_run resolved_root hx
  obtain ⟨-, hspent⟩ := hrun.spent (reachable_orderly env h).lock
  exact ⟨UInt64.le_iff_toNat_le.mpr hspent.free, fun hfree ↦ hspent.count (UInt64.lt_iff_toNat_lt.mp hfree)⟩

theorem space_never_returns_rm : ∃ out fs, loop steady rootPath [ascii "touch a", ascii "rm a"]
      (freshFs steady 1 0) = some ((rootPath, out), fs) ∧
    (xxfsInfo fs).freeBlocks ≤ (xxfsInfo (freshFs steady 1 0)).freeBlocks := by
  obtain ⟨out, fs, hx⟩ := first_lines
  have hr : Reachable steady (freshFs steady 1 0) :=
    .fresh (fresh_apply steady_healthy goodSize_one 0)
  exact ⟨out, fs, hx, (space_never_returns hr hx).1⟩

end Xxfs.Shell

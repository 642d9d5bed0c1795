import Xxfs.Fsck
import Xxfs.ShellPath

namespace Xxfs.Shell

open Xxfs.DiskFormat Xxfs.Machine Xxfs.Volume Xxfs.Operations Xxfs.PathName Xxfs.ShellPath
open Xxfs.ListingRuns Xxfs.Fsck

/-- What one part of a `printf` format writes. -/
inductive Piece
  | text (s : String)
  | str (s : Path)
  | int (n : ℤ)
  | oct (n : ℕ)
  | hex (n : ℕ)
  deriving DecidableEq

abbrev Out := List Piece

def space : UInt8 := 32
def newline : UInt8 := 10
def colon : UInt8 := 58

def ascii (s : String) : Path := s.toList.map fun c ↦ c.val.toUInt8

def cString (s : List UInt8) : Path := s.takeWhile (· ≠ 0)

/-- `strchr` for `c`: what is before it and what is behind it. -/
def splitAt (c : UInt8) (s : Path) : Option (Path × Path) :=
  match s.dropWhile (· ≠ c) with
  | [] => none
  | _ :: rest => some (s.takeWhile (· ≠ c), rest)

def isSpace (c : UInt8) : Bool := c = space ∨ (9 ≤ c ∧ c ≤ 13)

def strtol (base : ℕ) (s : Path) : ℤ :=
  let s := s.dropWhile isSpace
  let digits := if s.head? = some 45 ∨ s.head? = some 43 then s.tail else s
  let n := (digits.takeWhile fun c ↦ 48 ≤ c ∧ c.toNat < 48 + base).foldl
    (fun v c ↦ v * base + (c.toNat - 48)) 0
  if s.head? = some 45 then max (-(n : ℤ)) (-2 ^ 63) else min (n : ℤ) (2 ^ 63 - 1)

def rcCode : Rc → ℤ
  | .ok => 0
  | .enoent => -2
  | .eexist => -17
  | .enomem => -12
  | .enospc => -28
  | .eio => -5
  | .einval => -22
  | .enotdir => -20
  | .eisdir => -21
  | .enotempty => -39
  | .eacces => -13
  | .enametoolong => -36

variable (env : Env) (cwd : Path)

def failed (cmd : String) (rc : Rc) : Out := [.text cmd, .text ": failed (rc=", .int (rcCode rc), .text ")\n"]

/-- The argument of a command that needs one; without it the command prints its usage. -/
def needs (usage : String) (arg : Option Path) (run : Path → FsM Out) : FsM Out :=
  match arg with
  | none | some [] => return [.text usage]
  | some arg => run arg

def typeWord (type : UInt8) : String :=
  if type = ftDir.toUInt8 then "dir " else if type = ftLnk.toUInt8 then "link" else "file"

def cmdLs (arg : Option Path) : FsM Out := do
  let path := match arg with
    | none | some [] => cwd
    | some arg => pathResolve cwd arg
  match ← xxfsReaddir env path with
  | .error .enoent => return [.text "  ls: ", .str path, .text ": No such file or directory\n"]
  | .error .enotdir => return [.text "  ls: ", .str path, .text ": Not a directory\n"]
  | .error rc => return [.text "  ls: ", .str path, .text ": error ", .int (rcCode rc), .text "\n"]
  | .ok [] => return [.text "  (empty directory)\n"]
  | .ok cs => return cs.flatMap fun c ↦
      [.text "  ", .text (typeWord c.dcType), .text "  ", .str (childName c), .text "\n"]

/-- The new working directory, with what is printed. -/
def cmdCd (arg : Option Path) : FsM (Path × Out) :=
  match arg with
  | none | some [] => return (rootPath, [])
  | some arg => do
    let path := pathResolve cwd arg
    match ← xxfsStat env path with
    | .error _ => return (cwd, [.text "  cd: ", .str path, .text ": not found\n"])
    | .ok ino =>
      if ino.iFileType ≠ ftDir then
        return (cwd, [.text "  cd: ", .str path, .text ": not a directory\n"])
      else return (path, [])

def cmdPwd : Out := [.text "  ", .str cwd, .text "\n"]

def typeStr (type : UInt16) : String :=
  if type = 1 then "regular" else if type = 2 then "directory" else if type = 3 then "symlink"
  else if type = 4 then "blockdev" else if type = 5 then "chardev" else if type = 6 then "fifo"
  else if type = 7 then "socket" else "unknown"

def statOut (ino : Inode) : Out :=
  [.text "  File: ", .str (cString (List.ofFn ino.iName)), .text "\n",
   .text "  Type: ", .text (typeStr ino.iFileType), .text "\n",
   .text "  Mode: ", .oct ino.iMode.toNat, .text "\n",
   .text "  Uid:  ", .int ino.iUid.toNat, .text "  Gid: ", .int ino.iGid.toNat, .text "\n",
   .text "  Size: ", .int ino.iSize.toNat, .text " bytes\n",
   .text "  Blocks: ", .int ino.iBlocks.toNat, .text "\n",
   .text "  Links: ", .int ino.iNlinks.toNat, .text "\n",
   .text "  Access: ", .int ino.iAtime.toNat, .text "\n",
   .text "  Modify: ", .int ino.iMtime.toNat, .text "\n",
   .text "  Change: ", .int ino.iCtime.toNat, .text "\n",
   .text "  Birth:  ", .int ino.iBtime.toNat, .text "\n",
   .text "  Gen:    ", .int ino.iGeneration.toNat, .text "\n",
   .text "  CRC:    0x", .hex ino.iChecksum.toNat, .text "\n"]

def cmdStat (arg : Option Path) : FsM Out :=
  needs "  usage: stat <path>\n" arg fun arg ↦ do
    let path := pathResolve cwd arg
    match ← xxfsStat env path with
    | .error _ => return [.text "  stat: ", .str path, .text ": not found\n"]
    | .ok ino =>
      if ino.iFileType = ftLnk then
        let fs ← FsM.get
        match ← xxfsReadlink env path (env.junk fs.clock) 129 with
        | .error _ => return statOut ino
        | .ok (target, tlen) => return statOut ino ++
            [.text "  Target: ", .str (cString (toList target tlen.toNat)), .text "\n"]
      else return statOut ino

def cmdMkdir (arg : Option Path) : FsM Out :=
  needs "  usage: mkdir <path>\n" arg fun arg ↦ do
    let path := pathResolve cwd arg
    let rc ← xxfsMkdir env path 0o755 0 0
    if rc ≠ .ok then return failed "  mkdir" rc
    else return [.text "  created directory: ", .str path, .text "\n"]

def cmdTouch (arg : Option Path) : FsM Out :=
  needs "  usage: touch <path>\n" arg fun arg ↦ do
    let path := pathResolve cwd arg
    let rc ← xxfsCreate env path 0o644 0 0
    if rc = .eexist then return [.text "  touch: already exists\n"]
    else if rc ≠ .ok then return failed "  touch" rc
    else return [.text "  created: ", .str path, .text "\n"]

def cmdRm (arg : Option Path) : FsM Out :=
  needs "  usage: rm <path>\n" arg fun arg ↦ do
    let path := pathResolve cwd arg
    let rc ← xxfsUnlink env path
    if rc = .enoent then return [.text "  rm: not found\n"]
    else if rc = .eisdir then return [.text "  rm: is a directory (use rmdir)\n"]
    else if rc ≠ .ok then return failed "  rm" rc
    else return [.text "  removed: ", .str path, .text "\n"]

def cmdRmdir (arg : Option Path) : FsM Out :=
  needs "  usage: rmdir <path>\n" arg fun arg ↦ do
    let path := pathResolve cwd arg
    let rc ← xxfsRmdir env path
    if rc = .enoent then return [.text "  rmdir: not found\n"]
    else if rc = .enotdir then return [.text "  rmdir: not a directory\n"]
    else if rc ≠ .ok then return failed "  rmdir" rc
    else return [.text "  removed directory: ", .str path, .text "\n"]

/-- The bytes that `cmd_cat` prints, with a newline when there is none at the end. -/
def catOut (bs : List UInt8) : Out :=
  .str (cString bs) :: if bs ≠ [] ∧ bs.getLast? ≠ some newline then [.text "\n"] else []

def cmdCat (arg : Option Path) : FsM Out :=
  needs "  usage: cat <path>\n" arg fun arg ↦ do
    let path := pathResolve cwd arg
    let fs ← FsM.get
    let r ← xxfsRead env path (env.junk fs.clock) 0 65535
    if r.rc ≠ .ok then return [.text "  cat: read failed (rc=", .int (rcCode r.rc), .text ")\n"]
    else return catOut (toList r.buf r.readBytes)

def cmdWrite (arg : Option Path) : FsM Out :=
  let usage := "  usage: write <path> <content>\n"
  needs usage arg fun arg ↦ do
    match splitAt space arg with
    | none => return [.text usage]
    | some (name, content) =>
      let resolved := pathResolve cwd (name.take (maxPath - 1))
      let clen := UInt32.ofNat content.length
      let rc ← xxfsWrite env resolved (bytesAt content) 0 clen
      if rc ≠ .ok then return failed "  write" rc
      else return [.text "  wrote ", .int clen.toNat, .text " bytes to ", .str resolved, .text "\n"]

def cmdChmod (arg : Option Path) : FsM Out :=
  let usage := "  usage: chmod <mode> <path>\n"
  needs usage arg fun arg ↦ do
    match splitAt space arg with
    | none => return [.text usage]
    | some (word, rest) =>
      let mode := UInt16.ofInt (strtol 8 (word.take 7))
      let path := pathResolve cwd rest
      let rc ← xxfsChmod env path mode
      if rc ≠ .ok then return failed "  chmod" rc
      else return [.text "  mode changed to ", .oct mode.toNat, .text "\n"]

def cmdChown (arg : Option Path) : FsM Out :=
  let usage := "  usage: chown <uid>:<gid> <path>\n"
  needs usage arg fun arg ↦ do
    match splitAt space arg with
    | none => return [.text usage]
    | some (word, rest) =>
      let ug := word.take 31
      let uid := UInt16.ofInt (strtol 10 ug)
      let gid := match splitAt colon ug with
        | none => 0
        | some (_, g) => UInt16.ofInt (strtol 10 g)
      let path := pathResolve cwd rest
      let rc ← xxfsChown env path uid gid
      if rc ≠ .ok then return failed "  chown" rc
      else return [.text "  owner changed to ", .int uid.toNat, .text ":", .int gid.toNat, .text "\n"]

def cmdRename (arg : Option Path) : FsM Out :=
  let usage := "  usage: rename <old> <new>\n"
  needs usage arg fun arg ↦ do
    match splitAt space arg with
    | none => return [.text usage]
    | some (old, new) =>
      let oldPath := pathResolve cwd (old.take (maxPath - 1))
      let newPath := pathResolve cwd (new.take (maxPath - 1))
      let rc ← xxfsRename env oldPath newPath
      if rc ≠ .ok then return failed "  rename" rc
      else return [.text "  renamed ", .str oldPath, .text " -> ", .str newPath, .text "\n"]

def cmdSymlink (arg : Option Path) : FsM Out :=
  let usage := "  usage: symlink <target> <linkpath>\n"
  needs usage arg fun arg ↦ do
    match splitAt space arg with
    | none => return [.text usage]
    | some (word, rest) =>
      let target := word.take (maxPath - 1)
      let linkpath := pathResolve cwd rest
      let rc ← xxfsSymlink env target linkpath
      if rc ≠ .ok then return failed "  symlink" rc
      else return [.text "  symlink: ", .str linkpath, .text " -> ", .str target, .text "\n"]

def cmdDf : FsM Out := do
  let info := xxfsInfo (← FsM.get)
  let used := info.blockCount - info.freeBlocks
  return [.text "  Filesystem: XXFS v", .int info.version.toNat, .text "\n",
    .text "  Block size: ", .int info.blockSize.toNat, .text "\n",
    .text "  Total blocks: ", .int info.blockCount.toNat, .text "\n",
    .text "  Free blocks: ", .int info.freeBlocks.toNat, .text "\n",
    .text "  Total inodes: ", .int info.inodesCount.toNat, .text "\n",
    .text "  COW generation: ", .int info.cowGeneration.toNat, .text "\n",
    .text "  Used: ", .int used.toNat, .text " blocks (",
    .int (used * info.blockSize.toUInt64 / (1024 * 1024)).toNat, .text " MB)\n"]

def cmdHelp : Out :=
  [.text "  XXFS Shell Commands:\n",
   .text "  ls [path]          - list directory\n",
   .text "  cd <path>          - change directory\n",
   .text "  pwd                - print working directory\n",
   .text "  stat <path>        - show file info\n",
   .text "  touch <path>       - create empty file\n",
   .text "  mkdir <path>       - create directory\n",
   .text "  rm <path>          - remove file\n",
   .text "  rmdir <path>       - remove directory\n",
   .text "  cat <path>         - read file content\n",
   .text "  write <p> <text>   - write text to file\n",
   .text "  chmod <mode> <p>   - change permissions\n",
   .text "  chown <u:g> <p>    - change owner\n",
   .text "  rename <old> <new> - rename file\n",
   .text "  symlink <t> <l>    - create symlink\n",
   .text "  df                 - show filesystem info\n",
   .text "  sync               - sync to disk\n",
   .text "  help               - show this help\n",
   .text "  exit               - exit shell\n"]

def cmdSync : FsM Out := do
  let _ ← xxfsSync env
  return [.text "  synced\n"]

def parseLine (line : Path) : Path × Option Path :=
  match splitAt space line with
  | some (word, rest) => (word.take 63, some rest)
  | none => (line.take 63, none)

def printing (cmd : Path) (arg : Option Path) : FsM Out :=
  if cmd = ascii "ls" then cmdLs env cwd arg
  else if cmd = ascii "pwd" then return cmdPwd cwd
  else if cmd = ascii "stat" then cmdStat env cwd arg
  else if cmd = ascii "touch" then cmdTouch env cwd arg
  else if cmd = ascii "mkdir" then cmdMkdir env cwd arg
  else if cmd = ascii "rm" then cmdRm env cwd arg
  else if cmd = ascii "rmdir" then cmdRmdir env cwd arg
  else if cmd = ascii "cat" then cmdCat env cwd arg
  else if cmd = ascii "write" then cmdWrite env cwd arg
  else if cmd = ascii "chmod" then cmdChmod env cwd arg
  else if cmd = ascii "chown" then cmdChown env cwd arg
  else if cmd = ascii "rename" then cmdRename env cwd arg
  else if cmd = ascii "symlink" then cmdSymlink env cwd arg
  else if cmd = ascii "df" then cmdDf
  else if cmd = ascii "sync" then cmdSync env
  else if cmd = ascii "help" then return cmdHelp
  else return [.text "  unknown command: ", .str cmd, .text " (type \x27help\x27)\n"]

/-- One round of the loop of `main`: the working directory and the output, or nothing at the end. -/
def command (line : Path) : FsM (Option (Path × Out)) :=
  if line = [] then return some (cwd, [])
  else
    let (cmd, arg) := parseLine line
    if cmd = ascii "exit" ∨ cmd = ascii "quit" then return none
    else if cmd = ascii "cd" then some <$> cmdCd env cwd arg
    else do
      let out ← printing env cwd cmd arg
      return some (cwd, out)

def prompt : Out := [.str ((ascii "xxfs:" ++ cwd ++ ascii "> ").take 127)]

/-- The loop of `main` on the lines that are typed, up to the end of the input. -/
def loop : Path → List Path → FsM (Path × Out)
  | cwd, [] => return (cwd, prompt cwd)
  | cwd, line :: lines => do
    match ← command env cwd line with
    | none => return (cwd, prompt cwd)
    | some (cwd', out) =>
      let (last, outs) ← loop cwd' lines
      return (last, prompt cwd ++ out ++ outs)

def shellMain (lines : List Path) : FsM Out := do
  let (_, out) ← loop env rootPath lines
  xxfsUmount env
  return out ++ [.text "Goodbye.\n"]

end Xxfs.Shell

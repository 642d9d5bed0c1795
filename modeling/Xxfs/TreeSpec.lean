import Xxfs.Lib.Splice
import Xxfs.Runs

namespace Xxfs.TreeSpec

open Function
open Xxfs.DiskFormat Xxfs.Machine Xxfs.Volume Xxfs.Operations Xxfs.PathName Xxfs.Runs Xxfs.Lib
open Xxfs.Lib.Splice

/-- What a path names: a directory, or a file or link with its attributes and its bytes. -/
inductive Node
  | dir
  | leaf (type mode uid gid : UInt16) (bytes : List UInt8)
  deriving DecidableEq

abbrev NameTree := Path → Option Node

/-- What a client is shown of a node. -/
inductive Facts
  | dir
  | leaf (type mode uid gid : UInt16) (size : ℕ)
  deriving DecidableEq

namespace Node

def facts : Node → Facts
  | dir => .dir
  | leaf type mode uid gid bytes => .leaf type mode uid gid bytes.length

def bytes : Node → List UInt8
  | dir => []
  | leaf _ _ _ _ bytes => bytes

def written (n : Node) (off : ℕ) (bs : List UInt8) : Node :=
  match n with
  | dir => dir
  | leaf type mode uid gid bytes => leaf type mode uid gid (splice 0 bytes off bs)

def withMode (n : Node) (mode : UInt16) : Node :=
  match n with
  | dir => dir
  | leaf type _ uid gid bytes => leaf type mode uid gid bytes

def withOwner (n : Node) (uid gid : UInt16) : Node :=
  match n with
  | dir => dir
  | leaf type mode _ _ bytes => leaf type mode uid gid bytes

end Node

/-- The operations on paths, and those on the whole file system. -/
inductive Call
  | create (path : Path) (mode uid gid : UInt16)
  | mkdir (path : Path) (mode uid gid : UInt16)
  | unlink (path : Path)
  | rmdir (path : Path)
  | stat (path : Path)
  | write (path : Path) (buf : ℕ → UInt8) (off : UInt64) (len : UInt32)
  | read (path : Path) (buf : ℕ → UInt8) (off : UInt64) (len : UInt32)
  | chmod (path : Path) (mode : UInt16)
  | chown (path : Path) (uid gid : UInt16)
  | utime (path : Path) (atime mtime : UInt64)
  | rename (old new : Path)
  | symlink (target linkpath : Path)
  | readlink (path : Path) (buf : ℕ → UInt8) (len : UInt32)
  | sync
  | remount (flags : UInt64)

/-- What a call tells its caller. -/
inductive Reply
  | code (rc : Rc)
  | facts (r : Except Rc Facts)
  | bytes (rc : Rc) (bs : List UInt8)
  | target (r : Except Rc (List UInt8))

section spec

variable (t : NameTree)

def makes (p : Path) (n : Node) : Reply × NameTree :=
  match t p with
  | some _ => (.code .eexist, t)
  | none => (.code .ok, update t p (some n))

def changes (p : Path) (f : Node → Node) : Reply × NameTree :=
  match t p with
  | none => (.code .enoent, t)
  | some n => (.code .ok, update t p (some (f n)))

def unlinks (p : Path) : Reply × NameTree :=
  match t p with
  | none => (.code .enoent, t)
  | some .dir => (.code .eisdir, t)
  | some (.leaf ..) => (.code .ok, update t p none)

def removes (p : Path) : Reply × NameTree :=
  match t p with
  | none => (.code .enoent, t)
  | some (.leaf ..) => (.code .enotdir, t)
  | some .dir => (.code .ok, update t p none)

def writes (p : Path) (off : ℕ) (bs : List UInt8) : Reply × NameTree :=
  match t p with
  | none => (.code .enoent, t)
  | some .dir => (.code .eisdir, t)
  | some (.leaf type mode uid gid bytes) =>
    (.code .ok, update t p (some ((Node.leaf type mode uid gid bytes).written off bs)))

def moves (old new : Path) : Reply × NameTree :=
  match t old with
  | none => (.code .enoent, t)
  | some n => (.code .ok, update (update t old none) new (some n))

def readsLink (p : Path) (len : ℕ) : Reply :=
  match t p with
  | none => .target (.error .enoent)
  | some .dir => .target (.error .einval)
  | some (.leaf type _ _ _ bytes) =>
    if type = ftLnk then .target (.ok (bytes.take len)) else .target (.error .einval)

/-- What the file system is for: each call as a step from a tree of names to another. -/
def Call.spec : Call → Reply × NameTree
  | .create path mode uid gid => makes t (pathNormalize path) (.leaf ftReg mode uid gid [])
  | .mkdir path _ _ _ => makes t (pathNormalize path) .dir
  | .unlink path => unlinks t (pathNormalize path)
  | .rmdir path =>
    if pathNormalize path = rootPath then (.code .einval, t) else removes t (pathNormalize path)
  | .stat path => match t (pathNormalize path) with
    | none => (.facts (.error .enoent), t)
    | some n => (.facts (.ok n.facts), t)
  | .write path buf off len =>
    if len = 0 then (.code .einval, t)
    else writes t (pathNormalize path) off.toNat (toList buf len.toNat)
  | .read path _ off len =>
    if len = 0 then (.bytes .einval [], t)
    else match t (pathNormalize path) with
      | none => (.bytes .enoent [], t)
      | some n => (.bytes .ok ((n.bytes.drop off.toNat).take len.toNat), t)
  | .chmod path mode => changes t (pathNormalize path) fun n ↦ n.withMode mode
  | .chown path uid gid => changes t (pathNormalize path) fun n ↦ n.withOwner uid gid
  | .utime path _ _ => changes t (pathNormalize path) id
  | .rename old new => moves t (pathNormalize old) (pathNormalize new)
  | .symlink target linkpath =>
    if target.length > inlineMax then (.code .enametoolong, t)
    else makes t (pathNormalize linkpath) (.leaf ftLnk 0 0 0 target)
  | .readlink path _ len => (readsLink t (pathNormalize path) (len - 1).toNat, t)
  | .sync | .remount _ => (.code .ok, t)

end spec

def rootOnly : NameTree := fun p ↦ if p = rootPath then some .dir else none

/-- The calls made so far with their replies, the latest first, and the tree they lead to. -/
inductive Trace : List (Call × Reply) → NameTree → Prop
  | start : Trace [] rootOnly
  | step {log : List (Call × Reply)} {t t' : NameTree} {c : Call} {r : Reply} :
    Trace log t → c.spec t = (r, t') → Trace ((c, r) :: log) t'

end Xxfs.TreeSpec

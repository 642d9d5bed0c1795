import Xxfs.DiskFormat

namespace Xxfs.PathName

open Xxfs.DiskFormat

def slash : UInt8 := 47
def dot : UInt8 := 46

/-- The character loop of `path_normalize`; the output is held last byte first. -/
def normLoop : Path → Path → Path
  | [], out => out
  | c :: rest, out =>
    if c = slash ∧ out.head? = some slash then normLoop rest out
    else if c = dot ∧ (rest.head? = some slash ∨ rest = []) ∧
        (out = [] ∨ out.head? = some slash) then normLoop rest out
    else if (c :: out).length ≥ maxPath - 1 then c :: out
    else normLoop rest (c :: out)

/-- Drops trailing slashes of a reversed path, down to one byte. -/
def stripSlashes : Path → Path
  | [] => []
  | [c] => [c]
  | c :: d :: rest => if c = slash then stripSlashes (d :: rest) else c :: d :: rest

/-- `path_normalize` on the bytes before the terminating NUL. -/
def pathNormalize (path : Path) : Path :=
  (stripSlashes (normLoop path (if path.head? = some slash then [] else [slash]))).reverse

/-- The backward scan for the position behind the last slash, from position `n` on. -/
def scanBack (norm : Path) : ℕ → ℕ
  | 0 => 0
  | n + 1 => if norm.getD n 0 ≠ slash then scanBack norm n else n + 1

def getBasename (norm : Path) : Path := norm.drop (scanBack norm norm.length)

def getParentPath (norm : Path) : Path :=
  if norm.length ≤ 1 then [slash]
  else if scanBack norm norm.length ≤ 1 then [slash]
  else norm.take (scanBack norm norm.length - 1)

end Xxfs.PathName

import TreeWatch.Path

/-!
# The table of mounts

Reads the table in which the kernel lists what is mounted: one line a mount, fields separated by
spaces, the path of the mount in the fifth. Characters that would break the line are written as a
backslash and three octal digits.

## Main definitions

- `MountTable.unescape` : a field without its escapes
- `MountTable.paths` : where something is mounted
-/

namespace TreeWatch.MountTable

/-- A field without its escapes. -/
def unescape : Bytes → Bytes
  | [] => []
  | 0x5C :: a :: b :: c :: rest =>
    let digit (x : UInt8) : UInt8 := x - 0x30
    (digit a * 64 + digit b * 8 + digit c) :: unescape rest
  | x :: rest => x :: unescape rest

def path? (line : String) : Option Path :=
  match line.splitOn " " with
  | _ :: _ :: _ :: _ :: path :: _ => some (unescape (Bytes.ofString path))
  | _ => none

/-- Where something is mounted. -/
def paths (table : String) : List Path :=
  (table.splitOn "\n").filterMap path?

end TreeWatch.MountTable

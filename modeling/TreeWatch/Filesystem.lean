import TreeWatch.Fingerprint
import TreeWatch.Identity
import TreeWatch.Path

/-!
# Filesystems

What the tracker asks of the filesystem that it watches.

## Main definitions

- `FileKind` : the coarse type of an object
- `Attributes` : what is read from an open object
- `ListedEntry` : a name in a directory listing
- `Filesystem` : the answers of a filesystem to the calls of the tracker

## Design notes

A filesystem is given by its answers: each call takes the state of the filesystem and gives the
answer and the next state. Nothing is assumed about the answers, so a statement about every
`Filesystem` covers failures at any call and changes between calls. Handles are counted by the
caller and not by the filesystem.
-/

namespace TreeWatch

/-- The coarse type of an object. -/
inductive FileKind where
  | directory
  | regular
  | symlink
  | other
deriving DecidableEq, Inhabited

namespace FileKind

/-- The bits of a mode that tell the type. -/
def typeMask : UInt32 := 0o170000

/-- The type bits of directories. -/
def directoryBits : UInt32 := 0o040000

/-- The type bits of regular files. -/
def regularBits : UInt32 := 0o100000

/-- The type bits of symbolic links. -/
def symlinkBits : UInt32 := 0o120000

/-- The type that a mode tells. -/
def ofMode (mode : UInt32) : FileKind :=
  let bits := mode &&& typeMask
  if bits = directoryBits then .directory
  else if bits = regularBits then .regular
  else if bits = symlinkBits then .symlink
  else .other

/-- The type in words. -/
def description : FileKind → String
  | .directory => "directory"
  | .regular => "regular file"
  | .symlink => "symlink"
  | .other => "special file"

end FileKind

/-- What is read from an open object. -/
structure Attributes where
  ino : UInt64
  mode : UInt32
  fingerprint : Fingerprint
deriving DecidableEq, Inhabited

/-- The type of the object. -/
def Attributes.kind (a : Attributes) : FileKind := .ofMode a.mode

/-- A name in a directory listing, with the inode number listed beside it. -/
structure ListedEntry where
  name : Bytes
  ino : UInt64
deriving DecidableEq

/-- Whether a name stands for the directory itself or for the one above it. -/
def isPseudoName (name : Bytes) : Bool :=
  name = Path.dot || name = Path.dotDot

/-- Whether the entry stands for the directory itself or for the one above it. -/
def ListedEntry.isPseudo (e : ListedEntry) : Bool := isPseudoName e.name

/-- The answers of a filesystem whose state is a `σ` and whose handles are `H`s. -/
structure Filesystem (σ H : Type) where
  /-- Reads the attributes of an open object. -/
  attributes : H → StateM σ (Except SyscallError Attributes)
  /-- Makes the token of an open object. -/
  identityToken : H → StateM σ (Except IdentityError IdentityToken)
  /-- Opens the object that a token names. -/
  openByToken : IdentityToken → StateM σ (Except IdentityError H)
  /-- Lists an open directory, with the entries for itself and the one above it. -/
  list : H → StateM σ (Except SyscallError (List ListedEntry))
  /-- Opens a name inside a directory; there is nothing to open if the name is gone. -/
  openChild : H → Bytes → StateM σ (Except SyscallError (Option H))
  /-- Opens an open directory once more, for listing. -/
  openDirectory : H → StateM σ (Except SyscallError H)
  /-- Opens the root of the mount. -/
  openRoot : StateM σ (Except SyscallError H)
  /-- How deep directories may be nested in this state. A scan that goes deeper is given up. -/
  nesting : σ → Nat

end TreeWatch

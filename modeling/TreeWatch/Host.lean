import TreeWatch.Errno
import TreeWatch.Path

/-!
# The host

What is asked of the machine before watching begins: where a path leads, whether that is the root
of a mounted filesystem, and what is in a file.

## Main definitions

- `FileError` : why a file or directory could not be used
- `Host` : the questions
- `Host.shownPath` : how a path is shown in messages
- `Host.ofListing` : a host with the directories and files of a list
-/

namespace TreeWatch

/-- Why a file or directory could not be used. -/
inductive FileError where
  /-- The operating system refused. -/
  | call (errno : Errno)
  /-- No path has a NUL byte. -/
  | nul
  /-- The content is no text: at `index` begins a stretch of bytes that belong to no character. -/
  | notText (fault : Text.Utf8.Fault)
deriving DecidableEq

namespace FileError

/-- How the operating system's library describes an error number that a path can lead to. -/
def description (e : Errno) : String :=
  match e.code with
  | 1 => "Operation not permitted"
  | 2 => "No such file or directory"
  | 5 => "Input/output error"
  | 12 => "Cannot allocate memory"
  | 13 => "Permission denied"
  | 20 => "Not a directory"
  | 21 => "Is a directory"
  | 22 => "Invalid argument"
  | 23 => "Too many open files in system"
  | 24 => "Too many open files"
  | 36 => "File name too long"
  | 40 => "Too many levels of symbolic links"
  | n => s!"Unknown error {n}"

/-- What is reported about the failure. -/
def message : FileError → String
  | .call e => s!"{description e} (os error {e.code})"
  | .nul => "file name contained an unexpected NUL byte"
  | .notText ⟨index, some length⟩ =>
    s!"invalid utf-8 sequence of {length} bytes from index {index}"
  | .notText ⟨index, none⟩ => s!"incomplete utf-8 byte sequence from index {index}"

/-- Nothing has the path. -/
def missing : FileError := .call .noEntry

/-- The path or one of its names is longer than allowed. -/
def tooLong : FileError := .call ⟨36⟩

/-- A file is used as a directory. -/
def notDirectory : FileError := .call .notDirectory

/-- A directory is used as a file. -/
def isDirectory : FileError := .call ⟨21⟩

end FileError

/-- What is asked of the machine. -/
structure Host (m : Type → Type) where
  /-- The path to the same place without links, `.` and `..`, if there is something. -/
  canonical : Path → m (Option Path)
  /-- Where relative paths begin. -/
  workingDirectory : m Path
  /-- Whether a path leads to the root of a mounted filesystem. -/
  isMountRoot : Path → m (Except FileError Bool)
  /-- The content of a file. -/
  read : Path → m (Except FileError Bytes)

namespace Host

/-- A path as it is shown in messages: the canonical one if it leads to something, otherwise made
absolute and resolved by looking at it alone. The empty path stays empty. -/
def shownPath {m : Type → Type} [Monad m] (host : Host m) (p : Path) : m Path := do
  match ← host.canonical p with
  | some c => pure c
  | none =>
    if p.isEmpty then pure p
    else return ((← host.workingDirectory).join p).normalize

/-- Where a path leads on a host of listed directories and files. -/
inductive Place where
  | directory (path : List Bytes)
  | file (path : List Bytes) (content : Bytes)

/-- The directories and files of a host. -/
structure Listing where
  /-- The names on the way to each directory; the root is one. -/
  directories : List (List Bytes) := []
  /-- The names on the way to each file, and its content. -/
  files : List (List Bytes × Bytes) := []

namespace Listing

/-- The names on the way that a path gives. -/
def names (p : Path) : List Bytes := (Path.split p).filter (!·.isEmpty)

/-- The listing of directories and files given by their paths. -/
def ofPaths (directories : List Path) (files : List (Path × Bytes)) : Listing where
  directories := directories.map names
  files := files.map fun f => (names f.1, f.2)

/-- Where a name leads from a directory. -/
def step (l : Listing) (here : List Bytes) (name : Bytes) : Except FileError Place :=
  if name.isEmpty || name = Path.dot then .ok (.directory here)
  else if name = Path.dotDot then .ok (.directory here.dropLast)
  else if 255 < name.length then .error .tooLong
  else
    let path := here ++ [name]
    match l.files.lookup path with
    | some content => .ok (.file path content)
    | none => if l.directories.contains path then .ok (.directory path) else .error .missing

/-- Where names lead from a place. -/
def walk (l : Listing) : Place → List Bytes → Except FileError Place
  | p, [] => .ok p
  | .file .., _ :: _ => .error .notDirectory
  | .directory path, name :: rest => do l.walk (← l.step path name) rest

/-- Where a path leads. The working directory is the root. -/
def find (l : Listing) (p : Path) : Except FileError Place :=
  if p.contains 0 then .error .nul
  else if p.isEmpty then .error .missing
  else if 4096 ≤ p.length then .error .tooLong
  else l.walk (.directory []) (Path.split p)

end Listing

/-- The names on the way to a place. -/
def Place.path : Place → List Bytes
  | .directory path => path
  | .file path _ => path

/-- A path from the root through these names. -/
def pathOf (names : List Bytes) : Path :=
  names.foldl Path.join Path.root

/-- A host with the directories and files of a list. Nothing is mounted but the root. -/
def ofListing (l : Listing) : Host Id where
  canonical p :=
    match l.find p with
    | .ok place => some (pathOf place.path)
    | .error _ => none
  workingDirectory := Path.root
  isMountRoot p := do
    match l.find p with
    | .ok (.directory path) => .ok path.isEmpty
    | .ok (.file ..) => .error .notDirectory
    | .error e => .error e
  read p :=
    match l.find p with
    | .ok (.file _ content) => .ok content
    | .ok (.directory _) => .error .isDirectory
    | .error e => .error e

end Host

end TreeWatch

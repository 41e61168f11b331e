import TreeWatch.Text.Utf8

/-!
# Paths

Slash-separated byte strings, read the way the operating system reads them: repeated slashes count
once, and a component `.` counts for nothing unless it begins the path.

## Main definitions

- `Path.join` : a path with a name added to it
- `Path.components` : the components of a path
- `Path.parent?`, `Path.fileName?` : a path without its last component, and that component
- `Path.normalize` : a path with `.` and `..` resolved without asking the filesystem
- `Path.display` : a path as text
-/

namespace TreeWatch

/-- A path is a byte string. -/
abbrev Path := Bytes

namespace Path

/-- The byte that separates components. -/
def separator : UInt8 := 0x2F

/-- The name `.`. -/
def dot : Bytes := [0x2E]

/-- The name `..`. -/
def dotDot : Bytes := [0x2E, 0x2E]

def root : Path := [separator]

/-- Whether the path begins at the root. -/
def isAbsolute (p : Path) : Bool :=
  p.head? = some separator

/-- The path as text; malformed bytes are replaced. -/
def display (p : Path) : String :=
  Text.Utf8.lossy p

/-- Adds a name to a path. An absolute name replaces the path. -/
def join (p : Path) (name : Bytes) : Path :=
  if isAbsolute name then name
  else if p.isEmpty || p.getLast? = some separator then p ++ name
  else p ++ separator :: name

inductive Component where
  /-- The beginning of an absolute path. -/
  | root
  /-- A `.` that begins a relative path. -/
  | current
  /-- The component `..`. -/
  | up
  | name (bytes : Bytes)
deriving DecidableEq

/-- The component as it is written. -/
def Component.bytes : Component → Bytes
  | .root => Path.root
  | .current => dot
  | .up => dotDot
  | .name bytes => bytes

/-- The stretches between separators, empty ones included. -/
def split : Path → List Bytes
  | [] => [[]]
  | b :: rest =>
    if b = separator then [] :: split rest
    else
      match split rest with
      | [] => [[b]]
      | s :: more => (b :: s) :: more

/-- The component that a stretch between separators means, if it means one. -/
def component? (s : Bytes) : Option Component :=
  if s = [] || s = dot then none
  else if s = dotDot then some .up
  else some (.name s)

def components (p : Path) : List Component :=
  let stretches := split p
  let front : List Component :=
    if isAbsolute p then [.root]
    else if stretches.head? = some dot then [.current]
    else []
  front ++ stretches.filterMap component?

/-- The last component, if it is a name. -/
def fileName? (p : Path) : Option Bytes :=
  match (components p).getLast? with
  | some (.name s) => some s
  | _ => none

/-- Joins stretches with separators. -/
def unsplit : List Bytes → Path
  | [] => []
  | [s] => s
  | s :: rest => s ++ separator :: unsplit rest

/-- Drops, from the end, the stretches that mean no component, but not the one at the beginning. -/
def trimEnd (stretches : List Bytes) : List Bytes :=
  match stretches with
  | [] => []
  | first :: rest =>
    first :: (rest.reverse.dropWhile fun s => (component? s).isNone).reverse

/-- The path as it was written, without its last component. The root and the empty path have
none. -/
def parent? (p : Path) : Option Path :=
  match (components p).getLast? with
  | none | some .root => none
  | some _ =>
    let kept := trimEnd (split p)
    let shortened := trimEnd kept.dropLast
    if isAbsolute p && shortened.length ≤ 1 then some root
    else some (unsplit shortened)

/-- Resolves `.` and `..` by looking at the path alone. At the root `..` stays there. -/
def normalize (p : Path) : Path :=
  (components p).foldl step []
where
  /-- Adds one component to a path that is normal already. -/
  step (done : Path) : Component → Path
    | .current => done
    | .up => (parent? done).getD done
    | c => join done c.bytes

end Path

end TreeWatch

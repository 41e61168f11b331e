import TreeWatch.Filesystem
import TreeWatch.Map.Sorted
import TreeWatch.Text.Quoted

/-!
# Disks in memory

A filesystem kept in memory, on which the tracker can be run without a mount.

## Main definitions

- `Disk` : the objects of the filesystem
- `Disk.mkdir`, `Disk.create`, `Disk.link`, `Disk.remove`, `Disk.rename`, `Disk.write`
- `Disk.filesystem` : how a disk answers the calls of the tracker
- `DiskError` : why an operation cannot be done

## Design notes

Every object has a serial number, its place in the list of objects, which is never used again. The
identity token is made of it, so an inode number that is used again comes with another token. An
object without names stays readable through handles opened earlier, but its token does not open.
-/

namespace TreeWatch

/-- The serial number of an object, which is also a handle of it. -/
abbrev Serial := Nat

/-- An object on a disk. -/
structure Node where
  ino : UInt64
  mode : UInt32
  fingerprint : Fingerprint
  /-- How many names the object has; the root counts one more. -/
  links : Nat := 1
  /-- The names inside the object; only directories have them. -/
  children : Option (SortedMap Bytes Serial)
  /-- Whether the token of the object has more bytes than tokens may have. -/
  oversized : Bool := false
  /-- Names that are listed inside the object although nothing is behind them. -/
  phantoms : List ListedEntry := []
  /-- Whether listing the object fails. -/
  unlistable : Bool := false
deriving DecidableEq

namespace Node

/-- The names inside the object. -/
def childMap (n : Node) : SortedMap Bytes Serial := n.children.getD .empty

/-- The object after the loss of its last name: there are no names inside it any more. -/
def emptied (n : Node) : Node :=
  { n with links := 0, children := n.children.map fun _ => .empty, phantoms := [] }

theorem size_childMap_emptied (n : Node) : n.emptied.childMap.size = 0 := by
  cases h : n.children <;> simp [emptied, childMap, h, SortedMap.size, SortedMap.empty]

end Node

/-- A filesystem in memory. -/
structure Disk where
  /-- All objects that ever were, by serial number; the root is the first. -/
  nodes : List Node
  /-- The inode number handed out last. -/
  lastIno : UInt64 := 100
  /-- The time in seconds. -/
  clock : Nat := 1700000000
deriving DecidableEq

/-- Why an operation on a disk cannot be done. -/
inductive DiskError where
  | noSuchPath (path : Path)
  /-- The path does not end in a name. -/
  | noFileName
  | noSuchName (name : Bytes)
  | nameExists (name : Bytes)
  | notADirectory
  /-- An object without names was to lose one. -/
  | linkUnderflow
  /-- There are as many objects as there are serial numbers. -/
  | serialOverflow
deriving DecidableEq

/-- What is reported about the failure. -/
def DiskError.message : DiskError → String
  | .noSuchPath path => s!"{path.display} does not exist"
  | .noFileName => "path has a file name"
  | .noSuchName name => s!"{Text.Quoted.quote name} does not exist"
  | .nameExists name => s!"{Text.Quoted.quote name} already exists"
  | .notADirectory => "parent is a directory"
  | .linkUnderflow => "attempt to subtract with overflow"
  | .serialOverflow => "attempt to add with overflow"

namespace Disk

/-- The serial number of the root. -/
def rootSerial : Serial := 0

/-- The inode number of the root. -/
def rootIno : UInt64 := 2

/-- How many objects there can be; serial numbers are 64-bit words. -/
def capacity : Nat := UInt64.size

def directoryMode : UInt32 := 0o040755

/-- The mode of regular files. -/
def fileMode : UInt32 := 0o100644

/-- A disk with nothing but its root. -/
def empty : Disk where
  nodes := [{
    ino := rootIno
    mode := directoryMode
    fingerprint := .zero
    children := some .empty }]

instance : Inhabited Disk := ⟨empty⟩

/-- The object with a serial number. -/
def node? (d : Disk) (s : Serial) : Option Node := d.nodes[s]?

/-- The inode number of an object, or zero if there is no such object. -/
def inoAt (d : Disk) (s : Serial) : UInt64 :=
  match d.node? s with
  | some n => n.ino
  | none => 0

/-- The object bound to a name in a directory. -/
def child? (d : Disk) (directory : Serial) (name : Bytes) : Option Serial :=
  (d.node? directory).bind fun n => n.childMap.get? name

/-- Replaces an object. -/
def setNode (d : Disk) (s : Serial) (n : Node) : Disk :=
  { d with nodes := d.nodes.set s n }

/-- Changes an object. -/
def modifyNode (d : Disk) (s : Serial) (f : Node → Node) : Disk :=
  { d with nodes := d.nodes.modify s f }

/-- The clock one second later. -/
def tick (d : Disk) : Disk := { d with clock := d.clock + 1 }

/-- Follows names down from an object. -/
def walk (d : Disk) (s : Serial) : List Path.Component → Option Serial
  | [] => some s
  | .name name :: rest =>
    match d.child? s name with
    | some c => d.walk c rest
    | none => none
  | _ :: rest => d.walk s rest

/-- The object at a path. Only names are followed, so `..` leads nowhere. -/
def serialOf (d : Disk) (path : Path) : Except DiskError Serial :=
  match d.walk rootSerial path.components with
  | some s => .ok s
  | none => .error (.noSuchPath path)

/-- The directory that a path leads to but for its last name, and that name. -/
def split (d : Disk) (path : Path) : Except DiskError (Serial × Bytes) :=
  match path.fileName? with
  | none => .error .noFileName
  | some name => (d.serialOf (path.parent?.getD Path.root)).map fun parent => (parent, name)

def bind (d : Disk) (directory : Serial) (name : Bytes) (s : Serial) : Except DiskError Disk :=
  match (d.node? directory).bind Node.children with
  | none => .error .notADirectory
  | some children =>
    if children.contains name then .error (.nameExists name)
    else .ok (d.modifyNode directory fun n => { n with children := some (children.insert name s) })

/-- Unbinds a name in a directory; gives the object that it was bound to. -/
def unbind (d : Disk) (directory : Serial) (name : Bytes) : Except DiskError (Serial × Disk) :=
  match (d.node? directory).bind Node.children with
  | none => .error (.noSuchName name)
  | some children =>
    match children.get? name with
    | none => .error (.noSuchName name)
    | some s =>
      .ok (s, d.modifyNode directory fun n => { n with children := some (children.erase name) })

/-- The sum of the numbers that `f` gives to the members of a list. -/
def total {α : Type} (f : α → Nat) : List α → Nat
  | [] => 0
  | a :: rest => f a + total f rest

theorem total_set {α : Type} (f : α → Nat) (l : List α) (i : Nat) (a b : α) (h : l[i]? = some b) :
    total f (l.set i a) + f b = total f l + f a := by
  induction l generalizing i with
  | nil => simp at h
  | cons x l ih =>
    cases i with
    | zero =>
      simp only [List.getElem?_cons_zero, Option.some.injEq] at h
      subst h
      simp only [List.set_cons_zero, total]
      omega
    | succ i =>
      have := ih i (by simpa using h)
      simp only [List.set_cons_succ, total]
      omega

/-- How many names are bound on the whole disk. -/
def bindingCount (d : Disk) : Nat :=
  total (fun n => n.childMap.size) d.nodes

theorem bindingCount_setNode {d : Disk} {s : Serial} {n : Node} (m : Node)
    (h : d.node? s = some n) :
    (d.setNode s m).bindingCount + n.childMap.size = d.bindingCount + m.childMap.size :=
  total_set (fun n => n.childMap.size) d.nodes s m n h

/-- Takes one name away from each object in a list. An object that loses its last name goes with all
that is inside it. -/
def release (d : Disk) : List Serial → Except DiskError Disk
  | [] => .ok d
  | s :: rest =>
    match found : d.node? s with
    | none => d.release rest
    | some n =>
      match n.links with
      | 0 => .error .linkUnderflow
      | 1 =>
        have : (d.setNode s n.emptied).bindingCount + (n.childMap.values ++ rest).length <
            d.bindingCount + (s :: rest).length := by
          have balance := bindingCount_setNode n.emptied found
          rw [Node.size_childMap_emptied] at balance
          simp only [List.length_append, List.length_cons, SortedMap.values, List.length_map,
            SortedMap.size] at balance ⊢
          omega
        (d.setNode s n.emptied).release (n.childMap.values ++ rest)
      | links + 1 =>
        have : (d.setNode s { n with links }).bindingCount + rest.length <
            d.bindingCount + (s :: rest).length := by
          have balance := bindingCount_setNode { n with links } found
          simp only [Node.childMap, List.length_cons] at balance ⊢
          omega
        (d.setNode s { n with links }).release rest
termination_by pending => d.bindingCount + pending.length
decreasing_by
  all_goals simp only [List.length_append, List.length_cons] at *
  all_goals omega

/-- Hands out the next inode number. -/
def nextIno (d : Disk) : UInt64 × Disk :=
  (d.lastIno + 1, { d with lastIno := d.lastIno + 1 })

/-- The fingerprint of an object changed now. -/
def freshFingerprint (d : Disk) (size : UInt64) : Fingerprint :=
  ⟨size, .ofNat d.clock, .ofNat d.clock⟩

/-- The disk one second later with a further object, which has no name yet but counts the one that
it is about to get. -/
def addNode (d : Disk) (ino : UInt64) (mode : UInt32) : Disk :=
  let d := d.tick
  let n : Node := {
    ino
    mode
    fingerprint := d.freshFingerprint 0
    children := if FileKind.ofMode mode = .directory then some .empty else none }
  { d with nodes := d.nodes ++ [n] }

/-- Makes an object at a path. -/
def make (d : Disk) (path : Path) (ino : UInt64) (mode : UInt32) : Except DiskError Disk := do
  let (directory, name) ← d.split path
  if d.nodes.length + 1 < capacity then
    (d.addNode ino mode).bind directory name d.nodes.length
  else throw .serialOverflow

/-- Makes a directory; gives its inode number. -/
def mkdir (d : Disk) (path : Path) : Except DiskError (UInt64 × Disk) := do
  let (ino, d) := d.nextIno
  return (ino, ← d.make path ino directoryMode)

/-- Makes a regular file with a given inode number, which may be in use already. -/
def createWithIno (d : Disk) (path : Path) (ino : UInt64) : Except DiskError (UInt64 × Disk) := do
  return (ino, ← d.make path ino fileMode)

/-- Makes a regular file; gives its inode number. -/
def create (d : Disk) (path : Path) : Except DiskError (UInt64 × Disk) :=
  let (ino, d) := d.nextIno
  d.createWithIno path ino

/-- Gives a further name to an object. -/
def link (d : Disk) (existing path : Path) : Except DiskError Disk := do
  let s ← d.serialOf existing
  let (directory, name) ← d.split path
  let d ← d.bind directory name s
  let d := d.tick
  return d.modifyNode s fun n =>
    { n with links := n.links + 1, fingerprint := { n.fingerprint with ctime := .ofNat d.clock } }

/-- Takes a name away; the object goes with its last name. -/
def remove (d : Disk) (path : Path) : Except DiskError Disk := do
  let (directory, name) ← d.split path
  let (s, d) ← d.unbind directory name
  d.release [s]

/-- Moves a name, in the place of another one if need be. -/
def rename (d : Disk) (source target : Path) : Except DiskError Disk := do
  let (sourceDirectory, sourceName) ← d.split source
  let (targetDirectory, targetName) ← d.split target
  let (s, d) ← d.unbind sourceDirectory sourceName
  let d ←
    match d.child? targetDirectory targetName with
    | some replaced => do
      let (_, d) ← d.unbind targetDirectory targetName
      d.release [replaced]
    | none => pure d
  d.bind targetDirectory targetName s

/-- Gives an object a new size, now. -/
def write (d : Disk) (path : Path) (size : UInt64) : Except DiskError Disk := do
  let s ← d.serialOf path
  let d := d.tick
  return d.modifyNode s fun n => { n with fingerprint := d.freshFingerprint size }

/-- The inode number of the object at a path. -/
def inoOf (d : Disk) (path : Path) : Except DiskError UInt64 :=
  (d.serialOf path).map d.inoAt

/-- Makes the token of an object too large. -/
def markOversized (d : Disk) (path : Path) : Except DiskError Disk := do
  return d.modifyNode (← d.serialOf path) fun n => { n with oversized := true }

/-- Lets a directory list a name without an object behind it. -/
def addPhantom (d : Disk) (path : Path) (name : Bytes) (ino : UInt64) : Except DiskError Disk := do
  return d.modifyNode (← d.serialOf path) fun n =>
    { n with phantoms := n.phantoms ++ [⟨name, ino⟩] }

/-- Makes listing a directory fail. -/
def failListing (d : Disk) (path : Path) : Except DiskError Disk := do
  return d.modifyNode (← d.serialOf path) fun n => { n with unlistable := true }

def tokenType : Int32 := 1

/-- The token of the object with a serial number: the number in eight bytes. -/
def tokenOf (s : Serial) : IdentityToken :=
  ⟨tokenType, Bytes.littleEndian 8 s, by simp [maxTokenSize]⟩

/-- The serial number in a token, if it has as many bytes as one made by a disk. -/
def serialIn? (token : IdentityToken) : Option Serial :=
  if token.bytes.length = 8 then some (Bytes.ofLittleEndian token.bytes) else none

/-- How many bytes the token of an oversized object would have. -/
def oversizedTokenSize : Nat := maxTokenSize + 8

/-- What a directory lists: itself, the root, its names in order, and the phantoms. -/
def listing (d : Disk) (n : Node) (children : SortedMap Bytes Serial) : List ListedEntry :=
  [⟨Path.dot, n.ino⟩, ⟨Path.dotDot, rootIno⟩] ++
    children.toList.map (fun p => ⟨p.1, d.inoAt p.2⟩) ++ n.phantoms

/-- An answer that leaves the disk as it is. -/
def answer {α : Type} (f : Disk → α) : StateM Disk α := fun d => (f d, d)

/-- The attributes of an object. -/
def attributes (d : Disk) (s : Serial) : Except SyscallError Attributes :=
  match d.node? s with
  | some n => .ok ⟨n.ino, n.mode, n.fingerprint⟩
  | none => .error ⟨.stat, .stale⟩

/-- The token of an object. -/
def identityToken (d : Disk) (s : Serial) : Except IdentityError IdentityToken :=
  match d.node? s with
  | some n => if n.oversized then .error (.tooLarge oversizedTokenSize) else .ok (tokenOf s)
  | none => .error .stale

/-- Opens the object of a token, if it still has a name. -/
def openByToken (d : Disk) (token : IdentityToken) : Except IdentityError Serial :=
  match serialIn? token with
  | none => .error .stale
  | some s =>
    match d.node? s with
    | some n => if token.type = tokenType ∧ 0 < n.links then .ok s else .error .stale
    | none => .error .stale

/-- Lists a directory. -/
def list (d : Disk) (s : Serial) : Except SyscallError (List ListedEntry) :=
  match d.node? s with
  | none => .error ⟨.list, .stale⟩
  | some n =>
    if n.unlistable then .error ⟨.list, .inputOutput⟩
    else
      match n.children with
      | some children => .ok (d.listing n children)
      | none => .error ⟨.list, .notDirectory⟩

/-- Whether an object is a directory. -/
def isDirectory (d : Disk) (s : Serial) : Bool :=
  ((d.node? s).bind Node.children).isSome

def openChild (d : Disk) (directory : Serial) (name : Bytes) :
    Except SyscallError (Option Serial) :=
  if d.isDirectory directory then .ok (d.child? directory name)
  else .error ⟨.openChild, .notDirectory⟩

/-- Opens a directory once more. -/
def openDirectory (d : Disk) (s : Serial) : Except SyscallError Serial :=
  if d.isDirectory s then .ok s else .error ⟨.openDirectory, .notDirectory⟩

/-- How a disk answers the calls of the tracker. Without circles, directories are nested less deeply
than there are objects. -/
def filesystem : Filesystem Disk Serial where
  attributes s := answer fun d => d.attributes s
  identityToken s := answer fun d => d.identityToken s
  openByToken token := answer fun d => d.openByToken token
  list s := answer fun d => d.list s
  openChild s name := answer fun d => d.openChild s name
  openDirectory s := answer fun d => d.openDirectory s
  openRoot := answer fun _ => .ok rootSerial
  nesting d := d.nodes.length

end Disk

end TreeWatch

import TreeWatch.Arena
import TreeWatch.Filesystem
import TreeWatch.Map.Ordered
import TreeWatch.Map.Sorted

/-!
# The tree

The directory tree of the watched mount as the tracker knows it: a graph of records, one per
object, and of named entries that bind records in directories. An object with several names is one
record with several entries.

## Main definitions

- `Instant`, `Clock` : times, and what a clock shows
- `InodeId`, `EntryId` : how records and entries refer to each other
- `InodeRecord`, `DirectoryEntry`, `Tree`
- `Tree.child?`, `Tree.lookupIno`, `Tree.resolvePath` : questions to the tree
- `TreeError` : why the tree refuses a change

## Design notes

Every entry is kept in three places: in the arena of entries, in the child map of its directory and
in the link set of its object. `Tree.checkConsistency` compares them.
-/

namespace TreeWatch

/-- A time in milliseconds. -/
abbrev Instant := Int

/-- The milliseconds from one time to a later one, or zero. -/
def Instant.since (now earlier : Instant) : Nat :=
  (now - earlier).toNat

/-- What a clock shows at its first reading, its second and so on. Between any two readings time may go by. -/
abbrev Clock := Nat → Instant

/-- Names a record of the tree. -/
structure InodeId where
  index : Index
deriving DecidableEq, Inhabited

/-- Names an entry of the tree. -/
structure EntryId where
  index : Index
deriving DecidableEq, Inhabited

namespace InodeId

/-- Records are ordered by their index. -/
instance : Ord InodeId where
  compare a b := compare a.index b.index

instance : Std.TransOrd InodeId :=
  inferInstanceAs (Std.TransCmp (compareOn InodeId.index))

instance : Std.LawfulEqOrd InodeId where
  eq_of_compare {a b} h := by
    have index_eq : a.index = b.index :=
      Std.LawfulEqCmp.eq_of_compare (show compare a.index b.index = .eq from h)
    cases a
    cases b
    simp_all

/-- The name of the record in messages. -/
def name (i : InodeId) : String := s!"inode {i.index.name}"

end InodeId

namespace EntryId

/-- Entries are ordered by their index. -/
instance : Ord EntryId where
  compare a b := compare a.index b.index

instance : Std.TransOrd EntryId :=
  inferInstanceAs (Std.TransCmp (compareOn EntryId.index))

instance : Std.LawfulEqOrd EntryId where
  eq_of_compare {a b} h := by
    have index_eq : a.index = b.index :=
      Std.LawfulEqCmp.eq_of_compare (show compare a.index b.index = .eq from h)
    cases a
    cases b
    simp_all

/-- The name of the entry in messages. -/
def name (e : EntryId) : String := s!"entry {e.index.name}"

end EntryId

/-- An object of the mount. -/
structure InodeRecord where
  ino : UInt64
  mode : UInt32
  token : IdentityToken
  fingerprint : Fingerprint
  /-- The entries that bind the object. -/
  links : SortedSet EntryId
  /-- The entries inside the object; only directories have them. -/
  children : Option (OrderedMap Bytes EntryId)
deriving DecidableEq

namespace InodeRecord

/-- The type of the object. -/
def kind (r : InodeRecord) : FileKind := .ofMode r.mode

/-- Whether the object can have entries inside. -/
def isDirectory (r : InodeRecord) : Bool := r.children.isSome

/-- Whether the object is a directory without entries. -/
def isEmptyDirectory (r : InodeRecord) : Bool :=
  match r.children with
  | some children => children.isEmpty
  | none => false

/-- The entry of a name inside the object. -/
def childEntryOf? (r : InodeRecord) (name : Bytes) : Option EntryId :=
  r.children.bind (·.get? name)

/-- The entries inside the object with their names, in the order in which they were bound. -/
def childList (r : InodeRecord) : List (Bytes × EntryId) :=
  match r.children with
  | some children => children.toList
  | none => []

/-- The directory with a name bound inside; an object without child map stays as it is. -/
def bindChild (r : InodeRecord) (name : Bytes) (entry : EntryId) : InodeRecord :=
  { r with children := r.children.map (·.insert name entry) }

/-- The directory without a name. -/
def unbindChild (r : InodeRecord) (name : Bytes) : InodeRecord :=
  { r with children := r.children.map (·.erase name) }

/-- The object bound by one more entry. -/
def addLink (r : InodeRecord) (entry : EntryId) : InodeRecord :=
  { r with links := r.links.add entry }

/-- The object without an entry that bound it. -/
def removeLink (r : InodeRecord) (entry : EntryId) : InodeRecord :=
  { r with links := r.links.erase entry }

/-- Whether no entry binds the object. -/
def isUnlinked (r : InodeRecord) : Bool := r.links.isEmpty

end InodeRecord

/-- A name bound in a directory. -/
structure DirectoryEntry where
  parent : InodeId
  child : InodeId
  name : Bytes
deriving DecidableEq

/-- The directory tree as the tracker knows it. -/
structure Tree where
  inodes : Arena InodeRecord := .empty
  entries : Arena DirectoryEntry := .empty
  /-- The record of each inode number in use. -/
  byIno : SortedMap UInt64 InodeId := .empty
  root : Option InodeId := none
  /-- Records that no entry binds, with the time since which that has been so. -/
  orphans : OrderedMap InodeId Instant := .empty
  /-- How many milliseconds a record outlives its last entry. -/
  grace : Nat := 0
  /-- Records bound since `takeTouched` was last asked. -/
  touched : SortedSet InodeId := .empty
deriving DecidableEq

/-- How the places in which an entry is kept can disagree. -/
inductive Inconsistency where
  | missingParent (entry : EntryId) (parent : InodeId)
  | unboundInParent (entry : EntryId) (name : Bytes)
  | missingChild (entry : EntryId) (child : InodeId)
  | missingLink (entry : EntryId) (child : InodeId)
  | childMapMismatch (inode : InodeId) (kind : FileKind)
  | foreignLink (inode : InodeId) (link : EntryId)
  | foreignChild (inode : InodeId) (name : Bytes) (entry : EntryId)
  | unregistered (inode : InodeId) (ino : UInt64)
deriving DecidableEq

/-- Why the tree refuses a change, or what is wrong with it. -/
inductive TreeError where
  | unknownInode (inode : InodeId)
  | unknownEntry (entry : EntryId)
  | notADirectory (inode : InodeId)
  | nameTaken (parent : InodeId) (name : Bytes)
  | inconsistent (detail : Inconsistency)
deriving DecidableEq

namespace Tree

/-- The record of an identifier. -/
def record? (t : Tree) (inode : InodeId) : Option InodeRecord :=
  t.inodes.get? inode.index

/-- The entry of an identifier. -/
def entryOf? (t : Tree) (entry : EntryId) : Option DirectoryEntry :=
  t.entries.get? entry.index

/-- Whether a record is still in the tree. -/
def isLive (t : Tree) (inode : InodeId) : Bool :=
  t.inodes.contains inode.index

def recordCount (t : Tree) : Nat := t.inodes.size

def entryCount (t : Tree) : Nat := t.entries.size

/-- The record registered under an inode number. -/
def lookupIno (t : Tree) (ino : UInt64) : Option InodeId :=
  t.byIno.get? ino

/-- Whether a record waits to be destroyed because nothing binds it. -/
def isOrphan (t : Tree) (inode : InodeId) : Bool :=
  t.orphans.contains inode

/-- The entry of a name in a directory. -/
def childEntryOf? (t : Tree) (parent : InodeId) (name : Bytes) : Option EntryId :=
  (t.record? parent).bind (·.childEntryOf? name)

/-- The record bound to a name in a directory. -/
def child? (t : Tree) (parent : InodeId) (name : Bytes) : Option InodeId :=
  (t.childEntryOf? parent name).bind fun entry => (t.entryOf? entry).map DirectoryEntry.child

/-- The entries of a directory with their names, in the order in which they were bound. -/
def childList (t : Tree) (parent : InodeId) : List (Bytes × EntryId) :=
  match t.record? parent with
  | some r => r.childList
  | none => []

/-- The lowest entry that binds a record. -/
def firstLink? (t : Tree) (inode : InodeId) : Option DirectoryEntry :=
  ((t.record? inode).bind (·.links.first?)).bind t.entryOf?

/-- The names on the way up from a record, following lowest entries, the record's own first; at
most `steps` of them, in case the way is a circle. -/
def namesUp (t : Tree) (inode : InodeId) : (steps : Nat) → List Bytes
  | 0 => []
  | steps + 1 =>
    match t.firstLink? inode with
    | some entry => entry.name :: t.namesUp entry.parent steps
    | none => []

/-- A path to a record, for messages. An object with several names is reached through its lowest
entry. -/
def resolvePath (t : Tree) (inode : InodeId) : Path :=
  (t.namesUp inode (t.recordCount + 1)).reverse.foldl Path.join Path.root

end Tree

end TreeWatch

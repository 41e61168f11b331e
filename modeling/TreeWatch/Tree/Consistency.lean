import TreeWatch.Tree.Basic

/-!
# Consistency of the tree

Compares the places in which entries are kept, and the table of inode numbers with the records.

## Main definitions

- `Tree.entryFault?`, `Tree.recordFault?` : what is wrong with one entry or one record
- `Tree.checkConsistency` : the first thing that is wrong with a tree
-/

namespace TreeWatch.Tree

/-- What is wrong with an entry: both of its ends must be in the tree and know it. -/
def entryFault? (t : Tree) (id : EntryId) (entry : DirectoryEntry) : Option Inconsistency :=
  match t.record? entry.parent with
  | none => some (.missingParent id entry.parent)
  | some parent =>
    if parent.childEntryOf? entry.name ≠ some id then some (.unboundInParent id entry.name)
    else
      match t.record? entry.child with
      | none => some (.missingChild id entry.child)
      | some child =>
        if child.links.contains id then none else some (.missingLink id entry.child)

/-- A link of a record that does not bind it. -/
def foreignLink? (t : Tree) (id : InodeId) (r : InodeRecord) : Option EntryId :=
  r.links.elements.find? fun link => (t.entryOf? link).map DirectoryEntry.child ≠ some id

/-- Whether an entry binds a name in a directory. -/
def binds (t : Tree) (entry : EntryId) (parent : InodeId) (name : Bytes) : Bool :=
  match t.entryOf? entry with
  | some binding => binding.parent = parent ∧ binding.name = name
  | none => false

/-- A name in the child map of a record whose entry does not bind it there. -/
def foreignChild? (t : Tree) (id : InodeId) (r : InodeRecord) : Option (Bytes × EntryId) :=
  r.childList.find? fun p => !t.binds p.2 id p.1

/-- What is wrong with a record: exactly directories have child maps, links and children must point
back, and the inode number must be registered. -/
def recordFault? (t : Tree) (id : InodeId) (r : InodeRecord) : Option Inconsistency :=
  if r.isDirectory ≠ (r.kind = .directory) then some (.childMapMismatch id r.kind)
  else
    match t.foreignLink? id r with
    | some link => some (.foreignLink id link)
    | none =>
      match t.foreignChild? id r with
      | some (name, entry) => some (.foreignChild id name entry)
      | none =>
        if t.lookupIno r.ino = some id then none else some (.unregistered id r.ino)

/-- The first thing that is wrong with the entries, or else with the records, by index. -/
def inconsistency? (t : Tree) : Option Inconsistency :=
  (t.entries.toList.findSome? fun p => t.entryFault? ⟨p.1⟩ p.2).or
    (t.inodes.toList.findSome? fun p => t.recordFault? ⟨p.1⟩ p.2)

/-- Succeeds if the tree is consistent. -/
def checkConsistency (t : Tree) : Except TreeError Unit :=
  match t.inconsistency? with
  | some detail => .error (.inconsistent detail)
  | none => .ok ()

end TreeWatch.Tree

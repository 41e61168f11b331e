import TreeWatch.Observation
import TreeWatch.Tree.Basic

/-!
# Changes of the tree

Putting in records and binding and unbinding names. A change that binds or unbinds a name gives the
observation to be reported together with the changed tree.

## Main definitions

- `Tree.insertRecord`, `Tree.refreshFingerprint`, `Tree.setRoot`
- `Tree.addEntry`, `Tree.removeEntry` : bind and unbind a name
- `Tree.orphanIfUnlinked` : lets a record wait that nothing binds
- `Tree.dropRecord` : takes out a record whose entries are gone
- `Tree.takeTouched` : which records were bound since the last time
-/

namespace TreeWatch.Tree

/-- Makes a record the root of the mount, which is never reclaimed. -/
def setRoot (t : Tree) (inode : InodeId) : Tree :=
  { t with orphans := t.orphans.erase inode, root := some inode }

/-- Puts in a record for an object. No entry binds it yet, and it does not wait to be destroyed. -/
def insertRecord (t : Tree) (attributes : Attributes) (token : IdentityToken) :
    InodeId × Tree :=
  let (index, inodes) := t.inodes.insert
    { ino := attributes.ino
      mode := attributes.mode
      token
      fingerprint := attributes.fingerprint
      links := .empty
      children := if attributes.kind = .directory then some .empty else none }
  let inode : InodeId := ⟨index⟩
  (inode, { t with inodes, byIno := t.byIno.insert attributes.ino inode })

/-- Changes a record, if it is in the tree. -/
def modifyRecord (t : Tree) (inode : InodeId) (f : InodeRecord → InodeRecord) : Tree :=
  { t with inodes := t.inodes.modify inode.index f }

/-- Replaces the fingerprint of a record. -/
def refreshFingerprint (t : Tree) (inode : InodeId) (fingerprint : Fingerprint) : Tree :=
  t.modifyRecord inode fun r => { r with fingerprint }

/-- The inode number of a record, or zero if it is not in the tree. -/
def inoOf (t : Tree) (inode : InodeId) : UInt64 :=
  match t.record? inode with
  | some r => r.ino
  | none => 0

/-- Binds `name` in the directory `parent` to `child`. The path in the observation is that of the
directory after the change. -/
def addEntry (t : Tree) (parent : InodeId) (name : Bytes) (child : InodeId) :
    Except TreeError (EntryId × Tree × Observation) :=
  if t.isLive child then
    match t.record? parent with
    | none => .error (.unknownInode parent)
    | some directory =>
      match directory.children with
      | none => .error (.notADirectory parent)
      | some children =>
        if children.contains name then .error (.nameTaken parent name)
        else
          let (index, entries) := t.entries.insert { parent, child, name }
          let entry : EntryId := ⟨index⟩
          let t := { t with entries }
          let t := t.modifyRecord parent (·.bindChild name entry)
          let t := t.modifyRecord child (·.addLink entry)
          let t := { t with
            orphans := t.orphans.erase child
            touched := t.touched.add child }
          .ok (entry, t,
            { kind := .linked
              path := (t.resolvePath parent).join name
              ino := t.inoOf child
              parentIno := directory.ino })
  else .error (.unknownInode child)

/-- Lets a record wait to be destroyed, from `now` on. -/
def startWaiting (t : Tree) (inode : InodeId) (now : Instant) : Tree :=
  { t with orphans := t.orphans.insert inode now }

/-- Lets a record wait if it lost its last entry; the root never waits. -/
def waitIfUnlinked (t : Tree) (inode : InodeId) (now : Instant) : Tree :=
  match t.record? inode with
  | some r => if r.isUnlinked ∧ t.root ≠ some inode then t.startWaiting inode now else t
  | none => t

/-- Takes an entry out of both of its ends. The path in the observation is that of the directory
before the change. An object left without entries begins to wait at `now`. -/
def removeEntry (t : Tree) (now : Instant) (entry : EntryId) :
    Except TreeError (Tree × Observation) :=
  match t.entries.remove entry.index with
  | none => .error (.unknownEntry entry)
  | some (binding, entries) =>
    let observation : Observation :=
      { kind := .unlinked
        path := (t.resolvePath binding.parent).join binding.name
        ino := t.inoOf binding.child
        parentIno := t.inoOf binding.parent }
    let t := { t with entries }
    let t := t.modifyRecord binding.parent (·.unbindChild binding.name)
    let t := t.modifyRecord binding.child (·.removeLink entry)
    .ok (t.waitIfUnlinked binding.child now, observation)

/-- Lets a record wait if nothing binds it, and says whether its waiting began just now: linked
records and the root do not wait, and a record that waits already goes on as before. -/
def orphanIfUnlinked (t : Tree) (inode : InodeId) (now : Instant) : Bool × Tree :=
  match t.record? inode with
  | some r =>
    if r.isUnlinked && t.root ≠ some inode && !t.isOrphan inode then
      (true, t.startWaiting inode now)
    else (false, t)
  | none => (false, t)

/-- A record without its entries, and everything else that mentions it, leaves the tree. Says
whether there was such a record. -/
def dropRecord (t : Tree) (inode : InodeId) : Bool × Tree :=
  let t := { t with
    orphans := t.orphans.erase inode
    touched := t.touched.erase inode
    root := if t.root = some inode then none else t.root }
  match t.inodes.remove inode.index with
  | none => (false, t)
  | some (r, inodes) =>
    (true, { t with
      inodes
      byIno := if t.byIno.get? r.ino = some inode then t.byIno.erase r.ino else t.byIno })

/-- The records bound since the last time that are still in the tree, in order, and the tree that
has forgotten them. -/
def takeTouched (t : Tree) : List InodeId × Tree :=
  (t.touched.elements.filter t.isLive, { t with touched := .empty })

end TreeWatch.Tree

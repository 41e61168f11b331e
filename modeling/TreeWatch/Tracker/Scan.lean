import TreeWatch.Tracker.Resolve

/-!
# Scanning directories

Brings the entries of a directory in the tree in line with its listing on disk.

## Main definitions

- `ScanError` : why a scan was given up
- `Tracker.scan` : scans a directory, and those below it if asked to
- `Tracker.scanRoot` : scans the whole mount

## Design notes

A scan that is not strict takes a name for unchanged if its inode number is. A directory that has
just been bound and has no entries yet is new to the tree, perhaps moved in with all that it
contains, so it is always scanned as well. `scanDirectory` gets the scan of the directories below as
an argument; `scanWithin` ties the knot and bounds the depth.
-/

namespace TreeWatch

/-- Why a scan was given up. -/
inductive ScanError where
  | resolve (error : IdentityError)
  | call (error : SyscallError)
  | tree (error : TreeError)
  /-- Directories are nested deeper than the filesystem said they could be. -/
  | tooDeep
deriving DecidableEq

/-- What is reported about the failure. -/
def ScanError.message : ScanError → String
  | .resolve _ => "Failed to resolve the identity of a scanned object"
  | .call _ => "Filesystem call failed while scanning"
  | .tree _ => "Failed to update the tree"
  | .tooDeep => "Directories are nested too deeply"

namespace Tracker

variable {σ H : Type} (fs : Filesystem σ H) (strict : Bool)

/-- Scans a directory whose handle is given away, and everything below it if the flag is set. -/
abbrev ScanBelow (σ H : Type) := H → Bool → Track σ ScanError ScanSummary

/-- Binds a name, in a directory where it is not bound. -/
def bindName (parent : InodeId) (name : Bytes) (child : InodeId) : Track σ ScanError Unit :=
  wrapping .tree <| editTry fun _ l => (l.addEntry parent name child).map Prod.snd

def unbindEntry (entry : EntryId) : Track σ ScanError Unit :=
  wrapping .tree <| editTry fun clock l => l.removeEntry clock entry

/-- Binds a name to a record, in the stead of another record if need be; gives the numbers of names
bound and unbound. -/
def rebind (parent : InodeId) (name : Bytes) (child : InodeId) :
    Track σ ScanError ScanSummary := do
  let bound ← look fun w =>
    (w.tree.childEntryOf? parent name).map fun entry =>
      (entry, (w.tree.entryOf? entry).map DirectoryEntry.child)
  match bound with
  | some (entry, current) =>
    if current = some child then pure {}
    else
      unbindEntry entry
      bindName parent name child
      pure { unlinked := 1, linked := 1 }
  | none =>
    bindName parent name child
    pure { linked := 1 }

/-- Opens an object that has just been bound once more, if it is a directory to be scanned as well:
one that is new to the tree always is. -/
def handOn (child : InodeId) (summary : ScanSummary) (recursive : Bool) (object : H) :
    Track σ ScanError (ScanSummary × Option H) := do
  let record ← look fun w => w.tree.record? child
  let isDirectory := record.any (·.isDirectory)
  let unexplored := decide (0 < summary.linked) && record.any (·.isEmptyDirectory)
  if isDirectory && (recursive || unexplored) then
    match ← attempt (openDirectory fs object) with
    | .ok handle => pure (summary, some handle)
    | .error e =>
      if e.isVanished then pure (summary + .oneSkipped, none)
      else throw (.call e)
  else pure (summary, none)

/-- Binds a listed name to its open object. If the object is a directory to be scanned as well, a
handle for that is given too. -/
def bindObject (parent : InodeId) (name : Bytes) (recursive : Bool) (object : H) :
    Track σ ScanError (ScanSummary × Option H) := do
  match ← attempt (resolve fs object) with
  | .error (.tooLarge size) =>
    note (.tokenTooLarge name size)
    pure (.oneSkipped, none)
  | .error (.call e) =>
    if e.isVanished then
      note (.vanishedWhileResolved name)
      pure (.oneSkipped, none)
    else throw (.resolve (.call e))
  | .error .stale => throw (.resolve .stale)
  | .ok child =>
    handOn fs child (← rebind parent name child) recursive object

/-- Scans the directory behind a name that is taken for unchanged. -/
def descend (scanBelow : ScanBelow σ H) (directory : H) (name : Bytes) :
    Track σ ScanError ScanSummary := do
  match ← wrapping .call (openChild fs directory name) with
  | none => pure .oneSkipped
  | some object =>
    match ← releasing (attempt (openDirectory fs object)) with
    | .ok handle => scanBelow handle true
    | .error e => if e.isVanished then pure .oneSkipped else throw (.call e)

/-- The record bound to a listed name, if a scan that is not strict takes it for unchanged. -/
def unchanged? (parent : InodeId) (listed : ListedEntry) : Track σ ScanError (Option InodeRecord) :=
  look fun w =>
    ((w.tree.child? parent listed.name).bind w.tree.record?).filter (·.ino = listed.ino)

/-- Opens a listed name and binds it to its object. -/
def reopen (scanBelow : ScanBelow σ H) (directory : H) (parent : InodeId) (recursive : Bool)
    (name : Bytes) : Track σ ScanError ScanSummary := do
  match ← wrapping .call (openChild fs directory name) with
  | none =>
    note (.vanishedBeforeOpening name)
    pure .oneSkipped
  | some object =>
    let (summary, next) ← releasing (bindObject fs parent name recursive object)
    match next with
    | some handle => return summary + (← scanBelow handle recursive)
    | none => pure summary

/-- Brings one listed name up to date. -/
def reconcile (scanBelow : ScanBelow σ H) (directory : H) (parent : InodeId) (recursive : Bool)
    (listed : ListedEntry) : Track σ ScanError ScanSummary := do
  match ← unchanged? parent listed with
  | some record =>
    if strict then reopen fs scanBelow directory parent recursive listed.name
    else if recursive && record.isDirectory then
      return { fastPath := 1 } + (← descend fs scanBelow directory listed.name)
    else pure { fastPath := 1 }
  | none => reopen fs scanBelow directory parent recursive listed.name

/-- Brings listed names up to date, one after another. -/
def reconcileAll (scanBelow : ScanBelow σ H) (directory : H) (parent : InodeId)
    (recursive : Bool) : List ListedEntry → Track σ ScanError ScanSummary
  | [] => pure {}
  | listed :: rest => do
    let first ← reconcile fs strict scanBelow directory parent recursive listed
    return first + (← reconcileAll scanBelow directory parent recursive rest)

/-- The entries of a directory whose names are not among those listed. -/
def goneEntries (t : Tree) (parent : InodeId) (listed : List Bytes) : List EntryId :=
  ((t.childList parent).filter fun p => !listed.contains p.1).map Prod.snd

/-- Unbinds entries, one after another; gives how many there were. -/
def unbindAll : List EntryId → Track σ ScanError ScanSummary
  | [] => pure {}
  | entry :: rest => do
    unbindEntry entry
    return { unlinked := 1 } + (← unbindAll rest)

/-- Brings the entries of a record in line with a listing. A record that nothing binds begins to
wait: it was removed after its notification was queued, or the directory above it has not been
scanned yet. -/
def applyListing (scanBelow : ScanBelow σ H) (directory : H) (parent : InodeId)
    (recursive : Bool) (listing : List ListedEntry) : Track σ ScanError ScanSummary := do
  let listed := listing.filter (!·.isPseudo)
  let below ← reconcileAll fs strict scanBelow directory parent recursive listed
  let gone ← look fun w => goneEntries w.tree parent (listed.map (·.name))
  let removed ← unbindAll gone
  let summary := { directories := 1 } + below + removed
  edit fun clock l => l.orphanIfUnlinked parent clock
  note (.scanned (← look fun w => w.tree.resolvePath parent) summary)
  pure summary

/-- Lists a directory and brings its record in line. -/
def scanRecord (scanBelow : ScanBelow σ H) (directory : H) (parent : InodeId) (recursive : Bool) :
    Track σ ScanError ScanSummary := do
  match ← attempt (list fs directory) with
  | .ok listing => applyListing fs strict scanBelow directory parent recursive listing
  | .error e =>
    if e.isVanished then
      note (.vanishedBeforeListing (← look fun w => w.tree.resolvePath parent))
      edit fun clock l => l.orphanIfUnlinked parent clock
      pure .oneSkipped
    else throw (.call e)

/-- Scans one directory and gives its handle back. -/
def scanDirectory (scanBelow : ScanBelow σ H) (directory : H) (recursive : Bool) :
    Track σ ScanError ScanSummary :=
  releasing do
    match ← attempt (resolve fs directory) with
    | .error (.tooLarge size) =>
      note (.directoryTokenTooLarge size)
      pure .oneSkipped
    | .error e => throw (.resolve e)
    | .ok parent => scanRecord fs strict scanBelow directory parent recursive

/-- Scans a directory, going down `depth` more levels at most. -/
def scanWithin : (depth : Nat) → ScanBelow σ H
  | 0, _, _ => releasing (throw .tooDeep)
  | depth + 1, directory, recursive =>
    scanDirectory fs strict (scanWithin depth) directory recursive

/-- Scans a directory whose handle is given away, and those below it if the flag is set. -/
def scan (directory : H) (recursive : Bool) : Track σ ScanError ScanSummary := do
  let nesting ← look fun w => fs.nesting w.files
  scanWithin fs strict (nesting + 1) directory recursive

/-- Makes the root of the mount the root of the tree and scans the whole mount. -/
def scanRoot : Track σ ScanError ScanSummary := do
  let root ← wrapping .call (openRoot fs)
  match ← attempt (resolve fs root) with
  | .ok inode =>
    edit fun _ l => { l with tree := l.tree.setRoot inode }
    scan fs strict root true
  | .error e => releasing (throw (.resolve e))

end Tracker

end TreeWatch

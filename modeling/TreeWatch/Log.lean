import TreeWatch.Config.Basic
import TreeWatch.Notification
import TreeWatch.ScanSummary
import TreeWatch.Text.Quoted
import TreeWatch.Tree.Basic

/-!
# The log

What the library reports while it works: one constructor per kind of event, its level, and its
wording.

## Main definitions

- `LogLevel` : how important an event is
- `LogEvent` : an event
- `LogEvent.level`, `LogEvent.text` : how it is reported
-/

namespace TreeWatch

/-- How important an event is, most important first. -/
inductive LogLevel where
  | error
  | warn
  | info
  | debug
deriving DecidableEq

namespace LogLevel

/-- The rank of the level; more important levels come first. -/
def rank : LogLevel → Nat
  | .error => 0
  | .warn => 1
  | .info => 2
  | .debug => 3

/-- The level in capitals. -/
def word : LogLevel → String
  | .error => "ERROR"
  | .warn => "WARN"
  | .info => "INFO"
  | .debug => "DEBUG"

end LogLevel

/-- What was found to be wrong with the tree, in words. -/
def Inconsistency.message : Inconsistency → String
  | .missingParent entry parent => s!"{entry.name} has a missing parent {parent.name}"
  | .unboundInParent entry name =>
    s!"{entry.name} named {Text.Quoted.quote name} is not bound in its parent"
  | .missingChild entry child => s!"{entry.name} has a missing child {child.name}"
  | .missingLink entry child => s!"{entry.name} is missing from the links of {child.name}"
  | .childMapMismatch inode kind =>
    s!"{inode.name} is a {kind.description} with a mismatched child mapping"
  | .foreignLink inode link => s!"{inode.name} lists {link.name} which does not point back"
  | .foreignChild inode name entry =>
    s!"{inode.name} maps {Text.Quoted.quote name} to foreign {entry.name}"
  | .unregistered inode ino =>
    s!"{inode.name} is not registered under inode number {ino.toNat}"

/-- Why the tree refused a change, in words. -/
def TreeError.message : TreeError → String
  | .unknownInode inode => s!"{inode.name} is not in the tree"
  | .unknownEntry entry => s!"{entry.name} is not in the tree"
  | .notADirectory inode => s!"{inode.name} is not a directory"
  | .nameTaken parent name =>
    "Name '" ++ Path.display name ++ "' is already bound under " ++ parent.name
  | .inconsistent detail => s!"Tree invariant violated: {detail.message}"

/-- An event that is reported. -/
inductive LogEvent where
  /-- A call is made again. -/
  | retrying (retry : Retry)
  /-- A directory cannot be identified because its token has too many bytes. -/
  | directoryTokenTooLarge (size : Nat)
  | vanishedBeforeListing (path : Path)
  | scanned (path : Path) (summary : ScanSummary)
  | vanishedBeforeOpening (name : Bytes)
  | vanishedWhileResolved (name : Bytes)
  | tokenTooLarge (name : Bytes) (size : Nat)
  /-- An inode number stands for another object than before. -/
  | recycled (ino : UInt64) (path : Path)
  /-- The record of the new object. -/
  | recreated (inode : InodeId) (ino : UInt64)
  | invalidated (inode : InodeId)
  /-- A new record takes an inode number that another one still had. -/
  | stillMapped (ino : UInt64) (previous inode : InodeId)
  | detachFailed (entry : EntryId) (inode : InodeId) (error : TreeError)
  | reclaimed (count : Nat)
  | baselineFinished (directories records entries : Nat)
  | baselineInconsistent (error : TreeError)
  | queueOverflowed
  | ignored (kind : NotificationKind) (mask : UInt64)
  /-- Bytes behind the last record of a read. -/
  | trailingBytes (count : Nat)
  /-- A stored row could not be checked. -/
  | rowUnverified (ino : UInt64) (error : IdentityError)
  | rowsFlipped (count : Nat)
  /-- There is no file of settings. -/
  | configDefaulted
  | configOpening (path : Path)
  /-- A file of settings with so many bytes has been read. -/
  | configRead (size : Nat)
  | configKeyUnknown (key : String)
  /-- A key that is no text, in words. -/
  | configKeySkipped (key : String)
  | configLoaded (config : Config)
deriving DecidableEq

namespace LogEvent

/-- How important the event is. -/
def level : LogEvent → LogLevel
  | .stillMapped .. | .detachFailed .. | .baselineInconsistent .. => .error
  | .directoryTokenTooLarge .. | .tokenTooLarge .. | .queueOverflowed | .trailingBytes ..
  | .rowUnverified .. => .warn
  | .recycled .. | .baselineFinished .. | .rowsFlipped .. => .info
  | .retrying .. | .vanishedBeforeListing .. | .scanned .. | .vanishedBeforeOpening ..
  | .vanishedWhileResolved .. | .recreated .. | .invalidated .. | .reclaimed .. | .ignored ..
  | .configDefaulted | .configOpening .. | .configRead .. | .configKeyUnknown ..
  | .configKeySkipped .. | .configLoaded .. =>
    .debug

/-- The event in words. -/
def text : LogEvent → String
  | .retrying r =>
    s!"{r.operation.name} returned {r.errno.message}, retrying (attempt {r.attempt})"
  | .directoryTokenTooLarge size => s!"Skipping directory with a {size} byte identity token"
  | .vanishedBeforeListing path => s!"{path.display} vanished before it could be listed"
  | .scanned path summary => s!"Scanned {path.display}: {summary.describe}"
  | .vanishedBeforeOpening name => s!"{Text.Quoted.quote name} vanished before it could be opened"
  | .vanishedWhileResolved name => s!"{Text.Quoted.quote name} vanished while being resolved"
  | .tokenTooLarge name size =>
    s!"Skipping {Text.Quoted.quote name}: identity token of {size} bytes is too large"
  | .recycled ino path => s!"Inode number {ino.toNat} was recycled, discarding {path.display}"
  | .recreated inode ino => s!"Created {inode.name} for recycled inode number {ino.toNat}"
  | .invalidated inode => s!"Invalidated {inode.name}"
  | .stillMapped ino previous inode =>
    s!"Inode number {ino.toNat} was still mapped to {previous.name} when {inode.name} was created"
  | .detachFailed entry inode error =>
    s!"Failed to detach {entry.name} while destroying {inode.name}: {error.message}"
  | .reclaimed count => s!"Reclaimed {count} orphaned records"
  | .baselineFinished directories records entries =>
    s!"Baseline scan finished: {directories} directories, {records} records, {entries} entries"
  | .baselineInconsistent error =>
    s!"Tree is inconsistent after the baseline scan: {error.message}"
  | .queueOverflowed => "Notification queue overflowed, rescanning the whole mount"
  | .ignored kind mask =>
    s!"Ignoring {kind.word} notification with mask 0x{Text.Quoted.hex mask.toNat}"
  | .trailingBytes count => s!"Ignoring {count} trailing bytes after the last fanotify record"
  | .rowUnverified ino error =>
    s!"Leaving row for inode number {ino.toNat} unverified: {error.message}"
  | .rowsFlipped count => s!"{count} stored fingerprints no longer match"
  | .configDefaulted => "No config file given, using defaults"
  | .configOpening path => "Opening config file: " ++ path.display
  | .configRead size => s!"Successfully read config file: {size} bytes"
  | .configKeyUnknown key => s!"Ignoring unknown config key '{key}'"
  | .configKeySkipped key => s!"Skipping non-string config key: {key}"
  | .configLoaded config => s!"Loaded config: {config.describe}"

end LogEvent

end TreeWatch

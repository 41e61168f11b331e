import TreeWatch.Tracker.Scan
import TreeWatch.Tree.Consistency

/-!
# Watching

Keeps the tree current: a baseline scan first, then one scan per notification, and a pass that
reclaims what nothing binds any more.

## Main definitions

- `WatchError` : why watching ended
- `Tracker.baseline`, `Tracker.rescanRoots` : scan the whole mount
- `Tracker.processBatch` : applies notifications that arrived together
- `NotificationQueue` : batches and failures that are still to be delivered
-/

namespace TreeWatch

/-- Why watching ended. -/
inductive WatchError where
  /-- A notification has another version than the one understood. -/
  | versionMismatch (found : UInt8)
  | notifications (error : NotificationError)
  /-- There will be no more notifications. -/
  | streamClosed
  /-- The scan of a modified directory was given up. -/
  | scan (error : ScanError)
  /-- The scan after notifications had been lost was given up. -/
  | queueOverflow (error : ScanError)
  /-- The first scan was given up. -/
  | baseline (error : ScanError)
deriving DecidableEq

/-- What is reported about the failure. -/
def WatchError.message : WatchError → String
  | .versionMismatch found =>
    s!"Notification record has version {found.toNat}, expected {recordVersion.toNat}"
  | .notifications _ => "Failed to receive notifications"
  | .streamClosed => "Notification stream ended"
  | .scan _ => "Failed to scan a modified directory"
  | .queueOverflow _ => "Failed to resynchronise after a queue overflow"
  | .baseline _ => "Baseline scan failed"

namespace Tracker

variable {σ H : Type} (fs : Filesystem σ H) (strict : Bool)

/-- Destroys the records that have waited long enough by now; gives how many. -/
def reclaimNow {ε : Type} : Track σ ε Nat :=
  editGet fun clock l => l.reclaimNow clock

/-- Scans the mount from its root, then reclaims. -/
def rescanRoots : Track σ ScanError ScanSummary := do
  let summary ← scanRoot fs strict
  let _ ← reclaimNow
  pure summary

/-- The first scan of the whole mount, on which all later changes build. -/
def baseline : Track σ WatchError ScanSummary := do
  let summary ← wrapping .baseline (rescanRoots fs strict)
  note (← look fun w =>
    .baselineFinished summary.directories w.tree.recordCount w.tree.entryCount)
  match ← look fun w => w.tree.checkConsistency with
  | .ok _ => pure summary
  | .error e =>
    note (.baselineInconsistent e)
    pure summary

/-- Gives back the handle of a notification, if it has one. -/
def releaseObject {ε : Type} (n : Notification H) : Track σ ε Unit :=
  match n.object with
  | some _ => release
  | none => pure ()

/-- Applies one notification and gives its handle back. -/
def handle (n : Notification H) : Track σ WatchError ScanSummary :=
  if n.version ≠ recordVersion then do
    releaseObject n
    throw (.versionMismatch n.version)
  else
    match n.kind, n.object with
    | .directoryModified, some directory => wrapping .scan (scan fs strict directory false)
    | .overflow, _ => do
      note .queueOverflowed
      let outcome ← attempt (rescanRoots fs strict)
      releaseObject n
      match outcome with
      | .ok summary => pure summary
      | .error e => throw (.queueOverflow e)
    | kind, _ => do
      note (.ignored kind n.mask)
      releaseObject n
      pure {}

/-- Applies notifications in order. After one that fails, the handles of the others are given back
unused. -/
def handleAll : List (Notification H) → Track σ WatchError ScanSummary
  | [] => pure {}
  | n :: rest => do
    match ← attempt (handle fs strict n) with
    | .ok first => return first + (← handleAll rest)
    | .error e =>
      rest.forM releaseObject
      throw e

/-- Applies notifications that arrived together, then reclaims. -/
def processBatch (batch : List (Notification H)) : Track σ WatchError ScanSummary := do
  let summary ← handleAll fs strict batch
  let count ← reclaimNow
  if 0 < count then note (.reclaimed count)
  pure summary

end Tracker

/-- Batches of notifications still to be delivered, and failures between them. -/
abbrev NotificationQueue (H : Type) := List (Except NotificationError (List (Notification H)))

/-- The next batch, and what is to be delivered after it. -/
def NotificationQueue.next {H : Type} (q : NotificationQueue H) :
    Except WatchError (List (Notification H)) × NotificationQueue H :=
  match q with
  | [] => (.error .streamClosed, [])
  | .ok batch :: rest => (.ok batch, rest)
  | .error e :: rest => (.error (.notifications e), rest)

end TreeWatch

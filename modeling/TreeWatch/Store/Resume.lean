import TreeWatch.Store.Verify
import TreeWatch.Watcher

/-!
# Taking up stored fingerprints

The fingerprints that were stored when the program ended are checked before the mount is scanned for the
first time. After that scan, and after every batch of notifications, the store takes notice of the records
that were bound.

## Main definitions

- `Tracker.absorbTouched` : takes notice of the records bound since the last time
- `Tracker.resume` : what happens to the store when the program starts
-/

namespace TreeWatch.Tracker

variable {σ H ε : Type}

/-- Takes notice of the records bound since the last time. Gives how many rows were put in or have to be
looked at again. -/
def absorbTouched (s : Store) : Track σ ε (Nat × Store) := do
  let touched ← editGet fun _ l =>
    let (inodes, tree) := l.tree.takeTouched
    (inodes, { l with tree })
  let records ← look fun w => touched.filterMap w.tree.record?
  pure (s.absorbAll records)

/-- Checks a store, scans the whole mount for the first time, and takes notice of what was found. -/
def resume (fs : Filesystem σ H) (strict : Bool) (s : Store) :
    Track σ WatchError (ScanSummary × Store) := do
  let (_, checked) ← verify fs s
  let summary ← baseline fs strict
  let (_, current) ← absorbTouched checked
  pure (summary, current)

end TreeWatch.Tracker

/-!
# Scan summaries

The counters that say what a scan did.

## Main definitions

- `ScanSummary` : the counters
- `ScanSummary.changed` : whether the scan changed any name
-/

namespace TreeWatch

/-- What a scan did. -/
structure ScanSummary where
  /-- Directories compared with their listing. -/
  directories : Nat := 0
  /-- Names bound. -/
  linked : Nat := 0
  /-- Names unbound because they were gone or stood for another object. -/
  unlinked : Nat := 0
  /-- Names taken for unchanged because name and inode number were. -/
  fastPath : Nat := 0
  /-- Objects passed over because they were gone or could not be identified. -/
  skipped : Nat := 0
deriving DecidableEq, Inhabited

namespace ScanSummary

instance : Add ScanSummary where
  add a b :=
    { directories := a.directories + b.directories
      linked := a.linked + b.linked
      unlinked := a.unlinked + b.unlinked
      fastPath := a.fastPath + b.fastPath
      skipped := a.skipped + b.skipped }

/-- The summary of one object passed over. -/
def oneSkipped : ScanSummary := { skipped := 1 }

/-- Whether any name came or went. -/
def changed (s : ScanSummary) : Bool :=
  0 < s.linked || 0 < s.unlinked

theorem changed_eq_false_iff {s : ScanSummary} :
    s.changed = false ↔ s.linked = 0 ∧ s.unlinked = 0 := by
  simp [changed]

/-- The counters with their names. -/
def describe (s : ScanSummary) : String :=
  String.join ["ScanSummary \x7b directories: ", toString s.directories,
    ", linked: ", toString s.linked, ", unlinked: ", toString s.unlinked,
    ", fast_path: ", toString s.fastPath, ", skipped: ", toString s.skipped, " \x7d"]

end ScanSummary

end TreeWatch

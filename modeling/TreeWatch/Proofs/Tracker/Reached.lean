import TreeWatch.Proofs.Disk.Operation
import TreeWatch.Proofs.Tracker.Edits

/-!
# Runs of the tracker

A run begins with an empty tree. Then calls of the tracker alternate with whatever happens to the
filesystem, the clock and the open handles in between.

## Main definitions

- `Tracker.Call` : the calls by which a program drives the tracker
- `Tracker.Reached` : the states that come up in a run

## Main results

- `Tracker.Reached.sound` : trees stay sound
- `Tracker.Reached.consistent` : the check of the program never finds anything wrong
-/

namespace TreeWatch

variable {σ H : Type}

namespace Tracker

/-- The calls by which a program drives the tracker. -/
inductive Call (H : Type) where
  | baseline
  | rescanRoots
  | processBatch (batch : List (Notification H))
  | scan (directory : H) (recursive : Bool)
  | scanRoot

/-- The state after a call, whether it gave a result or failed. -/
def Call.after (fs : Filesystem σ H) (strict : Bool) (c : Call H) (w : Tracker σ) : Tracker σ :=
  match c with
  | .baseline => ((Tracker.baseline fs strict).run w).2
  | .rescanRoots => ((Tracker.rescanRoots fs strict).run w).2
  | .processBatch batch => ((Tracker.processBatch fs strict batch).run w).2
  | .scan directory recursive => ((Tracker.scan fs strict directory recursive).run w).2
  | .scanRoot => ((Tracker.scanRoot fs strict).run w).2

/-- The states that come up in a run over a filesystem that is in one of the states `starts` at first
and that changes by `moves` between the calls. Every call may be strict or not. -/
inductive Reached (fs : Filesystem σ H) (starts : σ → Prop) (moves : σ → σ → Prop) :
    Tracker σ → Prop
  | start {files : σ} {leases : Leases} {clock : Clock} {grace : Nat} :
    starts files → Reached fs starts moves ⟨files, leases, clock, { tree := { grace } }⟩
  | call {w : Tracker σ} (strict : Bool) (c : Call H) :
    Reached fs starts moves w → Reached fs starts moves (c.after fs strict w)
  | elsewhere {w : Tracker σ} {files : σ} {leases : Leases} {clock : Clock} :
    Reached fs starts moves w → moves w.files files →
      Reached fs starts moves { w with files, leases, clock }

/-- A run over a filesystem that may answer every call arbitrarily and change in any way between
the calls. -/
abbrev ReachedAnyhow (fs : Filesystem σ H) : Tracker σ → Prop :=
  Reached fs (fun _ => True) (fun _ _ => True)

variable {fs : Filesystem σ H} {starts : σ → Prop} {moves : σ → σ → Prop} {w : Tracker σ}

theorem Reached.mono {moves' : σ → σ → Prop} (h : Reached fs starts moves w)
    (hmoves : ∀ files files', moves files files' → moves' files files') :
    Reached fs starts moves' w := by
  induction h with
  | start hstart => exact .start hstart
  | call strict c _ ih => exact .call strict c ih
  | elsewhere _ hmove ih => exact .elsewhere ih (hmoves _ _ hmove)

/-- A call does nothing to the tree but change it. -/
theorem Call.edits {world : σ → Prop} {known : Testimony} (hfs : fs.Vouches world known)
    (strict : Bool) (c : Call H) (w : Tracker σ) (hw : world w.files) :
    Edited world known w (c.after fs strict w) := by
  cases c with
  | baseline => exact editsOnly_baseline hfs strict w hw
  | rescanRoots => exact editsOnly_rescanRoots hfs strict w hw
  | processBatch batch => exact editsOnly_processBatch hfs strict batch w hw
  | scan directory recursive => exact editsOnly_scan hfs strict directory recursive w hw
  | scanRoot => exact editsOnly_scanRoot hfs strict w hw

/-- A call gives up no slots. -/
theorem Call.grows (strict : Bool) (c : Call H) (w : Tracker σ) :
    w.tree.Grows (c.after fs strict w).tree :=
  (c.edits fs.vouches_trivial strict w trivial).tree.grows

/-- A call keeps the tree sound. -/
theorem Call.sound (strict : Bool) (c : Call H) (w : Tracker σ) (h : w.tree.Sound)
    (fits : (c.after fs strict w).tree.Fits) : (c.after fs strict w).tree.Sound :=
  Tree.Edits.sound (c.edits fs.vouches_trivial strict w trivial).tree h fits

/-- Trees stay sound as long as they fit their slot numbers. -/
theorem Reached.sound (h : Reached fs starts moves w) (fits : w.tree.Fits) : w.tree.Sound := by
  induction h with
  | start => exact Tree.sound_empty _
  | @call w strict c _ ih => exact c.sound strict w (ih ((c.grows strict w).fits fits)) fits
  | elsewhere _ _ ih => exact ih fits

/-- In every state of a run the check of the program succeeds and the places in which entries and
records are kept agree, whatever the filesystem answered and whether calls failed. The tree fits its
slot numbers as long as fewer than 2³² records and entries were ever made, since every slot was made
for one of them. -/
theorem Reached.consistent (h : ReachedAnyhow fs w) (fits : w.tree.Fits) :
    w.tree.checkConsistency = .ok () ∧ w.tree.Consistent := by
  have hsound := h.sound fits
  exact ⟨hsound.checkConsistency_eq_ok fits, hsound.toConsistent⟩

/-- A disk with a file `a`, and a file `f` in a directory `d`. -/
def twoFiles : Disk :=
  ((Disk.empty.perform (.create (.ofString "/a"))).perform (.mkdir (.ofString "/d"))).perform
    (.create (.ofString "/d/f"))

/-- A file `b` has taken the inode number of `a`, and `d` cannot be listed any more. -/
def recycledFile : Disk :=
  ((twoFiles.perform (.remove (.ofString "/a"))).perform (.createWithIno (.ofString "/b") 101)).perform
    (.failListing (.ofString "/d"))

/-- All has been found but what has happened to the disk since. -/
def beforeScan : Tracker Disk :=
  { Call.baseline.after Disk.filesystem false ⟨twoFiles, {}, fun n => n, { tree := {} }⟩ with
    files := recycledFile }

/-- A scan has put `b` in the place of `a` and then failed. -/
def failedScan : Tracker Disk := Call.scanRoot.after Disk.filesystem false beforeScan

/-- Three names have come, one has gone with the record that made way, and one has come before the scan
failed. -/
theorem consistent_failedScan :
    ((scanRoot Disk.filesystem false).run beforeScan).1.isOk = false ∧
      failedScan.ledger.journal.map Observation.kind = [.linked, .linked, .linked, .unlinked, .linked] ∧
      failedScan.tree.Fits ∧ failedScan.tree.checkConsistency = .ok () ∧ failedScan.tree.Consistent := by
  have fits : failedScan.tree.Fits := by decide +kernel
  exact ⟨by decide +kernel, by decide +kernel, fits,
    Reached.consistent (.call false .scanRoot (.elsewhere (.call false .baseline (.start trivial)) trivial))
      fits⟩

end Tracker

end TreeWatch

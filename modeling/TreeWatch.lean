import TreeWatch.Disk.Scripted
import TreeWatch.EventRecord
import TreeWatch.Main
import TreeWatch.Store.File
import TreeWatch.Store.Resume
import TreeWatch.Store.Verify
import TreeWatch.Watcher
import TreeWatch.Proofs.Arena
import TreeWatch.Proofs.Arena.History
import TreeWatch.Proofs.Tree.Record
import TreeWatch.Proofs.Tree.Edit
import TreeWatch.Proofs.Tree.Consistent
import TreeWatch.Proofs.Tree.Sound
import TreeWatch.Proofs.Tree.Destroy
import TreeWatch.Proofs.Tree.View
import TreeWatch.Proofs.Tree.Edits
import TreeWatch.Proofs.Tree.Ledger
import TreeWatch.Proofs.Tree.Touched
import TreeWatch.Proofs.Tree.Blank
import TreeWatch.Proofs.Path
import TreeWatch.Proofs.Fingerprint
import TreeWatch.Proofs.Tracker.Run
import TreeWatch.Proofs.Tracker.Edits
import TreeWatch.Proofs.Tracker.Reached
import TreeWatch.Proofs.Tracker.Does
import TreeWatch.Proofs.Tracker.Gives
import TreeWatch.Proofs.Tracker.Leases
import TreeWatch.Proofs.Tracker.Recording
import TreeWatch.Proofs.Disk.Regular
import TreeWatch.Proofs.Disk.Depth
import TreeWatch.Proofs.Disk.Operation
import TreeWatch.Proofs.Disk.Orderly
import TreeWatch.Proofs.Disk.Neat
import TreeWatch.Proofs.Mirror.Update
import TreeWatch.Proofs.Mirror.Name
import TreeWatch.Proofs.Mirror.Plain
import TreeWatch.Proofs.Disk.Identity
import TreeWatch.Proofs.Mirror.Bind
import TreeWatch.Proofs.Mirror.Directory
import TreeWatch.Proofs.Mirror.Listing
import TreeWatch.Proofs.Mirror.Scan
import TreeWatch.Proofs.Mirror.History
import TreeWatch.Proofs.Mirror.Lost
import TreeWatch.Proofs.Mirror.Skipped
import TreeWatch.Proofs.Mirror.Reclaim
import TreeWatch.Proofs.Mirror.Isomorphism
import TreeWatch.Proofs.Mirror.Rescan
import TreeWatch.Proofs.Mirror.Batch
import TreeWatch.Proofs.Mirror.Convergence
import TreeWatch.Proofs.Mirror.Order
import TreeWatch.Proofs.Mirror.Listed
import TreeWatch.Proofs.Mirror.Survey
import TreeWatch.Proofs.Mirror.Rename
import TreeWatch.Proofs.Baseline.Tour
import TreeWatch.Proofs.Baseline.Picture
import TreeWatch.Proofs.Baseline.Scan
import TreeWatch.Proofs.Baseline.Portrait
import TreeWatch.Proofs.Agreement.Current
import TreeWatch.Proofs.Agreement.Together
import TreeWatch.Proofs.Agreement.Name
import TreeWatch.Proofs.Agreement.Listing
import TreeWatch.Proofs.Agreement.Scan
import TreeWatch.Proofs.Garbage.Stray
import TreeWatch.Proofs.Garbage.Circle
import TreeWatch.Proofs.Garbage.Sweep
import TreeWatch.Proofs.Garbage.Rescan
import TreeWatch.Proofs.Garbage.Waiting
import TreeWatch.Proofs.Garbage.Queue
import TreeWatch.Proofs.Garbage.Grace
import TreeWatch.Proofs.Tracker.Taken
import TreeWatch.Proofs.Journal.Replay
import TreeWatch.Proofs.Tree.Thinned
import TreeWatch.Proofs.EventRecord
import TreeWatch.Proofs.Text.Utf8
import TreeWatch.Proofs.Observation
import TreeWatch.Proofs.Store.Codec
import TreeWatch.Proofs.Store.Rows
import TreeWatch.Proofs.Store.Verify
import TreeWatch.Proofs.Store.Exact
import TreeWatch.Proofs.Store.History
import TreeWatch.Proofs.Store.Resume
import TreeWatch.Proofs.Garbage.Collector
import TreeWatch.Proofs.Tracker.Resolution
import TreeWatch.Proofs.Journal.Course
import TreeWatch.Proofs.Journal.Summary
import TreeWatch.Proofs.Mirror.Quiet
import TreeWatch.Proofs.Mirror.Unrefused
import TreeWatch.Proofs.Mirror.Tended
import TreeWatch.Proofs.Mirror.Representative
import TreeWatch.Proofs.Repeat.Idle
import TreeWatch.Proofs.Repeat.Settled
import TreeWatch.Proofs.Repeat.Scan

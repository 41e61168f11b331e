import TreeWatch.Proofs.Baseline.Portrait
import TreeWatch.Proofs.Store.Verify
import TreeWatch.Proofs.Tree.Touched
import TreeWatch.Store.Resume

/-!
# The store after a restart

When the program starts, the stored rows are checked, the mount is scanned for the first time, and the
records that were bound are noticed. A file then counts as looked at exactly if the stored rows said so
with the fingerprint that the file has now.

## Main results

- `Store.get?_absorbAll_touched` : every regular file with a name is noticed
- `Tracker.resume_scanned_iff` : which files count as looked at
-/

namespace TreeWatch

open StoreRow (noticed)

/-! ### Files with names are noticed -/

/-- The touched records are noticed as if the record of each file were the only one. -/
theorem Store.get?_absorbAll_touched {t : Tree} (hsound : t.Sound) (hnoticed : t.Noticed) (s : Store)
    {p i : InodeId} {name : Bytes} {r : InodeRecord} (hi : t.child? p name = some i)
    (hr : t.record? i = some r) (hregular : r.kind = .regular) :
    (s.absorbAll (t.takeTouched.1.filterMap t.record?)).2.get? r.storeKey =
      some (noticed (s.get? r.storeKey) r.fingerprint) := by
  refine get?_absorbAll ⟨r, ?_, hregular, rfl⟩ fun r' hr' _ hkey => ?_
  · exact List.mem_filterMap.2 ⟨i, hnoticed.mem_takeTouched hsound hi, hr⟩
  · -- no other record has the same inode number
    obtain ⟨j, -, hj⟩ := List.mem_filterMap.1 hr'
    obtain rfl : j = i := hsound.eq_of_ino_eq hj hr (congrArg StoreKey.ino hkey)
    rw [hr] at hj
    cases hj
    rfl

namespace Disk

variable {d : Disk} {s o : Serial} {n : Node}

/-- If no object is oversized, all that can be reached is shown. -/
theorem Reachable.mirrored (h : d.Reachable s) (hsmall : ∀ s, d.Named s → ¬d.Oversized s) :
    d.Mirrored s := by
  induction h with
  | refl => exact ⟨[], .root⟩
  | tail _ hlast ih =>
    obtain ⟨name, hname⟩ := hlast
    obtain ⟨way, hway⟩ := ih
    exact ⟨_, .name hway hname (hsmall _ (.inr ⟨_, name, hname⟩))⟩

/-- Nothing hinders a scan where all objects are ordinary. -/
theorem Tidy.scannable (h : d.Tidy d.Named) (hd : d.Regular) (hsingle : d.SingleNamed)
    (hapart : d.Apart []) : d.Scannable where
  regular := hd
  singleNamed := hsingle
  apart := hapart
  listable := h.listable
  root_small := h.not_oversized (.inl rfl)
  phantoms s n hs hn e he := by
    rw [(h s n hs hn).2.1] at he
    cases he

/-- Regular files are not the root. -/
theorem Regular.ne_rootSerial (hd : d.Regular) (hn : d.node? o = some n)
    (hregular : FileKind.ofMode n.mode = .regular) : o ≠ rootSerial := by
  rintro rfl
  obtain ⟨m, hm, hchildren⟩ := hd.root_directory
  rw [hn] at hm
  cases hm
  rw [(hd.directory_iff hn).1 hchildren] at hregular
  cases hregular

end Disk

/-- In a portrait every regular file has a name and a record that says what the file is like. -/
theorem Tree.Portrays.exists_child {t : Tree} {d : Disk} {recordOf : Serial → InodeId}
    (h : t.Portrays d recordOf) (hd : d.Regular) {o : Serial} {n : Node} (ho : d.Mirrored o)
    (hn : d.node? o = some n) (hregular : FileKind.ofMode n.mode = .regular) :
    ∃ p name i r, t.child? p name = some i ∧ t.record? i = some r ∧ r.kind = .regular ∧
      r.storeKey = .ofToken n.ino (Disk.tokenOf o) ∧ r.fingerprint = n.fingerprint := by
  obtain ⟨r, m, hr, hm, hino, hmode, htoken, hfingerprint, -⟩ := h.record o ho
  rw [hn] at hm
  cases hm
  obtain ⟨way, hway⟩ := ho
  cases hway with
  | root => exact absurd rfl (hd.ne_rootSerial hn hregular)
  | @name way s _ name hs hname hsize =>
    have hchild := h.child?_eq s ⟨way, hs⟩ name
    rw [hname] at hchild
    refine ⟨recordOf s, name, recordOf o, r, ?_, hr, ?_, ?_, hfingerprint⟩
    · simpa [Option.filter, hsize] using hchild
    · rw [InodeRecord.kind, hmode, hregular]
    · rw [InodeRecord.storeKey, hino, htoken]

namespace Tracker

variable {σ ε : Type} {fs : Filesystem σ Serial} {d : Disk} {w : Tracker σ}

/-! ### The first scan -/

theorem run_absorbTouched (s : Store) (w : Tracker σ) :
    (absorbTouched s : Track σ ε (Nat × Store)).run w =
      (.ok (s.absorbAll (w.tree.takeTouched.1.filterMap w.tree.record?)),
        { w with ledger := { w.ledger with tree := w.tree.takeTouched.2 } }) := rfl

/-- The first scan succeeds and gives a portrait in which all files with names are touched, whatever
was logged before. -/
theorem gives_baseline_noticed {grace : Nat} (strict : Bool) (hd : d.Scannable)
    (hcount : d.bindingCount < UInt32.size) (hplain : fs.Plain w.files d) (htree : w.tree = { grace })
    (hjournal : w.ledger.journal = []) :
    Gives (baseline fs strict) w (d.overview Disk.rootSerial d.tour) fun w' =>
      w'.tree.Sound ∧ w'.tree.Noticed ∧ ∃ recordOf, w'.tree.Portrays d recordOf := by
  have hempty : w.tree.Depicts d (fun _ => False) [] := htree ▸ Tree.depicts_empty d grace
  have hroom : w.tree.Room (d.tour.length + 1) d.tour.length := by
    have hle := Disk.length_tour_le hd.regular hd.singleNamed
    have hrecords : 0 + (d.tour.length + 1) ≤ UInt32.size := by omega
    have hentries : 0 + d.tour.length ≤ UInt32.size := by omega
    rw [htree]
    exact ⟨hrecords, hentries⟩
  obtain ⟨w', hrun, hdrawn⟩ :=
    gives_baseline (gives_rescanRoots (gives_scanRoot hd hplain hempty hjournal hroom))
  refine ⟨w', hrun, hdrawn.picture.sound, ?_, hdrawn.picture.portrays hd hdrawn.rooted⟩
  have hedits : Tree.Edits (fun _ _ => True) w.tree w'.tree := by
    have hedited := (editsOnly_baseline fs.vouches_trivial strict w trivial).tree
    rwa [hrun] at hedited
  refine hedits.noticed hempty.sound hdrawn.room.fits ?_
  rw [htree]
  exact Tree.noticed_empty grace

/-- Starting the program checks the rows, and then notices the records of a portrait of the disk. -/
theorem gives_resume {strict : Bool} {leases : Leases} {clock : Clock} {grace : Nat}
    (hd : d.Scannable) (hcount : d.bindingCount < UInt32.size) (s : Store) :
    ∃ (t : Tree) (checked : Store), (t.Sound ∧ t.Noticed ∧ ∃ recordOf, t.Portrays d recordOf) ∧
      (∀ key, checked.get? key = (s.get? key).map (·.checked (d.current key))) ∧
      ∃ w, (resume Disk.filesystem strict s).run ⟨d, leases, clock, { tree := { grace } }⟩ =
        (.ok (d.overview Disk.rootSerial d.tour,
          (checked.absorbAll (t.takeTouched.1.filterMap t.record?)).2), w) := by
  let start : Tracker Disk := ⟨d, leases, clock, { tree := { grace } }⟩
  obtain ⟨count, checked, ⟨w₁, hverify, log, rfl⟩, hchecked⟩ :=
    gives_verify (ε := WatchError) (w := start) (Disk.plain d).steady s
  let opened : Tracker Disk := { start with ledger := { start.ledger with log } }
  have hempty : opened.tree = { grace } := rfl
  obtain ⟨w₂, hbaseline, hscanned⟩ :=
    gives_baseline_noticed strict hd hcount (Disk.plain d) hempty rfl
  refine ⟨w₂.tree, checked, hscanned, hchecked,
    { w₂ with ledger := { w₂.ledger with tree := w₂.tree.takeTouched.2 } }, ?_⟩
  unfold resume
  rw [run_bind, hverify]
  simp only
  rw [run_bind, hbaseline]
  simp only
  rw [run_bind, run_absorbTouched]
  rfl

/-! ### What counts as looked at -/

/-- When the program has been started, every regular file has a row with a fingerprint that agrees with
its present one. It counts as looked at exactly if it did in the stored rows, with a fingerprint that
agrees with its present one. -/
theorem resume_scanned_iff {strict : Bool} {leases : Leases} {clock : Clock} {grace : Nat}
    (hd : d.Evolved) (hsingle : d.SingleNamed) (htidy : d.Tidy d.Named) (hapart : d.Apart [])
    (hcount : d.bindingCount < UInt32.size) (s : Store) :
    ∃ summary s' w, (resume Disk.filesystem strict s).run ⟨d, leases, clock, { tree := { grace } }⟩ =
        (.ok (summary, s'), w) ∧
      ∀ o n, d.Reachable o → d.node? o = some n → FileKind.ofMode n.mode = .regular →
        ∃ row, s'.get? (.ofToken n.ino (Disk.tokenOf o)) = some row ∧
          row.fingerprint.divergesFrom n.fingerprint = false ∧
          (row.state = .scanned ↔ ∃ old, s.get? (.ofToken n.ino (Disk.tokenOf o)) = some old ∧
            old.state = .scanned ∧ old.fingerprint.divergesFrom n.fingerprint = false) := by
  have hscannable := htidy.scannable hd.regular hsingle hapart
  obtain ⟨t, checked, ⟨hsound, hnoticed, recordOf, hportrays⟩, hchecked, w, hrun⟩ :=
    gives_resume hscannable hcount s
  refine ⟨_, _, w, hrun, fun o n ho hn hregular => ?_⟩
  obtain ⟨p, name, i, r, hi, hr, hkind, hkey, hfingerprint⟩ :=
    hportrays.exists_child hd.regular (ho.mirrored fun s => htidy.not_oversized) hn hregular
  have hrow := Store.get?_absorbAll_touched hsound hnoticed checked hi hr hkind
  rw [hkey, hfingerprint, hchecked, Disk.current_ofToken hd.regular hn ho.named] at hrow
  have hstate := StoreRow.state_noticed_checked (s.get? (.ofToken n.ino (Disk.tokenOf o)))
    ⟨n.ino, n.mode, n.fingerprint⟩
  exact ⟨_, hrow, StoreRow.divergesFrom_noticed, hstate⟩

/-- A disk with a directory `a` that contains a file, which is `g` as well, and with a file `h`. -/
def linkedFile : Disk :=
  (((Disk.empty.perform (.mkdir (.ofString "/a"))).perform (.create (.ofString "/a/f"))).perform
    (.link (.ofString "/a/f") (.ofString "/g"))).perform (.create (.ofString "/h"))

/-- The store in which both files count as looked at. -/
def lookedAt : Store :=
  [2, 3].foldl (fun s o =>
    match linkedFile.node? o with
    | some n => ⟨s.rows.insert (.ofToken n.ino (Disk.tokenOf o)) ⟨n.fingerprint, .scanned⟩⟩
    | none => s) .empty

/-- The disk after `g` has been written while nobody watched. -/
def writtenFile : Disk := linkedFile.perform (.write (.ofString "/g") 1)

/-- The written file does not count as looked at any more, the other one does. -/
theorem resume_writtenFile : ∃ summary s' w,
    (resume Disk.filesystem false lookedAt).run ⟨writtenFile, {}, fun _ => 0, { tree := {} }⟩ =
        (.ok (summary, s'), w) ∧
      (∃ row, s'.get? (.ofToken 102 (Disk.tokenOf 2)) = some row ∧ row.state ≠ .scanned) ∧
      ∃ row, s'.get? (.ofToken 103 (Disk.tokenOf 3)) = some row ∧ row.state = .scanned := by
  have hevolved : writtenFile.Evolved :=
    ((((Disk.Evolved.perform .refl _).perform _).perform _).perform _).perform _
  have hsingle : writtenFile.SingleNamed := Disk.singleNamed_of_links (by decide +kernel)
  have htidy : writtenFile.Tidy writtenFile.Named := Disk.tidy_of_ordinary (by decide +kernel)
  have hapart : writtenFile.Apart [] :=
    hevolved.regular.apart (by decide +kernel) fun s hs => by cases hs
  obtain ⟨summary, s', w, hrun, h⟩ :=
    resume_scanned_iff hevolved hsingle htidy hapart (by decide +kernel) lookedAt
  refine ⟨summary, s', w, hrun, ?_, ?_⟩
  · obtain ⟨n, hn⟩ : ∃ n, writtenFile.node? 2 = some n :=
      Option.isSome_iff_exists.1 (by decide +kernel)
    have hnode : ∀ n ∈ writtenFile.node? 2, n.ino = 102 ∧ n.fingerprint.size = 1 ∧
        FileKind.ofMode n.mode = .regular := by decide +kernel
    obtain ⟨hino, hsize, hkind⟩ := hnode n hn
    have hold : ∀ old ∈ lookedAt.get? (.ofToken 102 (Disk.tokenOf 2)), old.fingerprint.size = 0 := by
      decide +kernel
    obtain ⟨row, hrow, -, hstate⟩ :=
      h 2 n (.tail .refl ⟨.ofString "g", by decide +kernel⟩) hn hkind
    rw [hino] at hrow hstate
    refine ⟨row, hrow, fun hscanned => ?_⟩
    obtain ⟨old, hget, -, hagree⟩ := hstate.1 hscanned
    rw [Fingerprint.divergesFrom, hold old hget, hsize] at hagree
    cases hagree
  · obtain ⟨n, hn⟩ : ∃ n, writtenFile.node? 3 = some n :=
      Option.isSome_iff_exists.1 (by decide +kernel)
    have hnode : ∀ n ∈ writtenFile.node? 3, n.ino = 103 ∧ FileKind.ofMode n.mode = .regular := by
      decide +kernel
    obtain ⟨hino, hkind⟩ := hnode n hn
    have hold : lookedAt.get? (.ofToken 103 (Disk.tokenOf 3)) =
        (writtenFile.node? 3).map fun n => ⟨n.fingerprint, .scanned⟩ := by decide +kernel
    obtain ⟨row, hrow, -, hstate⟩ :=
      h 3 n (.tail .refl ⟨.ofString "h", by decide +kernel⟩) hn hkind
    rw [hino] at hrow hstate
    rw [hn] at hold
    exact ⟨row, hrow, hstate.2 ⟨_, hold, rfl, Fingerprint.divergesFrom_self _⟩⟩

end Tracker

end TreeWatch

import TreeWatch.Proofs.Mirror.Rescan
import TreeWatch.Proofs.Tracker.Recording

/-!
# Directories that scans list

In calm circumstances every directory that a scan lists is settled once the scan is over: not only the one
that was to be scanned, but also those that the scan went down to. A scan may be asked to list what is no
directory; then it does nothing.

## Main definitions

- `Tracker.InOrder` : a present object that is settled if it is a directory
- `Tracker.RecordsBelow` : a function that scans directories leaves those that it lists in order

## Main results

- `Tracker.records_scanRecord` : a directory that is listed is in order afterwards
- `Tracker.records_scan`, `Tracker.records_scanRoot` : so are all that a scan lists

## Design notes

A directory may be listed although it had a record already: a directory that has just been bound and has
no entries is scanned whether it is new or not. So what is known of the directories that are new to the
tree does not answer the question which ones are listed; the list is kept beside the scan instead.
-/

namespace TreeWatch.Tracker

open View

variable {σ : Type} {fs : Filesystem σ Serial} {d : Disk} {present : Serial → Prop}
  {strict recursive : Bool} {w w' : Tracker σ} {p : InodeId} {s : Serial} {depth : Nat}
  {scanBelow : ScanBelow σ Serial} {recordedBelow : ScanBelow (σ × List Serial) Serial}

/-- The object is present, and the tree shows it as it is if it is a directory. -/
def InOrder (d : Disk) (present : Serial → Prop) (s : Serial) (w : Tracker σ) : Prop :=
  present s ∧ (d.isDirectory s → w.tree.view.Settled d s)

theorem InOrder.after (hd : d.Distinguishes present) (h : InOrder d present s w)
    (hwork : Worked d present w w') : InOrder d present s w' :=
  ⟨h.1, fun hdir => Updates.settled hd hwork.updates h.1 (h.2 hdir)⟩

/-- Letting a record wait does not show. -/
theorem worked_orphanIfUnlinked {now : Instant} (hsound : w.tree.Sound) (hfiles : w'.files = w.files)
    (htree : w'.tree = (w.tree.orphanIfUnlinked p now).2) : Worked d present w w' where
  files := hfiles
  sound := htree ▸ hsound.orphanIfUnlinked p now
  updates := by
    rw [htree, Tree.view_orphanIfUnlinked]

/-- Down to a depth, the function leaves directories in order that it lists. -/
structure RecordsBelow (fs : Filesystem σ Serial) (strict : Bool) (d : Disk)
    (present : Serial → Prop) (depth : Nat) (recordedBelow : ScanBelow (σ × List Serial) Serial)
    (scanBelow : ScanBelow σ Serial) : Prop extends ScansBelow fs strict d present depth scanBelow where
  records : ∀ {c recursive} {w : Tracker σ}, present c → d.isDirectory c → Ready fs d w →
    w.tree.view.Calm strict d present → d.Shallow depth c →
      Records (recordedBelow c recursive) (scanBelow c recursive) w (InOrder d present)

section directory

variable (hd : d.Distinguishes present)
  (hbelow : RecordsBelow fs strict d present depth recordedBelow scanBelow) (hw : Ready fs d w)
  (hcalm : w.tree.view.Calm strict d present) (hp : w.tree.view.Holds d p s) (hs : present s)
  (hdir : d.isDirectory s) (hshallow : ∀ c, d.Subdirectory s c → d.Shallow depth c)
include hd hbelow hw hcalm hp hs hdir hshallow

/-! ### Names -/

theorem records_reopen (name : Bytes) :
    Records (reopen fs.recording recordedBelow s p recursive name)
      (reopen fs scanBelow s p recursive name) w (InOrder d present) := by
  obtain ⟨leases, hopen⟩ := hw.plain.run_openChild hdir name
  unfold reopen
  refine .step (.wrapping (.askOpen _ _)) (by rw [run_wrapping, hopen]) ?_
  cases hchild : d.child? s name with
  | none => exact .step (.note _) (run_note _ _) .pure
  | some o =>
    have hbinds := does_bindObject hd (hw.leases leases) hp hs hdir (hcalm.1.not_oversized hs) hchild
      recursive
    refine .bind_aside (R := fun r w₁ => Bound d present p s name o recursive w r.2 w₁)
      (.releasing (aside_bindObject fs p name recursive o))
      (hbinds.releasing fun _ _ _ h => h.leases) ?_ ?_
    · rintro ⟨summary, next⟩
      cases next with
      | none => exact .pure _
      | some handle => exact .bind (hbelow.tame _ _) fun _ => .pure _
    rintro ⟨summary, next⟩ w₁ hbound
    cases next with
    | none => exact .pure
    | some handle =>
      obtain ⟨rfl, hodir⟩ := hbound.next_eq handle rfl
      have hcalm₁ := Updates.calm hd hbound.updates hcalm
      have hscanned : Records (recordedBelow handle recursive) (scanBelow handle recursive) w₁
          (InOrder d present) :=
        hbelow.records (hd.of_child? hchild) hodir (hw.after hbound.toWorked) hcalm₁
          (hshallow _ ⟨⟨_, hchild⟩, hodir⟩)
      exact hscanned.bind_pure _

omit hp hs in
theorem records_descend (name : Bytes) :
    Records (descend fs.recording recordedBelow s name) (descend fs scanBelow s name) w
      (InOrder d present) := by
  obtain ⟨leases, hopen⟩ := hw.plain.run_openChild hdir name
  unfold descend
  refine .step (.wrapping (.askOpen _ _)) (by rw [run_wrapping, hopen]) ?_
  have hw₀ : Ready fs d { w with leases } := hw.leases leases
  cases hchild : d.child? s name with
  | none => exact .pure
  | some o =>
    have haside : Aside (releasing (attempt (openDirectory fs.recording o)))
        (releasing (attempt (openDirectory fs o)) : Track σ ScanError _) :=
      .releasing (.attempt (.askOpen _ _))
    by_cases hodir : d.isDirectory o
    · have hrun := hw₀.plain.run_openDirectory hodir
      refine .step haside (by rw [run_releasing, run_attempt, hrun]) ?_
      exact hbelow.records (hd.of_child? hchild) hodir (hw.leases _) hcalm
        (hshallow _ ⟨⟨_, hchild⟩, hodir⟩)
    · have hrun := hw₀.plain.run_openDirectory_of_not hodir
      exact .step haside (by rw [run_releasing, run_attempt, hrun]) .pure

theorem records_reconcile (listed : ListedEntry) :
    Records (reconcile fs.recording strict recordedBelow s p recursive listed)
      (reconcile fs strict scanBelow s p recursive listed) w (InOrder d present) := by
  unfold reconcile
  refine .step (.look fun _ _ => rfl) (run_look _ w) ?_
  cases ((w.tree.child? p listed.name).bind w.tree.record?).filter (·.ino = listed.ino) with
  | none => exact records_reopen hd hbelow hw hcalm hp hs hdir hshallow listed.name
  | some r =>
    simp only
    split
    · exact records_reopen hd hbelow hw hcalm hp hs hdir hshallow listed.name
    · split
      · exact (records_descend hd hbelow hw hcalm hdir hshallow listed.name).bind_pure _
      · exact .pure

theorem records_reconcileAll (listing : List ListedEntry) :
    Records (reconcileAll fs.recording strict recordedBelow s p recursive listing)
      (reconcileAll fs strict scanBelow s p recursive listing) w (InOrder d present) := by
  have hsmall := hcalm.1.not_oversized hs
  have hgood : True → d.Listable present ∧ ∀ c, d.Subdirectory s c → d.Shallow depth c :=
    fun _ => ⟨hcalm.1.listable, hshallow⟩
  induction listing generalizing w with
  | nil => exact .pure
  | cons listed rest ih =>
    have htame := editsOnly_reconcileAll fs.vouches_trivial strict hbelow.tame s p recursive rest
      fun _ _ => trivial
    refine (records_reconcile hd hbelow hw hcalm hp hs hdir hshallow listed).bind
      (does_reconcile hd hbelow.toScansBelow hw hp hs hdir hsmall hgood listed)
      (fun _ => .bind htame fun _ => .pure _) ?_ ?_ <;> intro _ w₁ hfirst
    all_goals
      have hw₁ := hw.after hfirst.toWorked
      have hp₁ := hfirst.updates.holds hd.regular hs hp
    · exact (ih hw₁ (Updates.calm hd hfirst.updates hcalm) hp₁).bind_pure _
    · refine .bind (does_reconcileAll hd hbelow.toScansBelow hw₁ hp₁ hs hdir hsmall hgood rest)
        (fun _ => .pure _) ?_
      exact fun _ _ hrest => .pure fun x hx => hx.after hd hrest.toWorked

/-! ### Directories -/

theorem records_applyListing {listing : List ListedEntry} (hlist : d.list s = .ok listing) :
    Records (applyListing fs.recording strict recordedBelow s p recursive listing)
      (applyListing fs strict scanBelow s p recursive listing) w (InOrder d present) := by
  have hsmall := hcalm.1.not_oversized hs
  unfold applyListing
  refine (records_reconcileAll hd hbelow hw hcalm hp hs hdir hshallow _).before
    (does_reconcileAll hd hbelow.toScansBelow hw hp hs hdir hsmall
      (fun _ => ⟨hcalm.1.listable, hshallow⟩) _) (fun _ => ?_) (fun _ => ?_) ?_
  · exact .bind (.look _) fun _ => .bind (editsOnly_unbindAll _) fun _ => editsOnly_closeListing _ _
  · refine .bind (.look fun _ _ => rfl) fun _ => .bind (aside_unbindAll _) fun _ => ?_
    refine .bind (.edit _) fun _ => .bind (.look fun _ _ => rfl) fun _ => ?_
    exact .bind (.note _) fun _ => .pure _
  -- unbinding what is gone undoes nothing, and letting the record wait does not show
  intro _ w₁ hnames
  have hp₁ := hnames.updates.holds hd.regular hs hp
  refine .step (run_look _ _) ?_
  refine .bind (does_unbindGone hd (hw.after hnames.toWorked) hp₁ hs hsmall hlist rfl)
    (fun _ => editsOnly_closeListing _ _) ?_
  rintro _ w₂ ⟨hwork, -⟩
  refine .step (run_edit _ _) (.step (run_look _ _) (.step (run_note _ _) (.pure fun x hx => ?_)))
  exact hx.after hd (hwork.trans (worked_orphanIfUnlinked hwork.sound rfl rfl))

theorem records_scanRecord :
    Records (scanRecord fs.recording strict recordedBelow s p recursive)
      (scanRecord fs strict scanBelow s p recursive) w (InOrder d present) := by
  obtain ⟨listing, hlist⟩ := Disk.exists_list hdir hcalm.1.listable hs
  have hsmall := hcalm.1.not_oversized hs
  have hrun : (scanRecord fs strict scanBelow s p recursive).run w =
      (applyListing fs strict scanBelow s p recursive listing).run w := by
    unfold scanRecord
    rw [run_bind, run_attempt, hw.plain.run_list, hlist]
  have hrecorded : ∀ listed, (scanRecord fs.recording strict recordedBelow s p recursive).run
      (w.recorded listed) = (applyListing fs.recording strict recordedBelow s p recursive listing).run
        (w.recorded (s :: listed)) := by
    intro listed
    unfold scanRecord
    rw [run_bind, run_attempt, run_list_recorded, hw.plain.run_list, hlist]
  have hdid : Does (scanRecord fs strict scanBelow s p recursive) w True fun _ w' =>
      DidRecord strict d present recursive p s w w' :=
    does_scanRecord hd hbelow.toScansBelow hw hs hdir hp hsmall fun _ => ⟨hcalm.1.listable, hshallow⟩
  intro fits listed
  obtain ⟨_, w', hdone, hrecord⟩ := hdid.run_eq fits
  rw [hrun] at fits hdone ⊢
  obtain ⟨_, _, listed', hdone', hlisting, hin⟩ :=
    records_applyListing hd hbelow hw hcalm hp hs hdir hshallow hlist fits (s :: listed)
  cases hdone.symm.trans hdone'
  refine ⟨_, w', listed', hdone, (hrecorded listed).trans hlisting, fun x hx => ?_⟩
  rcases hin x hx with hmem | hx
  · rcases List.mem_cons.1 hmem with rfl | hold
    · -- all of its names have been dealt with
      refine .inr ⟨hs, fun _ => ⟨p, hrecord.updates.holds hd.regular hs hp, fun name => ?_⟩⟩
      exact (hrecord.names name (hcalm.1.not_skips hd hs)).agrees hd hcalm.2
    · exact .inl hold
  · exact .inr hx

end directory

/-! ### Other objects -/

/-- The attempt to list an object fails if it is no directory. -/
theorem run_scanRecord_of_not (hw : Ready fs d w) (hcalm : w.tree.view.Calm strict d present)
    (hs : present s) (hnode : ∃ n, d.node? s = some n) (hdir : ¬d.isDirectory s) :
    ∃ w', w'.files = w.files ∧ w'.tree = (w.tree.orphanIfUnlinked p (w.clock w.ledger.reads)).2 ∧
      (scanRecord fs strict scanBelow s p recursive).run w = (.ok .oneSkipped, w') ∧
      ∀ (recordedBelow : ScanBelow (σ × List Serial) Serial) (listed : List Serial),
        (scanRecord fs.recording strict recordedBelow s p recursive).run (w.recorded listed) =
          (.ok .oneSkipped, w'.recorded (s :: listed)) := by
  have hlist : d.list s = .error ⟨.list, .notDirectory⟩ := by
    obtain ⟨n, hn⟩ := hnode
    have hchildren : n.children = none := by
      simpa [Disk.isDirectory_iff_of_node? hn] using hdir
    simp [Disk.list, hn, hcalm.1.listable s n hs hn, hchildren]
  let event : LogEvent := .vanishedBeforeListing (w.tree.resolvePath p)
  refine ⟨{ w with ledger := (w.ledger.note event).orphanIfUnlinked p w.clock }, rfl, rfl, ?_,
    fun recordedBelow listed => ?_⟩
  · unfold scanRecord
    rw [run_bind, run_attempt, hw.plain.run_list, hlist]
    rfl
  · unfold scanRecord
    rw [run_bind, run_attempt, run_list_recorded, hw.plain.run_list, hlist]
    rfl

theorem records_scanDirectory (hd : d.Distinguishes present)
    (hbelow : RecordsBelow fs strict d present depth recordedBelow scanBelow)
    (hw : Ready fs d w) (hcalm : w.tree.view.Calm strict d present) (hs : present s)
    (hshallow : d.isDirectory s → d.Shallow (depth + 1) s) :
    Records (scanDirectory fs.recording strict recordedBelow s recursive)
      (scanDirectory fs strict scanBelow s recursive) w (InOrder d present) := by
  unfold scanDirectory
  refine .releasing (P := InOrder d present) ?_ fun _ _ _ h => h
  refine .bind_aside (.attempt (aside_resolve fs s))
    (does_resolve hd hw hs (hcalm.1.not_oversized hs)).attempt
    (editsOnly_afterResolve fs.vouches_trivial strict hbelow.tame s recursive) ?_
  rintro _ w₁ ⟨i, rfl, hwork, hfound⟩
  have hw₁ := hw.after hwork
  have hcalm₁ := Updates.calm hd hwork.updates hcalm
  by_cases hdir : d.isDirectory s
  · exact records_scanRecord hd hbelow hw₁ hcalm₁ hfound.current.holds hs hdir (hshallow hdir)
  · obtain ⟨w₂, -, -, hrun, hrecorded⟩ :=
      run_scanRecord_of_not (p := i) hw₁ hcalm₁ hs (hd.exists_node hs) hdir
    intro _ listed
    refine ⟨_, w₂, s :: listed, hrun, hrecorded _ listed, fun x hx => ?_⟩
    rcases List.mem_cons.1 hx with rfl | hold
    · exact .inr ⟨hs, fun h => absurd h hdir⟩
    · exact .inl hold

/-- The scans of the program are as they should be. -/
theorem recordsBelow_scanWithin (hd : d.Distinguishes present) (depth : Nat) :
    RecordsBelow fs strict d present depth (scanWithin fs.recording strict depth)
      (scanWithin fs strict depth) := by
  induction depth with
  | zero => exact ⟨scansBelow_scanWithin hd 0, fun _ _ _ _ hshallow => hshallow.elim⟩
  | succ depth ih =>
    refine ⟨scansBelow_scanWithin hd (depth + 1), fun hs _ hw hcalm hshallow => ?_⟩
    exact records_scanDirectory hd ih hw hcalm hs fun _ => hshallow

section scan

variable (hd : d.Distinguishes present) (hw : Ready fs d w)
  (hcalm : w.tree.view.Calm strict d present) (hs : present s)
include hd hw hcalm hs

/-- Whatever the object is, scanning it does no harm. -/
theorem does_scan_of_present (hshallow : d.isDirectory s → d.Shallow (d.nodes.length + 1) s)
    (recursive : Bool) :
    Does (scan fs strict s recursive) w True fun _ w' => Worked d present w w' := by
  by_cases hdir : d.isDirectory s
  · exact (does_scan hd hw hs hdir recursive fun _ => ⟨hcalm.1.listable, hshallow hdir⟩).mono
      fun _ _ h => h.toWorked
  unfold scan
  refine .step (run_look _ w) ?_
  rw [scanWithin, scanDirectory]
  refine .releasing (P := fun _ w' => Worked d present w w') ?_
    fun _ _ _ h => ⟨h.files, h.sound, h.updates⟩
  refine .attempt_bind (does_resolve hd hw hs (hcalm.1.not_oversized hs))
    (editsOnly_afterResolve fs.vouches_trivial strict (scansBelow_scanWithin hd _).tame s recursive) ?_
    fun _ _ hfalse => absurd trivial hfalse
  rintro i w₁ ⟨hwork, -⟩
  obtain ⟨w₂, hfiles, htree, hrun, -⟩ := run_scanRecord_of_not (p := i) (hw.after hwork)
    (Updates.calm hd hwork.updates hcalm) hs (hd.exists_node hs) hdir
  unfold Does
  rw [hrun]
  exact fun _ => hwork.trans (worked_orphanIfUnlinked hwork.sound hfiles htree)

theorem records_scan (hshallow : d.isDirectory s → d.Shallow (d.nodes.length + 1) s) (recursive : Bool) :
    Records (scan fs.recording strict s recursive) (scan fs strict s recursive) w
      (InOrder d present) := by
  unfold scan
  refine .step (.look fun _ _ => rfl) (run_look _ w) ?_
  exact records_scanDirectory hd (recordsBelow_scanWithin hd _) hw hcalm hs fun hdir =>
    (hshallow hdir).mono (Nat.succ_le_succ hw.plain.nesting)

end scan

theorem records_scanRoot (hd : d.Distinguishes present) (hw : Ready fs d w)
    (hcalm : w.tree.view.Calm strict d present)
    (hshallow : d.Shallow (d.nodes.length + 1) Disk.rootSerial) :
    Records (scanRoot fs.recording strict) (scanRoot fs strict) w (InOrder d present) := by
  have hroot : present Disk.rootSerial := hd.of_named (.inl rfl)
  have hw₀ := hw.leases w.leases.take
  unfold scanRoot
  refine .step (.wrapping (.askOpen _ _)) (by rw [run_wrapping, hw.plain.run_openRoot]) ?_
  refine .bind_aside (.attempt (aside_resolve fs _))
    (does_resolve hd hw₀ hroot (hcalm.1.not_oversized hroot)).attempt (fun r => ?_) ?_
  · split
    · exact .bind (.edit fun _ _ => .single (.root trivial)) fun _ =>
        editsOnly_scan fs.vouches_trivial strict _ _
    · exact .releasing (.throw _)
  rintro _ w₁ ⟨i, rfl, hwork, hfound⟩
  have hw₁ := hw₀.after hwork
  refine .step (.edit _) (run_edit _ _) ?_
  have hbecomes : Worked d present w₁
      { w₁ with ledger := { w₁.ledger with tree := w₁.tree.setRoot i } } :=
    ⟨rfl, hw₁.sound.setRoot i, .single (.root hfound.current.holds)⟩
  exact records_scan hd (hw₁.after hbecomes)
    (Updates.calm hd hbecomes.updates (Updates.calm hd hwork.updates hcalm)) hroot
    (fun _ => hshallow) true

end TreeWatch.Tracker

import TreeWatch.Proofs.Mirror.Isomorphism
import TreeWatch.Proofs.Mirror.Lost
import TreeWatch.Proofs.Mirror.Reclaim

/-!
# Scanning all over again

After notifications have been lost the whole mount is scanned again. Whatever the tree was like before,
it mirrors the disk afterwards.

## Main results

- `Tracker.does_rescanRoots` : what scanning from the root and reclaiming achieve
- `Tracker.Watched.rescanRoots_mirrors` : a rescan succeeds and makes a mirror of the disk
-/

namespace TreeWatch

namespace Disk

variable {d : Disk} {handles : List Serial}

/-- Numbers that tell apart more objects tell apart those with names. -/
theorem Apart.distinguishes_named (h : d.Apart handles) (hd : d.Regular) :
    d.Distinguishes d.Named where
  regular := hd
  exists_node := hd.exists_node_of_named
  of_named := id
  eq_of_ino_eq hs hs' := h.eq_of_ino_eq _ _ (.inl hs) (.inl hs')

end Disk

namespace Tracker

variable {σ : Type} {fs : Filesystem σ Serial} {d : Disk} {present : Serial → Prop} {strict : Bool}
  {w w' : Tracker σ} {good : Prop}

/-- The whole mount has been scanned, and then records have been reclaimed. -/
structure DidRescan (strict : Bool) (d : Disk) (present : Serial → Prop) (w w' : Tracker σ) : Prop where
  files : w'.files = w.files
  rooted : w'.tree.view.Rooted d
  truthful : w'.tree.view.Truthful d
  sound : w'.tree.Sound
  settled : ∀ s, d.Below Disk.rootSerial s → w'.tree.view.Held d s → w'.tree.view.Settled d s
  /-- Directories that are new to the tree are settled wherever they are. -/
  explored : ∀ s, present s → d.isDirectory s → w'.tree.view.Held d s →
    w.tree.view.Held d s ∨ w'.tree.view.Settled d s
  current : strict = true → ∀ i s, d.Reachable s → w'.tree.view.Holds d i s →
    w'.tree.view.Current d i s

/-- A rescan scans from the root and reclaims. It succeeds if directories can be listed. -/
theorem does_rescanRoots_pruned (hd : d.Distinguishes present) (hw : Ready fs d w)
    (hgood : good → d.Listable present ∧ ¬d.Oversized Disk.rootSerial ∧
      d.Shallow (d.nodes.length + 1) Disk.rootSerial) :
    Does (rescanRoots fs strict) w good fun _ w' =>
      ∃ w₁, DidScan strict d present true Disk.rootSerial w w₁ ∧ w₁.tree.view.Rooted d ∧
        w'.files = w.files ∧ Tree.Pruned w₁.tree w'.tree := by
  unfold rescanRoots
  refine .bind (does_scanRoot hd hw hgood) (fun _ => .bind editsOnly_reclaimNow fun _ => .pure _) ?_
  rintro summary w₁ ⟨hscan, hrooted⟩
  refine .bind (does_reclaimNow hscan.sound) (fun _ => .pure _) ?_
  rintro count w₂ ⟨hfiles, hpruned⟩
  exact .pure ⟨w₁, hscan, hrooted, hfiles.trans hscan.files, hpruned⟩

/-- In calm circumstances a rescan settles everything below the root. -/
theorem does_rescanRoots (hd : d.Distinguishes present) (hw : Ready fs d w)
    (hcalm : w.tree.view.Calm strict d present)
    (hshallow : good → d.Shallow (d.nodes.length + 1) Disk.rootSerial) :
    Does (rescanRoots fs strict) w good fun _ w' => DidRescan strict d present w w' := by
  have hroot : present Disk.rootSerial := hd.of_named (.inl rfl)
  refine (does_rescanRoots_pruned hd hw fun h => ?_).mono ?_
  · exact ⟨hcalm.1.listable, hcalm.1.not_oversized hroot, hshallow h⟩
  rintro summary w₂ ⟨w₁, hscan, hrooted, hfiles, hpruned⟩
  have hw₁ := hw.after hscan.toWorked
  have hscanned : ∀ s, d.Below Disk.rootSerial s →
      View.Scanned strict d w.tree.view w₁.tree.view s := hscan.below rfl hcalm
  refine ⟨hfiles, hpruned.rooted hrooted, hpruned.truthful hw₁.truthful,
    hpruned.sound, fun s hs hheld => ?_, fun s hs hdir hheld => ?_, fun hstrict i s hs hi => ?_⟩
  · have hpresent : present s := hd.of_below hroot hs
    exact hpruned.settled hscan.sound hheld ((hscanned s hs).settled hd hpresent hcalm)
  · obtain ⟨i, hi⟩ := hheld
    rcases hscan.explored s hs hdir ⟨i, hpruned.holds_back hi⟩ with hold | hnew
    · exact .inl hold
    · exact .inr (hpruned.settled hscan.sound ⟨i, hi⟩ (hnew.settled hd hs hcalm))
  · refine hpruned.current hscan.sound hi ?_
    rcases Relation.ReflTransGen.cases_tail hs with rfl | ⟨b, hb, name, hname⟩
    · -- the record of a scanned directory is up to date
      obtain ⟨p, hp, -⟩ := hscanned _ .refl
      exact ⟨p, hp⟩
    · -- so are the records of all that has a name in one
      have hbelow : d.Below Disk.rootSerial b :=
        Disk.Reachable.below hb (Disk.isDirectory_of_child? hname)
      obtain ⟨p, -, -, hchildren⟩ := hscanned b hbelow
      exact hchildren hstrict name s hname (hcalm.1.not_oversized (hd.of_child? hname))

/-- The first scan is a rescan, and then the tree is checked. -/
theorem does_baseline_of {Q : ScanSummary → Tracker σ → Prop}
    (hrescan : Does (rescanRoots fs strict) w good Q)
    (hlog : ∀ summary w' log, Q summary w' →
      Q summary { w' with ledger := { w'.ledger with log } }) :
    Does (baseline fs strict) w good Q := by
  unfold baseline
  refine .bind hrescan.wrapping (fun summary => ?_) ?_
  · refine .bind (.look _) fun _ => .bind (.note _) fun _ => .bind (.look _) fun verdict => ?_
    cases verdict with
    | ok _ => exact .pure _
    | error e => exact .bind (.note _) fun _ => .pure _
  intro summary w₁ h
  refine .step (run_look _ _) (.step (run_note _ _) (.step (run_look _ _) ?_))
  split
  · exact .pure (hlog summary w₁ _ h)
  · exact .step (run_note _ _) (.pure (hlog summary w₁ _ h))

theorem does_baseline (hd : d.Distinguishes present) (hw : Ready fs d w)
    (hcalm : w.tree.view.Calm strict d present)
    (hshallow : good → d.Shallow (d.nodes.length + 1) Disk.rootSerial) :
    Does (baseline fs strict) w good fun _ w' => DidRescan strict d present w w' :=
  does_baseline_of (does_rescanRoots hd hw hcalm hshallow) fun _ _ _ h =>
    ⟨h.files, h.rooted, h.truthful, h.sound, h.settled, h.explored, h.current⟩

/-- Whatever became of a tree while a disk was watched, scanning all over again succeeds and makes it a
mirror of the disk, provided that the disk is in plain order: no object has a token that is too large,
nothing is listed that is not there, all directories can be listed and none has two names. Scans that
are not strict must not be led astray by a number either. After a strict scan every record has the
fingerprint of its object besides. -/
theorem Watched.rescanRoots_mirrors {w : Tracker ScriptedDisk} (h : Watched w)
    (hclean : w.files.Clean) (hapart : w.files.disk.Apart [])
    (htidy : w.files.disk.Tidy w.files.disk.Named) (hsingle : w.files.disk.SingleNamed)
    (hgood : strict = true ∨ w.tree.view.Fresh w.files.disk w.files.disk.Named)
    (fits : ((rescanRoots ScriptedDisk.filesystem strict).run w).2.tree.Fits) :
    ∃ summary w', (rescanRoots ScriptedDisk.filesystem strict).run w = (.ok summary, w') ∧
      w'.files = w.files ∧ ∃ recordOf, w'.tree.Mirrors w.files.disk recordOf ∧
        (strict = true → ∀ s, w.files.disk.Reachable s →
          w'.tree.view.Current w.files.disk (recordOf s) s) := by
  have hregular := h.regular
  have hd := hapart.distinguishes_named hregular
  have hgrows : w.tree.Grows ((rescanRoots ScriptedDisk.filesystem strict).run w).2.tree :=
    Call.rescanRoots.grows strict w
  have hw := h.ready hclean (hgrows.fits fits)
  obtain ⟨n, hn, hdir⟩ := hregular.root_directory
  have hshallow : w.files.disk.Shallow (w.files.disk.nodes.length + 1) Disk.rootSerial :=
    Disk.shallow_of_acyclic ((Disk.isDirectory_iff_of_node? hn).2 hdir) fun c hc =>
      hsingle.acyclic hregular hc
  have hdoes : Does (rescanRoots ScriptedDisk.filesystem strict) w True fun _ w' =>
      DidRescan strict w.files.disk w.files.disk.Named w w' :=
    does_rescanRoots hd hw ⟨htidy, hgood⟩ fun _ => hshallow
  have hrun := hdoes fits
  generalize (rescanRoots ScriptedDisk.filesystem strict).run w = outcome at hrun
  obtain ⟨result, w'⟩ := outcome
  cases result with
  | error e => exact absurd trivial hrun
  | ok summary =>
    obtain ⟨recordOf, hmirrors⟩ := hrun.sound.exists_mirrors hregular hrun.rooted hrun.settled
    refine ⟨summary, w', rfl, hrun.files, recordOf, hmirrors, fun hstrict s hs => ?_⟩
    exact hrun.current hstrict _ s hs (hmirrors.holds hs)

/-- A strict rescan finds the name that was lost, and the file behind it. -/
theorem rescanRoots_mirrors_staleFile :
    ∃ summary w', (rescanRoots ScriptedDisk.filesystem true).run staleFile = (.ok summary, w') ∧
      ∃ recordOf, w'.tree.Mirrors staleFile.files.disk recordOf := by
  have hregular := watched_staleFile.regular
  have hapart : staleFile.files.disk.Apart [] :=
    hregular.apart (by decide +kernel) fun s hs => by cases hs
  have htidy : staleFile.files.disk.Tidy staleFile.files.disk.Named :=
    Disk.tidy_of_ordinary (by decide +kernel)
  have hsingle : staleFile.files.disk.SingleNamed := Disk.singleNamed_of_links (by decide +kernel)
  have fits : ((rescanRoots ScriptedDisk.filesystem true).run staleFile).2.tree.Fits := by
    decide +kernel
  obtain ⟨summary, w', hrun, -, recordOf, hmirrors, -⟩ :=
    watched_staleFile.rescanRoots_mirrors clean_staleFile hapart htidy hsingle (.inl rfl) fits
  exact ⟨summary, w', hrun, recordOf, hmirrors⟩

end Tracker

end TreeWatch

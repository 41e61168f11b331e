import TreeWatch.Proofs.Mirror.Lost

/-!
# Names that a scan leaves wrong

After a scan every name that is still bound leads where it leads on the disk, as far as inode numbers
tell, unless the scan passed over the object with that name, or over the directory as a whole, because
of a token that is too large. What was bound there before stays bound, whether it is right or not.

## Main definitions

- `View.Faithful` : all names of a record lead where they lead on the disk, as far as inode numbers tell
- `Tracker.outgrown` : a state in which scans pass over a directory and over a file

## Main results

- `Tracker.Watched.leads_or_skipped` : names are right, or they were passed over
- `Tracker.wrong_outgrown` : names that are passed over can be wrong
-/

namespace TreeWatch

namespace View

/-- Every name of the record is one of the object too, and leads to a record with the inode number that
it leads to on the disk. -/
def Faithful (v : View) (d : Disk) (p : InodeId) (s : Serial) : Prop :=
  ∀ name j, v.child p name = some j →
    ∃ c, d.child? s name = some c ∧ v.Leads p name (d.inoAt c)

variable {d : Disk} {v v' : View} {p j : InodeId} {s : Serial} {name : Bytes} {strict : Bool}

theorem leads_iff {ino : UInt64} : v.Leads p name ino ↔
    ((v.child p name).bind v.identity).map (·.1.ino) = some ino := by
  simp only [Leads, Option.map_eq_some_iff, Option.bind_eq_some_iff]
  constructor
  · rintro ⟨j, x, hj, hx, hino⟩
    exact ⟨x, ⟨j, hj, hx⟩, hino⟩
  · rintro ⟨x, ⟨j, hj, hx⟩, hino⟩
    exact ⟨j, x, hj, hx, hino⟩

theorem holds_of_map (ino : UInt64) (mode : UInt32)
    (hi : (v.identity j).map (fun x => (x.1.ino, x.1.mode, x.2)) = some (ino, mode, Disk.tokenOf s))
    (hs : (d.node? s).map (fun n => (n.ino, n.mode)) = some (ino, mode)) : v.Holds d j s := by
  obtain ⟨⟨a, token⟩, ha, heq⟩ := Option.map_eq_some_iff.1 hi
  obtain ⟨n, hn, hsame⟩ := Option.map_eq_some_iff.1 hs
  simp only [Prod.mk.injEq] at heq hsame
  obtain ⟨hino, hmode, rfl⟩ := heq
  exact ⟨a, n, ha, hn, hino.trans hsame.1.symm, hmode.trans hsame.2.symm⟩

/-- What a scan has dealt with and what is still bound is on the disk, and leads there. -/
theorem Done.leads_of_child (h : Done strict d v v' p s name) (hj : v'.child p name = some j) :
    ∃ c, d.child? s name = some c ∧ v'.Leads p name (d.inoAt c) := by
  cases hc : d.child? s name with
  | some c =>
    have hnot : ¬v'.Lost d p s name := by
      rintro ⟨hnone, -⟩
      rw [hj] at hnone
      cases hnone
    exact ⟨c, rfl, (h.leads_iff hc).2 fun hlost => hnot hlost.2.2⟩
  | none =>
    -- neither stale names nor lost ones are without an object
    rcases h with hagrees | ⟨-, ⟨-, -, -, c, -, -, hc', -⟩, -⟩
    · rw [agrees_of_none hc, hj] at hagrees
      cases hagrees
    · rw [hc] at hc'
      cases hc'

end View

namespace Disk

variable {d : Disk} {s : Serial} {name : Bytes}

/-- Where nothing is listed that is not there, only large tokens are passed over. -/
theorem exists_oversized_of_skips (hphantoms : ∀ n, d.node? s = some n → n.phantoms = [])
    (h : d.Skips s name) : ∃ c, d.child? s name = some c ∧ d.Oversized c := by
  unfold Skips at h
  split at h
  · next c hc => exact ⟨c, hc, h⟩
  · obtain ⟨n, hn, e, he, -⟩ := h
    rw [hphantoms n hn] at he
    cases he

end Disk

namespace Tracker

variable {w w' : Tracker ScriptedDisk} {s : Serial} {strict recursive : Bool}
  {summary : ScanSummary}

/-- After a scan that gives a result, a directory that was not passed over has a record. A name that is
still bound under the record of the directory is there on the disk, and leads to a record with the
inode number of the object that has the name now; unless it was bound to the same record before, and
the directory or the object that has the name now has a token that is too large. -/
theorem Watched.leads_or_skipped (h : Watched w) (hclean : w.files.Clean)
    (hapart : w.files.disk.Apart [s]) (hdir : w.files.disk.isDirectory s)
    (hphantoms : ∀ n, w.files.disk.node? s = some n → n.phantoms = [])
    (hrun : (scan ScriptedDisk.filesystem strict s recursive).run w = (.ok summary, w'))
    (fits : w'.tree.Fits) :
    (¬w.files.disk.Oversized s → ∃ p, w'.tree.lookupIno (w.files.disk.inoAt s) = some p ∧
      w'.tree.view.Holds w.files.disk p s) ∧
    ∀ p name j, w'.tree.view.Holds w.files.disk p s → w'.tree.child? p name = some j →
      (∃ c, w.files.disk.child? s name = some c ∧
        w'.tree.view.Leads p name (w.files.disk.inoAt c)) ∨
      (w.tree.child? p name = some j ∧ (w.files.disk.Oversized s ∨
        ∃ c, w.files.disk.child? s name = some c ∧ w.files.disk.Oversized c)) := by
  have hafter : (Call.scan s recursive).after ScriptedDisk.filesystem strict w = w' :=
    congrArg Prod.snd hrun
  have hgrows : w.tree.Grows w'.tree := hafter ▸ (Call.scan s recursive).grows strict w
  have hw := h.ready hclean (hgrows.fits fits)
  have hd := hapart.distinguishes h.regular
  have hdoes : Does (scan ScriptedDisk.filesystem strict s recursive) w False fun _ w' =>
      DidScan strict w.files.disk _ recursive s w w' :=
    does_scan hd hw (.inr (List.mem_singleton_self s)) hdir recursive False.elim
  unfold Does at hdoes
  rw [hrun] at hdoes
  have hscan := hdoes fits
  refine ⟨fun hsize => ?_, fun p name j hp hj => ?_⟩
  · obtain ⟨p, hp, -⟩ := hscan.scanned hsize
    obtain ⟨a, n, ha, hn, hino, -⟩ := id hp.holds
    refine ⟨p, hscan.sound.lookupIno_eq_some_iff.2 ⟨_, ha, ?_⟩, hp.holds⟩
    rw [Disk.inoAt_eq hn]
    exact hino
  · -- names that were not bound before are right, whatever was passed over
    rcases View.Updates.child hd hscan.updates hj with ⟨hold, -⟩ | ⟨s', o, hp', -, -, ho, hjo⟩
    · by_cases hsize : w.files.disk.Oversized s
      · exact .inr ⟨hold, .inl hsize⟩
      · by_cases hskips : w.files.disk.Skips s name
        · exact .inr ⟨hold, .inr (Disk.exists_oversized_of_skips hphantoms hskips)⟩
        · obtain ⟨q, hq, hnames, -⟩ := hscan.scanned hsize
          obtain rfl := hscan.sound.eq_of_holds hp hq.holds
          exact .inl ((hnames name hskips).leads_of_child hj)
    · obtain rfl := hp.serial_eq hd.regular hp'
      exact .inl ⟨o, ho, hjo.leads hj⟩

/-- A tracker that has seen a directory `d` with a file `f` and a file `g`. The file `f` has been deleted
since, a new file is called `g` now, and the tokens of `d` and of the new file are too large. -/
def outgrown : Tracker ScriptedDisk :=
  let start : Tracker ScriptedDisk := { files := {}, ledger := { tree := {} } }
  let seen := Call.scanRoot.after ScriptedDisk.filesystem false (start.operate
    [.mkdir (.ofString "/d"), .createWithIno (.ofString "/d/f") 5, .createWithIno (.ofString "/g") 6])
  seen.operate [.remove (.ofString "/d/f"), .markOversized (.ofString "/d"), .remove (.ofString "/g"),
    .createWithIno (.ofString "/g") 7, .markOversized (.ofString "/g")]

theorem watched_outgrown : Watched outgrown := by
  have hstart : Watched { files := {}, ledger := { tree := {} } } := by
    refine .start ⟨rfl, fun _ _ h => ?_⟩
    cases h
  exact Watched.operate (Reached.call false .scanRoot (Watched.operate hstart _)) _

theorem clean_outgrown : outgrown.files.Clean where
  faults := by decide +kernel
  overrides := by
    have hnone : outgrown.files.overrides.toList = [] := by decide +kernel
    exact SortedMap.ext hnone
  listings := by
    have hnone : outgrown.files.listings.toList = [] := by decide +kernel
    exact SortedMap.ext hnone
  aliases := by decide +kernel

theorem apart_outgrown {s : Serial} (hs : outgrown.files.disk.Named s) :
    outgrown.files.disk.Apart [s] :=
  watched_outgrown.regular.apart (by decide +kernel) fun _ h => List.mem_singleton.1 h ▸ hs

theorem no_phantoms_outgrown : ∀ n ∈ outgrown.files.disk.nodes, n.phantoms = [] := by decide +kernel

/-- A scan of the root deals with all its names but those of large tokens. -/
theorem leads_or_skipped_outgrown :
    ∃ w', (scan ScriptedDisk.filesystem true Disk.rootSerial true).run outgrown =
        (.ok { directories := 1, skipped := 2 }, w') ∧
      ∃ p, w'.tree.lookupIno (outgrown.files.disk.inoAt Disk.rootSerial) = some p ∧
        ∀ name j, w'.tree.child? p name = some j →
        (∃ c, outgrown.files.disk.child? Disk.rootSerial name = some c ∧
          w'.tree.view.Leads p name (outgrown.files.disk.inoAt c)) ∨
        (outgrown.tree.child? p name = some j ∧
          ∃ c, outgrown.files.disk.child? Disk.rootSerial name = some c ∧
            outgrown.files.disk.Oversized c) := by
  have hrun : (scan ScriptedDisk.filesystem true Disk.rootSerial true).run outgrown =
      (.ok { directories := 1, skipped := 2 },
        ((scan ScriptedDisk.filesystem true Disk.rootSerial true).run outgrown).2) :=
    Prod.ext (by decide +kernel) rfl
  have hsmall : ¬outgrown.files.disk.Oversized Disk.rootSerial := by
    rintro ⟨n, hn, htrue⟩
    have hroot : (outgrown.files.disk.node? Disk.rootSerial).map (·.oversized) = some false := by
      decide +kernel
    rw [hn, Option.map_some, htrue] at hroot
    cases hroot
  obtain ⟨hrecord, hnames⟩ := watched_outgrown.leads_or_skipped clean_outgrown
    (apart_outgrown (.inl rfl)) (by decide +kernel)
    (fun n hn => no_phantoms_outgrown n (List.mem_of_getElem? hn)) hrun (by decide +kernel)
  obtain ⟨p, hp, hholds⟩ := hrecord hsmall
  refine ⟨_, hrun, p, hp, fun name j hj => (hnames p name j hholds hj).imp_right ?_⟩
  exact fun ⟨hold, hsize⟩ => ⟨hold, hsize.resolve_left hsmall⟩

/-- The directory `d`. -/
def serialOfD : Serial := 1

theorem named_serialOfD : outgrown.files.disk.Named serialOfD :=
  .inr ⟨Disk.rootSerial, .ofString "d", by decide +kernel⟩

/-- Scans of `d` and of the root pass over the names `f` and `g`, and leave both wrong: there is no `f`
any more, and `g` is another file. -/
theorem wrong_outgrown :
    (Watched outgrown ∧ outgrown.files.Clean ∧ (∀ n ∈ outgrown.files.disk.nodes, n.phantoms = []) ∧
      outgrown.files.disk.Apart [serialOfD] ∧ outgrown.files.disk.Apart [Disk.rootSerial]) ∧
    (∃ w', (scan ScriptedDisk.filesystem false serialOfD false).run outgrown =
        (.ok { skipped := 1 }, w') ∧
      ∃ p, w'.tree.view.Holds outgrown.files.disk p serialOfD ∧
        ¬w'.tree.view.Faithful outgrown.files.disk p serialOfD) ∧
    ∃ w', (scan ScriptedDisk.filesystem false Disk.rootSerial false).run outgrown =
        (.ok { directories := 1, fastPath := 1, skipped := 1 }, w') ∧
      ∃ p, w'.tree.view.Holds outgrown.files.disk p Disk.rootSerial ∧
        ¬w'.tree.view.Faithful outgrown.files.disk p Disk.rootSerial := by
  refine ⟨⟨watched_outgrown, clean_outgrown, no_phantoms_outgrown, apart_outgrown named_serialOfD,
    apart_outgrown (.inl rfl)⟩, ⟨_, Prod.ext (by decide +kernel) rfl, ⟨⟨1, 0⟩⟩, ?_, ?_⟩,
    ⟨_, Prod.ext (by decide +kernel) rfl, ⟨⟨0, 0⟩⟩, ?_, ?_⟩⟩
  · exact View.holds_of_map 101 Disk.directoryMode (by decide +kernel) (by decide +kernel)
  · intro hfaithful
    obtain ⟨c, hc, -⟩ := hfaithful (.ofString "f") ⟨⟨2, 0⟩⟩ (by decide +kernel)
    have hnone : outgrown.files.disk.child? serialOfD (.ofString "f") = none := by decide +kernel
    rw [hnone] at hc
    cases hc
  · exact View.holds_of_map Disk.rootIno Disk.directoryMode (by decide +kernel) (by decide +kernel)
  · intro hfaithful
    obtain ⟨c, hc, hleads⟩ := hfaithful (.ofString "g") ⟨⟨3, 0⟩⟩ (by decide +kernel)
    have hnew : outgrown.files.disk.child? Disk.rootSerial (.ofString "g") = some 4 := by
      decide +kernel
    cases hnew.symm.trans hc
    -- the record has number 6, but the file has number 7
    exact absurd (View.leads_iff.1 hleads) (by decide +kernel)

end Tracker

end TreeWatch

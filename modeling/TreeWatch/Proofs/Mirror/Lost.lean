import TreeWatch.Proofs.Mirror.History
import TreeWatch.Proofs.Mirror.Scan

/-!
# Names that a scan loses

A scan brings the names of a directory in line with its listing. With one exception every name is
bound afterwards to a record with the inode number of its object: a scan that is not strict takes a
stale name for unchanged, and then meets the object a second time, under another name or below. The
old record goes at that moment, and the name that led to it goes with it unnoticed.

## Main definitions

- `View.Leads` : a name leads to a record with an inode number
- `Tracker.staleFile` : a state in which a scan loses a name

## Main results

- `Tracker.Watched.leads_iff_not_lost` : exactly the stale names whose object is met again are lost
- `Tracker.lost_staleFile` : there are such names
-/

namespace TreeWatch

namespace View

/-- The name leads to a record with the inode number. -/
def Leads (v : View) (p : InodeId) (name : Bytes) (ino : UInt64) : Prop :=
  ∃ j x, v.child p name = some j ∧ v.identity j = some x ∧ x.1.ino = ino

variable {d : Disk} {v v' : View} {p j : InodeId} {s c o : Serial} {name : Bytes} {strict : Bool}

theorem Holds.leads (h : v.Holds d j o) (hname : v.child p name = some j) :
    v.Leads p name (d.inoAt o) := by
  obtain ⟨a, n, ha, hn, hino, -⟩ := h
  refine ⟨j, _, hname, ha, ?_⟩
  rw [Disk.inoAt_eq hn]
  exact hino

theorem Agrees.leads (h : v.Agrees d p s name) (hc : d.child? s name = some c) :
    v.Leads p name (d.inoAt c) := by
  obtain ⟨j, hj, hjc⟩ := (agrees_of_some hc).1 h
  exact hjc.leads hj

/-- A stale name leads to the right inode number all the same. -/
theorem Stale.leads (h : v.Stale d p s name) (hc : d.child? s name = some c) :
    v.Leads p name (d.inoAt c) := by
  obtain ⟨-, j, o, c', hj, hjo, hc', hsame, -⟩ := h
  rw [hc] at hc'
  cases hc'
  rw [← hsame]
  exact hjo.leads hj

theorem Lost.not_leads (h : v.Lost d p s name) (ino : UInt64) : ¬v.Leads p name ino := by
  rintro ⟨j, x, hj, -⟩
  rw [h.1] at hj
  cases hj

theorem Done.leads_iff (h : Done strict d v v' p s name) (hc : d.child? s name = some c) :
    v'.Leads p name (d.inoAt c) ↔
      ¬(strict = false ∧ v.Stale d p s name ∧ v'.Lost d p s name) := by
  refine ⟨fun hleads hlost => hlost.2.2.not_leads _ hleads, fun hnot => ?_⟩
  rcases h with hagrees | ⟨hstrict, hstale, hstale' | hlost⟩
  · exact hagrees.leads hc
  · exact hstale'.leads hc
  · exact absurd ⟨hstrict, hstale, hlost⟩ hnot

end View

namespace Disk

variable {d : Disk} {s : Serial} {name : Bytes} {listing : List ListedEntry}

theorem isDirectory_of_list (h : d.list s = .ok listing) : d.isDirectory s := by
  unfold list at h
  unfold isDirectory
  cases hn : d.node? s with
  | none =>
    rw [hn] at h
    cases h
  | some n =>
    rw [hn] at h
    simp only at h
    split at h
    · cases h
    · cases hchildren : n.children with
      | none =>
        rw [hchildren] at h
        cases h
      | some children => simp [hchildren]

/-- What a scan does not pass over has an object. -/
theorem exists_child?_of_not_skips {e : ListedEntry} (hlist : d.list s = .ok listing)
    (he : e ∈ listing) (hproper : e.isPseudo = false) (hskips : ¬d.Skips s e.name) :
    ∃ c, d.child? s e.name = some c := by
  rcases cases_of_mem_list hlist he hproper with ⟨c, hc, -⟩ | ⟨n, hn, hphantom⟩
  · exact ⟨c, hc⟩
  · cases hc : d.child? s e.name with
    | some c => exact ⟨c, rfl⟩
    | none =>
      rw [Skips, hc] at hskips
      exact absurd ⟨n, hn, e, hphantom, rfl⟩ hskips

end Disk

namespace Tracker

variable {w w' : Tracker ScriptedDisk} {s : Serial} {strict recursive : Bool}
  {summary : ScanSummary} {listing : List ListedEntry}

/-- After a scan that gives a result, a listed name that was not passed over is bound under the record
of the directory, to a record with the inode number of the object that has the name; unless the scan
was not strict, the name led to the record of an earlier object with this number when it began, and
the object was met again after the name had been taken for unchanged. -/
theorem Watched.leads_iff_not_lost (h : Watched w) (hclean : w.files.Clean)
    (hapart : w.files.disk.Apart [s]) (hsize : ¬w.files.disk.Oversized s)
    (hlist : w.files.disk.list s = .ok listing)
    (hrun : (scan ScriptedDisk.filesystem strict s recursive).run w = (.ok summary, w'))
    (fits : w'.tree.Fits) :
    ∃ p, w'.tree.lookupIno (w.files.disk.inoAt s) = some p ∧
      ∀ e ∈ listing, e.isPseudo = false → ¬w.files.disk.Skips s e.name →
        ∃ c, w.files.disk.child? s e.name = some c ∧
          (w'.tree.view.Leads p e.name (w.files.disk.inoAt c) ↔
            ¬(strict = false ∧ w.tree.view.Stale w.files.disk p s e.name ∧
              w'.tree.view.Lost w.files.disk p s e.name)) := by
  have hafter : (Call.scan s recursive).after ScriptedDisk.filesystem strict w = w' :=
    congrArg Prod.snd hrun
  have hgrows : w.tree.Grows w'.tree := hafter ▸ (Call.scan s recursive).grows strict w
  have hw := h.ready hclean (hgrows.fits fits)
  have hd := hapart.distinguishes h.regular
  have hdoes : Does (scan ScriptedDisk.filesystem strict s recursive) w False fun _ w' =>
      DidScan strict w.files.disk _ recursive s w w' :=
    does_scan hd hw (.inr (List.mem_singleton_self s)) (Disk.isDirectory_of_list hlist) recursive
      False.elim
  unfold Does at hdoes
  rw [hrun] at hdoes
  have hscan := hdoes fits
  obtain ⟨p, hp, hnames, -⟩ := hscan.scanned hsize
  obtain ⟨a, n, ha, hn, hino, -⟩ := hp.holds
  refine ⟨p, hscan.sound.lookupIno_eq_some_iff.2 ⟨_, ha, ?_⟩, fun e he hproper hskips => ?_⟩
  · rw [Disk.inoAt_eq hn]
    exact hino
  · obtain ⟨c, hc⟩ := Disk.exists_child?_of_not_skips hlist he hproper hskips
    exact ⟨c, hc, (hnames e.name hskips).leads_iff hc⟩

/-- A tracker that has seen a file `f` on a disk, where that file has been deleted since. A new file
got its inode number, and the names `f` and `g`. -/
def staleFile : Tracker ScriptedDisk :=
  let start : Tracker ScriptedDisk := { files := {}, ledger := { tree := {} } }
  let seen := Call.scanRoot.after ScriptedDisk.filesystem false
    (start.operate [.createWithIno (.ofString "/f") 5])
  seen.operate [.remove (.ofString "/f"), .createWithIno (.ofString "/f") 5,
    .link (.ofString "/f") (.ofString "/g")]

theorem watched_staleFile : Watched staleFile := by
  have hstart : Watched { files := {}, ledger := { tree := {} } } := by
    refine .start ⟨rfl, fun _ _ h => ?_⟩
    cases h
  exact Watched.operate (Reached.call false .scanRoot (Watched.operate hstart _)) _

theorem clean_staleFile : staleFile.files.Clean where
  faults := by decide +kernel
  overrides := by
    have hnone : staleFile.files.overrides.toList = [] := by decide +kernel
    exact SortedMap.ext hnone
  listings := by
    have hnone : staleFile.files.listings.toList = [] := by decide +kernel
    exact SortedMap.ext hnone
  aliases := by decide +kernel

/-- The tracker after a scan of the root, on which it loses the name `f`. -/
def lostFile : Tracker ScriptedDisk :=
  ((scan ScriptedDisk.filesystem false Disk.rootSerial false).run staleFile).2

theorem lost_staleFile :
    ∃ p, lostFile.tree.lookupIno Disk.rootIno = some p ∧
      staleFile.files.disk.child? Disk.rootSerial (.ofString "f") = some 2 ∧
      ¬lostFile.tree.view.Leads p (.ofString "f") (staleFile.files.disk.inoAt 2) ∧
      staleFile.tree.view.Stale staleFile.files.disk p Disk.rootSerial (.ofString "f") := by
  have hregular := watched_staleFile.regular
  have hapart : staleFile.files.disk.Apart [Disk.rootSerial] :=
    hregular.apart (by decide +kernel) fun s hs => .inl (List.mem_singleton.1 hs)
  have hlist : staleFile.files.disk.list Disk.rootSerial = .ok [⟨Path.dot, 2⟩, ⟨Path.dotDot, 2⟩,
      ⟨.ofString "f", 5⟩, ⟨.ofString "g", 5⟩] := by decide +kernel
  have hrun : (scan ScriptedDisk.filesystem false Disk.rootSerial false).run staleFile =
      (.ok { directories := 1, fastPath := 1, linked := 1 }, lostFile) :=
    Prod.ext (by decide +kernel) rfl
  have fits : lostFile.tree.Fits := by decide +kernel
  have hsize : ∀ s, ¬staleFile.files.disk.Oversized s := by
    rintro s ⟨n, hn, htrue⟩
    have hall : ∀ n ∈ staleFile.files.disk.nodes, n.oversized = false := by decide +kernel
    rw [hall n (List.mem_of_getElem? hn)] at htrue
    cases htrue
  obtain ⟨p, hp, hnames⟩ := watched_staleFile.leads_iff_not_lost clean_staleFile hapart (hsize _)
    hlist hrun fits
  have hc : staleFile.files.disk.child? Disk.rootSerial (.ofString "f") = some 2 := by decide +kernel
  have hskips : ¬staleFile.files.disk.Skips Disk.rootSerial (.ofString "f") := by
    rw [Disk.Skips, hc]
    exact hsize 2
  obtain ⟨c, hc', hiff⟩ := hnames ⟨.ofString "f", 5⟩ (by decide +kernel) (by decide +kernel)
    hskips
  rw [hc] at hc'
  cases hc'
  have hroot : lostFile.tree.lookupIno Disk.rootIno = some ⟨⟨0, 0⟩⟩ := by decide +kernel
  have hino : staleFile.files.disk.inoAt Disk.rootSerial = Disk.rootIno := by decide +kernel
  rw [hino] at hp
  have hlost : ¬lostFile.tree.view.Leads p (.ofString "f") (staleFile.files.disk.inoAt 2) := by
    rw [hroot] at hp
    cases hp
    rintro ⟨j, x, hj, -⟩
    have hnone : lostFile.tree.child? ⟨⟨0, 0⟩⟩ (.ofString "f") = none := by decide +kernel
    rw [Tree.view_child, hnone] at hj
    cases hj
  -- the theorem says why the name is gone
  have hstale := not_not.1 (mt hiff.2 hlost)
  exact ⟨p, hp, hc, hlost, hstale.2.1⟩

end Tracker

end TreeWatch

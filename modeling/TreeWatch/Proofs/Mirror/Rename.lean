import TreeWatch.Proofs.Mirror.Convergence
import TreeWatch.Proofs.Mirror.Survey

/-!
# Renames within a batch

An object is renamed while a disk is watched, and what tells of it arrives in one batch, in any order and
together with other notifications. The batch may unbind the old name first, so that the record waits to be
reclaimed, and notifications may have been lost, so that records are reclaimed in the middle of the batch.
The record of the object is the same afterwards.

## Main definitions

- `ScriptedDisk.MovesInOrder`, `Tracker.WatchedInOrder` : a disk is watched, and what happens to it is
  orderly
- `Tracker.KeepsNames` : the names in a directory lead to the records that their objects had before

## Main results

- `Tracker.Minded.keepsNames` : a directory that is settled when a batch is over keeps its names
- `Tracker.WatchedInOrder.keepsNames_of_listed` : all directories that a batch lists keep their names

## Design notes

A record may be destroyed while a batch is processed. Then its object could not be reached when all that
could be reached was shown, and this goes on to be so, since the disk stays as it is. So no name leads to
the object from a directory that can be reached at the end.
-/

namespace TreeWatch

namespace ScriptedDisk

/-- What may happen to a scripted disk between calls: an orderly operation on the disk, and any change of
what is answered differently, but modes are not replaced. -/
structure MovesInOrder (files files' : ScriptedDisk) : Prop where
  disk : files'.disk = files.disk ∨
    ∃ op : Disk.Operation, op.Orderly files.disk ∧ op.apply files.disk = .ok files'.disk
  modes : ∀ ino o, files'.overrides.get? ino = some o → o.mode = none

theorem MovesInOrder.moves {files files' : ScriptedDisk} (h : MovesInOrder files files') :
    Moves files files' :=
  ⟨h.disk.imp_right fun ⟨op, _, hop⟩ => ⟨op, hop⟩, h.modes⟩

end ScriptedDisk

/-! ### Tokens -/

namespace View

variable {t : Tree} {d : Disk} {i : InodeId} {s : Serial} {r : InodeRecord}

theorem Holds.token_eq (h : t.view.Holds d i s) (hr : t.record? i = some r) :
    r.token = Disk.tokenOf s := by
  obtain ⟨a, n, ha, -⟩ := h
  obtain ⟨r', hr', hidentity⟩ := Tree.identity?_eq_some_iff.1 ha
  cases hr.symm.trans hr'
  exact congrArg Prod.snd hidentity

/-- A record with the token of an object is for that object. -/
theorem Truthful.holds_of_token (h : t.view.Truthful d) (hd : d.Regular)
    (hs : ∃ n, d.node? s = some n) (hr : t.record? i = some r) (htoken : r.token = Disk.tokenOf s) :
    t.view.Holds d i s := by
  obtain ⟨o, ho⟩ := h i r.identity (Tree.identity?_eq_some_iff.2 ⟨r, hr, rfl⟩)
  obtain ⟨n, hn⟩ := hs
  obtain rfl : o = s := Disk.eq_of_tokenOf_eq (ho.lt_capacity hd) (hd.lt_capacity hn)
    ((ho.token_eq hr).symm.trans htoken)
  exact ho

end View

namespace Tracker

open View

section batches

variable {σ : Type} {fs : Filesystem σ Serial} {d : Disk} {present : Serial → Prop} {strict : Bool}
  {w w₁ w' : Tracker σ} {s : Serial} {batch : List (Notification Serial)} {summary : ScanSummary}

/-! ### Names that are kept -/

/-- If the directory can be reached afterwards, its names lead to the records that their objects had
before, as far as they had any. These records are linked. -/
def KeepsNames (d : Disk) (s : Serial) (w w' : Tracker σ) : Prop :=
  ∀ p rp, w'.tree.record? p = some rp → rp.token = Disk.tokenOf s → w'.tree.Reachable p →
    ∀ name o i r, d.child? s name = some o → w.tree.record? i = some r → r.token = Disk.tokenOf o →
      w'.tree.child? p name = some i ∧
        ∃ r', w'.tree.record? i = some r' ∧ r'.token = r.token ∧ ¬r'.isUnlinked

/-- Reclaiming at the end of a batch takes nothing from a directory that is settled by then. -/
theorem Minded.keepsNames (hd : d.Distinguishes present) (hw : w.tree.view.Truthful d)
    (hupheld : Upheld strict d present w w₁) (hs : Minded d present s w₁)
    (hpruned : Tree.Pruned w₁.tree w'.tree) : KeepsNames d s w w' := by
  intro p rp hrp hptoken hreachable name o i r hname hr htoken
  have hpresent : present o := hd.of_child? hname
  have hi : w.tree.view.Holds d i o :=
    hw.holds_of_token hd.regular (hd.exists_node hpresent) hr htoken
  have hp : w'.tree.view.Holds d p s := (hpruned.truthful hupheld.truthful).holds_of_token hd.regular
    (hd.exists_node hs.1) hrp hptoken
  have hp₁ : w₁.tree.view.Holds d p s := hpruned.holds_back hp
  have hreachable₁ : w₁.tree.Reachable p := hpruned.reachable_back hreachable
  -- neither the directory nor what it contains is out of reach
  have hfound : w₁.tree.view.Surveyed d → d.Reachable s := fun hsurveyed =>
    (hupheld.sound.reachable_iff hd.regular hsurveyed hp₁).1 hreachable₁
  have hsettled : w₁.tree.view.Settled d s :=
    (hs.2 (Disk.isDirectory_of_child? hname)).resolve_right fun hastray =>
      hastray.2 (hfound hastray.1)
  have hi₁ : w₁.tree.view.Holds d i o :=
    (hupheld.holds hpresent hi).resolve_right fun hastray =>
      hastray.2 ((hfound hastray.1).tail ⟨name, hname⟩)
  have hbound : w₁.tree.child? p name = some i := by
    obtain ⟨q, hq, hnames⟩ := hsettled
    obtain rfl := hupheld.sound.eq_of_holds hp₁ hq
    obtain ⟨j, hj, hjo⟩ := (agrees_of_some hname).1 (hnames name)
    exact hupheld.sound.eq_of_holds hjo hi₁ ▸ hj
  have hkept : w'.tree.child? p name = some i := ((hpruned.unchanged hp.live).2 name).trans hbound
  obtain ⟨-, r', hr'⟩ := hpruned.sound.live_of_child? hkept
  have hi' := hpruned.holds hi₁ (hpruned.sound.live_of_child?_eq_some hkept).2
  exact ⟨hkept, r', hr', (hi'.token_eq hr').trans htoken.symm,
    hpruned.sound.not_isUnlinked_of_child? hkept hr'⟩

theorem aside_afterBatch (summary : ScanSummary) :
    Aside (afterBatch summary : Track (σ × List Serial) WatchError ScanSummary)
      (afterBatch summary) := by
  refine .bind (.editGet _) fun count => ?_
  split
  · exact .bind (.note _) fun _ => .pure _
  · exact .pure _

/-- All directories that a batch lists keep their names. -/
theorem records_processBatch (hd : d.Distinguishes present) (hacyclic : d.Acyclic)
    (hpresent : ∀ n ∈ batch, ∀ s, n.object = some s → present s) (hbatch : ∀ n ∈ batch, n.Understood)
    (hw : Ready fs d w) (hcalm : w.tree.view.Calm strict d present) :
    Records (processBatch fs.recording strict batch) (processBatch fs strict batch) w
      fun s w' => KeepsNames d s w w' := by
  rw [processBatch_eq, processBatch_eq]
  refine (records_handleAll hd hacyclic hpresent hbatch hw hcalm).before
    (does_handleAll_upheld hd hacyclic hpresent hbatch hw hcalm) editsOnly_afterBatch aside_afterBatch ?_
  intro summary w₁ hupheld
  refine (Does.afterBatch (does_reclaimNow hupheld.sound) (fun _ _ h => h) summary).mono ?_
  exact fun _ w₂ hreclaimed s hs => hs.keepsNames hd hw.truthful hupheld hreclaimed.2

/-! ### Versions -/

theorem fst_handle_of_version_ne {n : Notification Serial} (hn : n.version ≠ recordVersion)
    (w : Tracker σ) : ((handle fs strict n).run w).1 = .error (.versionMismatch n.version) := by
  obtain ⟨leases, hrelease⟩ := run_releaseObject (ε := WatchError) n w
  rw [handle, if_pos hn, run_bind, hrelease]
  rfl

/-- Notifications of another version are refused. -/
theorem version_of_handleAll (hrun : (handleAll fs strict batch).run w = (.ok summary, w')) :
    ∀ n ∈ batch, n.version = recordVersion := by
  induction batch generalizing w summary w' with
  | nil => exact fun n hn => by cases hn
  | cons m rest ih =>
    rw [handleAll] at hrun
    obtain ⟨outcome, w₁, hattempt, hrest⟩ := run_bind_eq_ok hrun
    have hfirst : ((handle fs strict m).run w).1 = outcome := by
      rw [run_attempt] at hattempt
      exact Except.ok.inj (congrArg Prod.fst hattempt)
    cases outcome with
    | error e =>
      obtain ⟨_, _, -, hfailed⟩ := run_bind_eq_ok hrest
      cases hfailed
    | ok first =>
      obtain ⟨others, _, hothers, -⟩ := run_bind_eq_ok hrest
      refine List.forall_mem_cons.2 ⟨?_, ih hothers⟩
      by_contra hne
      rw [fst_handle_of_version_ne hne] at hfirst
      cases hfirst

end batches

/-! ### Watching in order -/

/-- The states that come up while a disk is watched that was empty at first and on which only orderly
operations happen. -/
abbrev WatchedInOrder : Tracker ScriptedDisk → Prop :=
  Reached ScriptedDisk.filesystem (ScriptedDisk.Over .empty) ScriptedDisk.MovesInOrder

namespace WatchedInOrder

variable {w w' : Tracker ScriptedDisk}

theorem watched (h : WatchedInOrder w) : Watched w :=
  Reached.mono h fun _ _ hmove => hmove.moves

/-- No directory lies below itself, and no object is marked. -/
theorem orderly (h : WatchedInOrder w) :
    w.files.disk.Acyclic ∧ ∀ s n, w.files.disk.node? s = some n → n.Ordinary := by
  induction h with
  | start hstart =>
    have htidy : Disk.empty.Tidy fun _ => True := Disk.tidy_of_ordinary (by decide)
    rw [hstart.disk]
    exact ⟨Disk.acyclic_empty, fun s n => htidy s n trivial⟩
  | @call w strict c hreached ih =>
    have hover := (watched hreached).over.1
    rw [(c.edits (ScriptedDisk.vouches w.files.disk) strict w hover).files.disk]
    exact ih
  | @elsewhere w files leases clock hreached hmove ih =>
    rcases hmove.disk with hsame | ⟨op, horderly, hop⟩
    · rw [hsame]
      exact ih
    · exact ⟨horderly.acyclic hop (watched hreached).regular ih.1,
        fun s n hn => horderly.ordinary hop ih.2 hn⟩

/-- An orderly operation may happen between two calls; if it fails, it does nothing. -/
theorem operate (h : WatchedInOrder w) (op : Disk.Operation) (hop : op.Orderly w.files.disk) :
    WatchedInOrder (w.operate [op]) := by
  have hmoves : ScriptedDisk.MovesInOrder w.files
      { w.files with disk := w.files.disk.perform op } :=
    ⟨(Disk.perform_cases w.files.disk op).imp_right fun happly => ⟨op, hop, happly⟩,
      h.watched.over.1.modes⟩
  exact .elsewhere h hmoves

/-- A batch of notifications about modified directories and lost notifications is processed while the disk
stays as it is. Every directory that it lists keeps its names: if the directory can be reached in the end,
a name in it leads to the record that had the token of the object before. -/
theorem keepsNames_of_listed {strict : Bool} {batch : List (Notification Serial)}
    {summary : ScanSummary} (h : WatchedInOrder w) (hclean : w.files.Clean)
    (hbatch : ∀ n ∈ batch, n.kind = .directoryModified ∨ n.kind = .overflow)
    (hapart : w.files.disk.Apart (handlesOf batch))
    (hnumbers : strict = true ∨ w.files.disk.Unrepeated)
    (hrun : (processBatch ScriptedDisk.filesystem strict batch).run w = (.ok summary, w'))
    (fits : w'.tree.Fits) :
    ∃ listed, (processBatch ScriptedDisk.filesystem.recording strict batch).run (w.recorded []) =
        (.ok summary, w'.recorded listed) ∧
      ∀ s ∈ listed, KeepsNames w.files.disk s w w' := by
  have hd := hapart.distinguishes h.watched.regular
  obtain ⟨hacyclic, hordinary⟩ := h.orderly
  have hgrows : w.tree.Grows w'.tree := by
    have hafter : (Call.processBatch batch).after ScriptedDisk.filesystem strict w = w' :=
      congrArg Prod.snd hrun
    exact hafter ▸ (Call.processBatch batch).grows strict w
  have hw := h.watched.ready hclean (hgrows.fits fits)
  have hcalm : w.tree.view.Calm strict w.files.disk
      fun s => w.files.disk.Named s ∨ s ∈ handlesOf batch :=
    ⟨fun s n _ => hordinary s n,
      hnumbers.imp_right fun hunrepeated => fresh_of_unrepeated hunrepeated hd⟩
  have hversions : ∀ n ∈ batch, n.version = recordVersion := by
    obtain ⟨_, _, hhandled, -⟩ := run_bind_eq_ok (processBatch_eq strict batch ▸ hrun)
    exact version_of_handleAll hhandled
  have hpresent : ∀ n ∈ batch, ∀ s, n.object = some s →
      w.files.disk.Named s ∨ s ∈ handlesOf batch :=
    fun n hn s hs => .inr (List.mem_filterMap.2 ⟨n, hn, hs⟩)
  have hrecords := records_processBatch hd hacyclic hpresent
    (fun n hn => ⟨hversions n hn, hbatch n hn⟩) hw hcalm
  have hfits : ((processBatch ScriptedDisk.filesystem strict batch).run w).2.tree.Fits := by
    rw [hrun]
    exact fits
  obtain ⟨_, _, listed, hrun', hrecorded, hlisted⟩ := hrecords hfits []
  cases hrun.symm.trans hrun'
  exact ⟨listed, hrecorded, fun s hs => (hlisted s hs).resolve_left List.not_mem_nil⟩

end WatchedInOrder

/-- A disk is watched on which there are a directory `a`, which contains a file, and an empty directory
`b`. Then `a` is moved into `b`. -/
def movedDirectory : Tracker ScriptedDisk :=
  let start : Tracker ScriptedDisk := { files := {}, ledger := { tree := {} } }
  let made := ((start.operate [.mkdir (.ofString "/a")]).operate
    [.create (.ofString "/a/f")]).operate [.mkdir (.ofString "/b")]
  (Call.baseline.after ScriptedDisk.filesystem false made).operate [moveInto]

theorem watchedInOrder_movedDirectory : WatchedInOrder movedDirectory := by
  have hstart : WatchedInOrder { files := {}, ledger := { tree := {} } } := by
    refine .start ⟨rfl, fun _ _ h => ?_⟩
    cases h
  have hmade := ((hstart.operate (.mkdir (.ofString "/a")) trivial).operate
    (.create (.ofString "/a/f")) trivial).operate (.mkdir (.ofString "/b")) trivial
  refine WatchedInOrder.operate (.call false .baseline hmade) moveInto ?_
  generalize hfiles : (Call.baseline.after ScriptedDisk.filesystem false _).files.disk = d
  obtain rfl : d = twoDirectories := by rw [← hfiles]; decide +kernel
  exact orderly_moveInto

theorem clean_movedDirectory : movedDirectory.files.Clean where
  faults := by decide +kernel
  overrides := by
    have hnone : movedDirectory.files.overrides.toList = [] := by decide +kernel
    exact SortedMap.ext hnone
  listings := by
    have hnone : movedDirectory.files.listings.toList = [] := by decide +kernel
    exact SortedMap.ext hnone
  aliases := by decide +kernel

/-- The old parent is told of first, and notifications are lost before the new one is told of. -/
def moveBatch : List (Notification Serial) :=
  [modified 0, ⟨recordVersion, overflowBit, none⟩, modified 3]

/-- The tracker after the batch. -/
def keptDirectory : Tracker ScriptedDisk :=
  ((processBatch ScriptedDisk.filesystem false moveBatch).run movedDirectory).2

theorem apart_movedDirectory : movedDirectory.files.disk.Apart (handlesOf moveBatch) := by
  refine watchedInOrder_movedDirectory.watched.regular.apart (by decide +kernel) fun s hs => ?_
  rcases List.mem_cons.1 hs with rfl | hs
  · exact .inl rfl
  · obtain rfl := List.mem_singleton.1 hs
    exact .inr ⟨0, .ofString "b", by decide +kernel⟩

/-- The record of `a` is taken from the root, and it is bound in `b` when the whole mount is scanned. -/
theorem keepsNames_movedDirectory :
    (processBatch ScriptedDisk.filesystem false moveBatch).run movedDirectory =
        (.ok { directories := 5, fastPath := 4, linked := 1, unlinked := 1 }, keptDirectory) ∧
      keptDirectory.tree.child? ⟨⟨3, 0⟩⟩ (.ofString "a") = some ⟨⟨1, 0⟩⟩ ∧
      ∃ r, keptDirectory.tree.record? ⟨⟨1, 0⟩⟩ = some r ∧ r.token = Disk.tokenOf 1 ∧
        ¬r.isUnlinked := by
  have hrun : (processBatch ScriptedDisk.filesystem false moveBatch).run movedDirectory =
      (.ok { directories := 5, fastPath := 4, linked := 1, unlinked := 1 }, keptDirectory) :=
    Prod.ext (by decide +kernel) rfl
  obtain ⟨listed, hrecorded, hkept⟩ := WatchedInOrder.keepsNames_of_listed
    watchedInOrder_movedDirectory clean_movedDirectory (by decide +kernel) apart_movedDirectory
    (.inr (by decide +kernel)) hrun (by decide +kernel)
  have hlisted : (3 : Serial) ∈ listed := by
    have hall : ((processBatch ScriptedDisk.filesystem.recording false moveBatch).run
        (movedDirectory.recorded [])).2.files.2 = [3, 1, 3, 0, 0] := by decide +kernel
    rw [hrecorded] at hall
    rw [show listed = [3, 1, 3, 0, 0] from hall]
    exact List.mem_cons_self
  have hb : ∃ r, keptDirectory.tree.record? ⟨⟨3, 0⟩⟩ = some r ∧ r.token = Disk.tokenOf 3 :=
    Option.map_eq_some_iff.1 (by decide +kernel)
  have ha : ∃ r, movedDirectory.tree.record? ⟨⟨1, 0⟩⟩ = some r ∧ r.token = Disk.tokenOf 1 :=
    Option.map_eq_some_iff.1 (by decide +kernel)
  have hreachable : keptDirectory.tree.Reachable ⟨⟨3, 0⟩⟩ :=
    ⟨⟨⟨0, 0⟩⟩, by decide +kernel, .single ⟨.ofString "b", by decide +kernel⟩⟩
  obtain ⟨rp, hrp, hptoken⟩ := hb
  obtain ⟨r, hr, htoken⟩ := ha
  obtain ⟨hchild, r', hr', hsame, hlinked⟩ := hkept 3 hlisted _ rp hrp hptoken hreachable
    (.ofString "a") 1 _ r (by decide +kernel) hr htoken
  exact ⟨hrun, hchild, r', hr', hsame.trans htoken, hlinked⟩

end Tracker

end TreeWatch

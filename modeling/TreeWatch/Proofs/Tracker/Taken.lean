import Mathlib
import TreeWatch.Proofs.Arena.Age
import TreeWatch.Proofs.Garbage.Waiting
import TreeWatch.Proofs.Tree.Slots
import TreeWatch.Proofs.Tree.Thinned
import TreeWatch.Proofs.Tree.Touched

/-!
# What is taken as touched

Whoever takes the touched records gets those to which a name was bound since the last time and which
have been in the tree ever since, whether they still have that name or not.

## Main definitions

- `Ledger.Links` : a change that binds a name to a record
- `Ledger.SinceTaken` : all moments of a ledger since touched records were last taken
- `Ledger.LinkedSince` : a record got a name since then and has been in the tree ever since
- `Tracker.Polled` : the states of a run in which touched records are taken now and then

## Main results

- `Ledger.Edit.touched_iff` : what one change does to the touched records
- `Ledger.SinceTaken.touched_iff` : which records are touched
- `Tracker.Polled.taken_exact` : which records are taken, in every run

## Design notes

A record is told apart from one that has its slot or its inode number after it by being in the tree
from one moment to the next. That is so even where generations wrap around. If fewer than 2³²
records are put into the tree, the name of a record is enough to tell it apart.
-/

namespace TreeWatch

namespace Ledger

open TreeWatch.Tree

variable {known : Testimony} {clock : Clock} {l l' : Ledger} {past : List Ledger} {i j : InodeId}

/-! ### One change -/

/-- The change binds a name to the record, which the journal tells as well. -/
def Links (i : InodeId) (l l' : Ledger) : Prop :=
  ∃ parent name e, l.addEntry parent name i = .ok (e, l')

/-- A change by which no name is bound, and touched records stay so while they are in the tree. -/
def Prunes (l l' : Ledger) : Prop :=
  ∀ i, l'.tree.touched.contains i ↔ l.tree.touched.contains i ∧ l'.tree.isLive i

/-- Every touched record is in the tree. -/
def TouchedLive (l : Ledger) : Prop :=
  ∀ i, l.tree.touched.contains i → l.tree.isLive i

/-- A change that takes no record out and touches none. -/
theorem TouchedLive.prunes (h : l.TouchedLive) (htouched : l'.tree.touched = l.tree.touched)
    (hlive : ∀ i, l.tree.isLive i → l'.tree.isLive i) : Prunes l l' := by
  intro i
  rw [htouched]
  exact ⟨fun hi => ⟨hi, hlive i (h i hi)⟩, And.left⟩

theorem TouchedLive.prunes_destroy (h : l.TouchedLive) (x : InodeId) :
    Prunes l (l.destroy clock x).2 := by
  intro i
  rw [isLive_destroy]
  cases hr : l.tree.record? x with
  | none =>
    have hne : l.tree.touched.contains i → i ≠ x := by
      rintro hi rfl
      obtain ⟨r, hr'⟩ := isLive_iff.1 (h i hi)
      cases hr.symm.trans hr'
    rw [destroy_of_none clock x hr]
    exact ⟨fun hi => ⟨hi, hne hi, h i hi⟩, And.left⟩
  | some r =>
    rw [touched_destroy clock x hr, SortedSet.contains_erase, Bool.and_eq_true, decide_eq_true_iff]
    exact ⟨fun hi => ⟨hi.2, hi.1, h i hi.2⟩, fun hi => ⟨hi.2.1, hi.1⟩⟩

theorem Prunes.touchedLive (h : Prunes l l') : l'.TouchedLive :=
  fun i hi => ((h i).1 hi).2

theorem TouchedLive.prunes_reclaim (h : l.TouchedLive) : Prunes l (l.reclaimNow clock).2 := by
  refine keep_reclaim (P := Prunes l) (fun l' x hprunes i => ?_) (clock l.reads)
    (h.prunes rfl fun _ => id : Prunes l l.tick)
  rw [hprunes.touchedLive.prunes_destroy x i, hprunes i, isLive_destroy]
  constructor
  · exact fun hi => ⟨hi.1.1, hi.2⟩
  · exact fun hi => ⟨⟨hi.1, hi.2.2⟩, hi.2⟩

/-- The new record of an inode number has another name than the one that had the number before. -/
theorem TouchedLive.prunes_replace (h : l.TouchedLive) (hsound : l.tree.Sound) {old : InodeId}
    {attributes : Attributes} {token : IdentityToken}
    (hold : l.tree.lookupIno attributes.ino = some old)
    (fits : ((l.invalidate clock old).insertRecord attributes token).2.tree.Fits) :
    Prunes l ((l.invalidate clock old).insertRecord attributes token).2 := by
  obtain ⟨r, hr, -⟩ := (hsound.ino_iff _ _).1 hold
  have hnew := fst_insertRecord_ne hr clock attributes token
  have hprunes : Prunes l (l.destroy clock old).2 := h.prunes_destroy old
  have htree : ((l.invalidate clock old).insertRecord attributes token).2.tree =
      ((l.destroy clock old).2.tree.insertRecord attributes token).2 := by
    rw [tree_insertRecord, tree_invalidate]
  have hwf := (sound_destroy clock old hsound).inodes_wellFormed
  intro i
  rw [htree] at fits ⊢
  rw [isLive_insertRecord hwf fits]
  refine (hprunes i).trans (and_congr_right fun hi => ⟨.inr, fun hlive => ?_⟩)
  rcases hlive with rfl | hlive
  · exact (isLive_destroy l clock old _).2 ⟨hnew, h _ hi⟩
  · exact hlive

/-- A record to which a name is bound is touched. -/
theorem Links.touched_iff (h : Links j l l') (i : InodeId) :
    l'.tree.touched.contains i ↔ i = j ∨ l.tree.touched.contains i := by
  obtain ⟨parent, name, e, hadd⟩ := h
  obtain ⟨t, o, htree, rfl⟩ := addEntry_eq_ok hadd
  obtain ⟨-, -, -, rfl⟩ := Tree.addEntry_eq_ok htree
  show (l.tree.touched.add j).contains i ↔ _
  rw [SortedSet.contains_add, Bool.or_eq_true, decide_eq_true_iff]

theorem Links.isLive_iff (h : Links j l l') (i : InodeId) : l'.tree.isLive i ↔ l.tree.isLive i := by
  obtain ⟨parent, name, e, hadd⟩ := h
  obtain ⟨t, o, htree, rfl⟩ := addEntry_eq_ok hadd
  obtain ⟨-, -, -, rfl⟩ := Tree.addEntry_eq_ok htree
  rw [Tree.isLive_iff, Tree.isLive_iff]
  exact exists_record?_withEntry_iff

theorem Links.live (h : Links i l l') : l'.tree.isLive i := by
  rw [h.isLive_iff]
  obtain ⟨parent, name, e, hadd⟩ := h
  obtain ⟨t, o, htree, rfl⟩ := addEntry_eq_ok hadd
  exact Tree.isLive_iff.2 (Tree.addEntry_eq_ok htree).1

/-- A change either binds one name or none. -/
theorem Edit.links_or_prunes (h : Edit known clock l l') (hsound : l.tree.Sound) (fits : l'.tree.Fits)
    (hlive : l.TouchedLive) : (∃ j, Links j l l') ∨ Prunes l l' := by
  cases h with
  | note event => exact .inr (hlive.prunes rfl fun _ => id)
  | insert _ _ =>
    rw [tree_insertRecord] at fits
    refine .inr (hlive.prunes (by rw [tree_insertRecord]; rfl) fun i hi => ?_)
    rw [tree_insertRecord]
    exact (isLive_insertRecord hsound.inodes_wellFormed fits).2 (.inr hi)
  | replace _ hold _ => exact .inr (hlive.prunes_replace hsound hold fits)
  | refresh => exact .inr (hlive.prunes rfl fun _ => (isLive_modifyRecord _ _).2)
  | bind _ hadd => exact .inl ⟨_, _, _, _, hadd⟩
  | unbind hremove =>
    obtain ⟨t, o, htree, rfl⟩ := removeEntry_eq_ok hremove
    refine .inr (hlive.prunes (touched_removeEntry htree) fun i hi => ?_)
    rw [isLive_iff_identity?, (hsound.removeEntry htree).identity?_eq, ← isLive_iff_identity?]
    exact hi
  | @wait i =>
    refine .inr (hlive.prunes (touched_orphanIfUnlinked i (clock l.reads)) fun j hj => ?_)
    rw [isLive_iff_identity?] at hj ⊢
    rwa [← view_identity, show (l.orphanIfUnlinked i clock).tree.view = l.tree.view from
      view_orphanIfUnlinked ..]
  | root => exact .inr (hlive.prunes rfl fun _ => id)
  | reclaim => exact .inr hlive.prunes_reclaim

/-- What one change does to the touched records: those that were touched and stay in the tree remain
so, and one to which the change binds a name joins them. -/
theorem Edit.touched_iff (h : Edit known clock l l') (hsound : l.tree.Sound) (fits : l'.tree.Fits)
    (hlive : l.TouchedLive) :
    l'.tree.touched.contains i ↔ Links i l l' ∨ l.tree.touched.contains i ∧ l'.tree.isLive i := by
  rcases h.links_or_prunes hsound fits hlive with ⟨j, hlinks⟩ | hprunes
  · rw [hlinks.isLive_iff]
    constructor
    · intro hi
      rcases (hlinks.touched_iff i).1 hi with rfl | hi
      · exact .inl hlinks
      · exact .inr ⟨hi, hlive i hi⟩
    · rintro (hi | hi)
      · exact (hi.touched_iff i).2 (.inl rfl)
      · exact (hlinks.touched_iff i).2 (.inr hi.1)
  · refine (hprunes i).trans ⟨.inr, fun hi => hi.elim (fun hlinks => ?_) id⟩
    exact (hprunes i).1 ((hlinks.touched_iff i).2 (.inl rfl))

/-! ### The slots of records -/

/-- Fewer than 2³² records were ever put into the tree. -/
def FewMade (l : Ledger) : Prop := l.tree.inodes.made < UInt32.size

instance (l : Ledger) : Decidable l.FewMade :=
  inferInstanceAs (Decidable (l.tree.inodes.made < UInt32.size))

/-- Slots of records grow older. -/
theorem Edit.ages (h : Edit known clock l l') (hsound : l.tree.Sound) (few : l.FewMade) :
    l.tree.inodes.Ages l'.tree.inodes := by
  rcases h.inodes_cases with hshrinks | ⟨a, r, hshrinks, heq⟩
  · exact hshrinks.ages
  · have hwf := hshrinks.wellFormed hsound.inodes_wellFormed
    rw [heq]
    refine hshrinks.ages.trans (Arena.ages_insert hwf ?_ r)
    rw [hshrinks.made_eq]
    exact few

/-! ### All changes since touched records were taken -/

/-- The ledger after its touched records were taken. -/
def taken (l : Ledger) : Ledger := { l with tree := l.tree.takeTouched.2 }

/-- All moments of a ledger since its touched records were last taken, or else since the start, the
latest first. There is one moment for each change. -/
inductive SinceTaken : List Ledger → Prop
  | start {grace : Nat} : SinceTaken [{ tree := { grace } }]
  | change {clock : Clock} {l l' : Ledger} {past : List Ledger} :
    SinceTaken (l :: past) → Edit {} clock l l' → SinceTaken (l' :: l :: past)
  | take {l : Ledger} {past : List Ledger} : SinceTaken (l :: past) → SinceTaken [l.taken]

/-- A name was bound to the record at one of the moments, and the record has been in the tree ever
since. -/
inductive LinkedSince (i : InodeId) : List Ledger → Prop
  | linked {l prev : Ledger} {past : List Ledger} :
    Links i prev l → LinkedSince i (l :: prev :: past)
  | later {l : Ledger} {past : List Ledger} :
    LinkedSince i past → l.tree.isLive i → LinkedSince i (l :: past)

/-- A name was bound to a record of that name at one of the moments. -/
def LinkedIn (i : InodeId) (past : List Ledger) : Prop :=
  ∃ later l prev earlier, past = later ++ l :: prev :: earlier ∧ Links i prev l

theorem sound_taken (h : l.tree.Sound) : l.taken.tree.Sound :=
  ⟨⟨h.link_iff, h.child_iff, h.parent_live, h.child_live, h.directory_iff, h.ino_iff⟩,
    h.inodes_wellFormed, h.entries_wellFormed, h.waiting⟩

theorem SinceTaken.sound (h : SinceTaken (l :: past)) (fits : l.tree.Fits) : l.tree.Sound := by
  generalize hall : l :: past = all at h
  induction h generalizing l past with
  | start =>
    cases hall
    exact sound_empty _
  | change _ hedit ih =>
    cases hall
    exact hedit.tree.sound (ih (hedit.tree.grows.fits fits) rfl) fits
  | take _ ih =>
    cases hall
    exact sound_taken (ih ⟨fits.inodes, fits.entries⟩ rfl)

theorem LinkedSince.live (h : LinkedSince i (l :: past)) : l.tree.isLive i := by
  cases h with
  | linked hlinks => exact hlinks.live
  | later _ hlive => exact hlive

/-- The touched records are those to which a name was bound since they were last taken and which
have been in the tree ever since. -/
theorem SinceTaken.touched_iff (h : SinceTaken (l :: past)) (fits : l.tree.Fits) :
    ∀ i, l.tree.touched.contains i ↔ LinkedSince i (l :: past) := by
  have hnone : ∀ {l : Ledger} {i}, l.tree.touched = .empty →
      (l.tree.touched.contains i ↔ LinkedSince i [l]) := by
    intro l i hempty
    rw [hempty]
    refine ⟨fun hi => absurd hi Bool.false_ne_true, fun hi => ?_⟩
    cases hi with
    | later hpast => cases hpast
  generalize hall : l :: past = all at h
  induction h generalizing l past with
  | start =>
    cases hall
    exact fun _ => hnone rfl
  | @change clock prev l' past hprev hedit ih =>
    cases hall
    have hfits : prev.tree.Fits := hedit.tree.grows.fits fits
    have hprev' := ih hfits rfl
    have hlive : prev.TouchedLive := fun i hi => ((hprev' i).1 hi).live
    intro i
    rw [hedit.touched_iff (hprev.sound hfits) fits hlive, hprev' i]
    constructor
    · rintro (hlinks | ⟨hi, hi'⟩)
      · exact .linked hlinks
      · exact .later hi hi'
    · intro hi
      cases hi with
      | linked hlinks => exact .inl hlinks
      | later hi hi' => exact .inr ⟨hi, hi'⟩
  | take _ =>
    cases hall
    exact fun _ => hnone rfl

/-- Slots of records grow older from each moment to each later one. -/
theorem SinceTaken.ages (h : SinceTaken past) (fits : ∀ l ∈ past, l.tree.Fits)
    (few : ∀ l ∈ past, l.FewMade) :
    past.Pairwise fun l' l => l.tree.inodes.Ages l'.tree.inodes := by
  induction h with
  | start => exact List.pairwise_singleton _ _
  | @change clock prev l' past hprev hedit ih =>
    have hpast := ih (fun l hl => fits l (.tail _ hl)) fun l hl => few l (.tail _ hl)
    have hmem : prev ∈ l' :: prev :: past := .tail _ (.head _)
    have hlast := hedit.ages (hprev.sound (fits prev hmem)) (few prev hmem)
    refine hpast.cons fun l hl => ?_
    rcases List.mem_cons.1 hl with rfl | hl
    · exact hlast
    · exact (List.rel_of_pairwise_cons hpast hl).trans hlast
  | take _ => exact List.pairwise_singleton _ _

/-- While fewer than 2³² records are put in, a record that is in the tree is the one to which a name
was bound if it has the name of that. -/
theorem linkedSince_of_linkedIn (h : LinkedIn i (l :: past)) (hlive : l.tree.isLive i)
    (ages : (l :: past).Pairwise fun l' l => l.tree.inodes.Ages l'.tree.inodes) :
    LinkedSince i (l :: past) := by
  obtain ⟨later, l₀, prev, earlier, heq, hlinks⟩ := h
  induction later generalizing l past with
  | nil =>
    cases heq
    exact .linked hlinks
  | cons x later ih =>
    cases heq
    cases later with
    | nil => exact .later (.linked hlinks) hlive
    | cons m later =>
      have hmid : m.tree.isLive i := by
        have hm : l₀.tree.inodes.Ages m.tree.inodes :=
          List.rel_of_pairwise_cons ages.of_cons (by simp)
        have hx : m.tree.inodes.Ages x.tree.inodes := List.rel_of_pairwise_cons ages (by simp)
        exact hm.get?_between hx hlinks.live hlive
      exact .later (ih hmid ages.of_cons rfl) hlive

theorem LinkedSince.linkedIn (h : LinkedSince i past) : LinkedIn i past := by
  induction h with
  | linked hlinks => exact ⟨[], _, _, _, rfl, hlinks⟩
  | @later l past _ _ ih =>
    obtain ⟨later, l₀, prev, earlier, rfl, hlinks⟩ := ih
    exact ⟨l :: later, l₀, prev, earlier, rfl, hlinks⟩

theorem SinceTaken.fits (h : SinceTaken (l :: past)) (fits : l.tree.Fits) :
    ∀ m ∈ l :: past, m.tree.Fits := by
  generalize hall : l :: past = all at h
  induction h generalizing l past with
  | start =>
    cases hall
    simpa using fits
  | change _ hedit ih =>
    cases hall
    have hpast := ih (hedit.tree.grows.fits fits) rfl
    intro m hm
    rcases List.mem_cons.1 hm with rfl | hm
    · exact fits
    · exact hpast m hm
  | take _ =>
    cases hall
    simpa using fits

/-- Changes go on with the moments. -/
theorem SinceTaken.exists_edits (h : SinceTaken (l :: past)) (hedits : Edits {} clock l l') :
    ∃ new, SinceTaken (new ++ l :: past) ∧ (new ++ l :: past).head? = some l' := by
  induction hedits with
  | refl => exact ⟨[], h, rfl⟩
  | @tail m l' _ hlast ih =>
    obtain ⟨new, hnew, hhead⟩ := ih
    refine ⟨l' :: new, ?_, rfl⟩
    rw [List.cons_append]
    generalize new ++ l :: past = all at hnew hhead ⊢
    cases all with
    | nil => cases hhead
    | cons m' all =>
      cases hhead
      exact .change hnew hlast

end Ledger

namespace Tracker

open Ledger

variable {σ H : Type} {fs : Filesystem σ H} {w : Tracker σ} {past : List Ledger}

/-- The states that come up in a run over any filesystem in which touched records are taken now and
then, with the moments since they were last taken. Between the calls the filesystem and the clock
change arbitrarily. -/
inductive Polled (fs : Filesystem σ H) : Tracker σ → List Ledger → Prop
  | start {files : σ} {leases : Leases} {clock : Clock} {grace : Nat} :
    Polled fs ⟨files, leases, clock, { tree := { grace } }⟩ [{ tree := { grace } }]
  | call {w : Tracker σ} {past new : List Ledger} (strict : Bool) (c : Call H) :
    Polled fs w past → SinceTaken (new ++ past) →
      (new ++ past).head? = some (c.after fs strict w).ledger →
        Polled fs (c.after fs strict w) (new ++ past)
  | take {w : Tracker σ} {past : List Ledger} :
    Polled fs w past → Polled fs { w with ledger := w.ledger.taken } [w.ledger.taken]
  | elsewhere {w : Tracker σ} {past : List Ledger} {files : σ} {leases : Leases} {clock : Clock} :
    Polled fs w past → Polled fs { w with files, leases, clock } past

/-- The latest moment of the run is that of its state. -/
theorem Polled.sinceTaken (h : Polled fs w past) :
    ∃ earlier, past = w.ledger :: earlier ∧ SinceTaken (w.ledger :: earlier) := by
  induction h with
  | start => exact ⟨[], rfl, .start⟩
  | @call w past new strict c _ hsince hhead _ =>
    generalize new ++ past = all at hsince hhead ⊢
    cases all with
    | nil => cases hhead
    | cons l earlier =>
      cases hhead
      exact ⟨earlier, rfl, hsince⟩
  | take _ ih =>
    obtain ⟨earlier, -, hsince⟩ := ih
    exact ⟨[], rfl, .take hsince⟩
  | elsewhere _ ih => exact ih

/-- Every run goes on with every call. -/
theorem Polled.exists_call (h : Polled fs w past) (strict : Bool) (c : Call H) :
    ∃ new, Polled fs (c.after fs strict w) (new ++ past) := by
  obtain ⟨earlier, rfl, hsince⟩ := h.sinceTaken
  obtain ⟨new, hnew, hhead⟩ :=
    hsince.exists_edits (c.edits fs.vouches_trivial strict w trivial).edits
  exact ⟨new, .call strict c h hnew hhead⟩

/-- In every run, whatever the filesystem answers and whether calls fail, touched records are taken
in increasing order, and they are those to which a name was bound since they were last taken and
which have been in the tree ever since. If fewer than 2³² records were put in, they are just the
records in the tree to which a name was bound at one of the moments. Every call goes on with the
run. -/
theorem Polled.taken_exact (h : Polled fs w past) (fits : w.tree.Fits) :
    w.tree.takeTouched.1.Pairwise Below ∧
    (∀ i, i ∈ w.tree.takeTouched.1 ↔ LinkedSince i past) ∧
    ((∀ l ∈ past, l.FewMade) →
      ∀ i, i ∈ w.tree.takeTouched.1 ↔ w.tree.isLive i ∧ LinkedIn i past) ∧
    ∀ strict (c : Call H), ∃ new, Polled fs (c.after fs strict w) (new ++ past) := by
  have hcalls := fun strict c => h.exists_call strict c
  obtain ⟨earlier, rfl, hsince⟩ := h.sinceTaken
  have hmem : ∀ i, i ∈ w.tree.takeTouched.1 ↔ LinkedSince i (w.ledger :: earlier) := by
    intro i
    rw [Tree.mem_takeTouched, ← hsince.touched_iff fits, ← Tree.isLive_iff]
    exact and_iff_left_of_imp fun hi => ((hsince.touched_iff fits i).1 hi).live
  refine ⟨?_, hmem, fun few i => ?_, hcalls⟩
  · exact w.tree.touched.sorted.filter _
  · rw [hmem i]
    have hages := hsince.ages (hsince.fits fits) few
    exact ⟨fun hi => ⟨hi.live, hi.linkedIn⟩, fun hi => linkedSince_of_linkedIn hi.2 hi.1 hages⟩

/-! ### A file that came and went -/

/-- A tracker before it has found anything. -/
def aboutToScan : Tracker Disk :=
  ⟨Disk.empty.perform (.create (.ofString "/a")), {}, fun _ => 0, { tree := { grace := 1000 } }⟩

/-- It has found a file. -/
def arrivedFile : Tracker Disk :=
  Call.scanRoot.after Disk.filesystem false aboutToScan

/-- The file is gone, and its record waits. -/
def departedFile : Tracker Disk :=
  Call.scanRoot.after Disk.filesystem false { arrivedFile with files := .empty }

/-- The ledger when the records of the root and of the file have been put in. -/
def twoRecords : Ledger :=
  let rooted := (aboutToScan.ledger.insertRecord ⟨Disk.rootIno, Disk.directoryMode, .zero⟩
    (Disk.tokenOf 0)).2
  let mounted : Ledger := { rooted with tree := rooted.tree.setRoot ⟨⟨0, 0⟩⟩ }
  let scanned : Ledger := { mounted with tree := mounted.tree.refreshFingerprint ⟨⟨0, 0⟩⟩ .zero }
  let stamp : Seconds := .ofNat 1700000001
  (scanned.insertRecord ⟨101, 0o100644, ⟨0, stamp, stamp⟩⟩ (Disk.tokenOf 1)).2

/-- The ledger when the name of the file has been bound. -/
def boundName : Ledger :=
  match twoRecords.addEntry ⟨⟨0, 0⟩⟩ (.ofString "a") ⟨⟨1, 0⟩⟩ with
  | .ok (_, l) => l
  | .error _ => twoRecords

/-- The moments of the scan. -/
theorem polled_arrivedFile :
    ∃ past, Polled Disk.filesystem arrivedFile past ∧ ∀ l ∈ past, l.FewMade := by
  have hbind : twoRecords.addEntry ⟨⟨0, 0⟩⟩ (.ofString "a") ⟨⟨1, 0⟩⟩ =
    .ok (⟨⟨0, 0⟩⟩, boundName) := by decide +kernel
  have hrecords : SinceTaken (twoRecords :: ([_, _, _] ++ [aboutToScan.ledger])) :=
    .change (.change (.change (.change .start
      (@Edit.insert _ aboutToScan.clock _ _ _ trivial rfl))
      (@Edit.root _ aboutToScan.clock _ _ trivial)) (@Edit.refresh _ aboutToScan.clock _ _ _))
      (@Edit.insert _ aboutToScan.clock _ _ _ trivial rfl)
  have hbound := hrecords.change (@Edit.bind _ aboutToScan.clock _ _ _ _ _ _ trivial hbind)
  have hscanned := (hbound.change (@Edit.wait _ aboutToScan.clock _ ⟨⟨0, 0⟩⟩)).change
    (@Edit.note _ aboutToScan.clock _ (.scanned Path.root { directories := 1, linked := 1 }))
  refine ⟨[_, _, _, _, _, _, _] ++ [aboutToScan.ledger],
    .call false .scanRoot .start hscanned (by decide +kernel), ?_⟩
  simp only [List.cons_append, List.nil_append, List.forall_mem_cons]
  refine ⟨?_, ?_, ?_, ?_, ?_, ?_, ?_, ?_, by simp⟩ <;> decide +kernel

/-- The file is taken once it has been found, also if it is gone by then and its record waits. -/
theorem taken_exact_departedFile :
    (∃ past, Polled Disk.filesystem arrivedFile past ∧ arrivedFile.tree.Fits ∧
      arrivedFile.tree.takeTouched.1 = [⟨⟨1, 0⟩⟩] ∧ LinkedIn ⟨⟨1, 0⟩⟩ past) ∧
    ∃ past, Polled Disk.filesystem departedFile past ∧ departedFile.tree.Fits ∧
      departedFile.tree.takeTouched.1 = [⟨⟨1, 0⟩⟩] ∧ departedFile.tree.isOrphan ⟨⟨1, 0⟩⟩ ∧
        LinkedSince ⟨⟨1, 0⟩⟩ past := by
  have harrived : arrivedFile.tree.Fits := by decide +kernel
  have hdeparted : departedFile.tree.Fits := by decide +kernel
  have harrived' : arrivedFile.tree.takeTouched.1 = [⟨⟨1, 0⟩⟩] := by decide +kernel
  have hdeparted' : departedFile.tree.takeTouched.1 = [⟨⟨1, 0⟩⟩] := by decide +kernel
  obtain ⟨past, hpolled, few⟩ := polled_arrivedFile
  have hgone : Polled Disk.filesystem { arrivedFile with files := .empty } past := hpolled.elsewhere
  obtain ⟨new, hpolled'⟩ := hgone.exists_call false .scanRoot
  refine ⟨⟨past, hpolled, harrived, harrived', ?_⟩,
    ⟨new ++ past, hpolled', hdeparted, hdeparted', by decide +kernel, ?_⟩⟩
  · obtain ⟨-, -, hexact, -⟩ := hpolled.taken_exact harrived
    exact ((hexact few _).1 (harrived' ▸ List.mem_singleton_self _)).2
  · obtain ⟨-, hexact, -⟩ := hpolled'.taken_exact hdeparted
    have hmem : (⟨⟨1, 0⟩⟩ : InodeId) ∈ departedFile.tree.takeTouched.1 :=
      hdeparted' ▸ List.mem_singleton_self _
    exact (hexact _).1 hmem

end Tracker

end TreeWatch

import TreeWatch.Proofs.Agreement.Scan
import TreeWatch.Proofs.Garbage.Rescan
import TreeWatch.Proofs.Repeat.Settled

/-!
# Scanning again

A scan that gives a result leaves the tree in such a way that the same scan finds nothing to do when it is
run again: names that were right, bound, unbound or passed over are as they will be found.

## Main results

- `Tracker.settlesBelow_scanWithin` : whatever is done after a scan, the same scan rests
- `Tracker.Watched.scan_again` : a second scan changes nothing
-/

namespace TreeWatch

namespace View

variable {d : Disk} {present : Serial → Prop} {v v' : View} {p : InodeId} {s : Serial}
  {listing : List ListedEntry}

/-- All names bound in the record are listed. -/
def Lists (v : View) (p : InodeId) (listing : List ListedEntry) : Prop :=
  ∀ name i, v.child p name = some i → name ∈ (listing.filter (!·.isPseudo)).map (·.name)

/-- Names that updates bring in are listed. -/
theorem Updates.listed (hd : d.Distinguishes present) (h : Updates d present v v')
    (hlist : d.list s = .ok listing) (hp : v'.Holds d p s) {name : Bytes} {i : InodeId}
    (hi : v'.child p name = some i) :
    v.child p name = some i ∨ name ∈ (listing.filter (!·.isPseudo)).map (·.name) := by
  refine (Updates.child hd h hi).imp And.left ?_
  rintro ⟨s', o, hp', -, -, ho, -⟩
  obtain rfl := hp.serial_eq hd.regular hp'
  refine List.mem_map.2 ⟨⟨name, d.inoAt o⟩, List.mem_filter.2 ⟨Disk.mem_list hlist ho, ?_⟩, rfl⟩
  simpa [ListedEntry.isPseudo] using hd.regular.bound_proper ho

theorem Updates.lists (hd : d.Distinguishes present) (h : Updates d present v v')
    (hlist : d.list s = .ok listing) (hp : v'.Holds d p s) (hv : v.Lists p listing) :
    v'.Lists p listing :=
  fun name i hi => (Updates.listed hd h hlist hp hi).elim (hv name i) id

/-- Tokens tell objects apart, and so do numbers if the records with numbers of present objects have the
tokens of these. -/
theorem UpToDate.fresh (hd : d.Distinguishes present) (h : v.UpToDate d present) :
    v.Fresh d present := by
  intro i o s ho hs hino
  obtain ⟨a, n, ha, hn, haino, -⟩ := id ho
  obtain ⟨m, hm⟩ := hd.exists_node hs
  refine Disk.eq_of_tokenOf_eq (hd.regular.lt_capacity hn) (hd.regular.lt_capacity hm) ?_
  exact h i _ s ha hs ((ho.ino_eq ha).trans hino)

end View

namespace Tracker

open View

variable {σ : Type} {fs : Filesystem σ Serial} {d : Disk} {present : Serial → Prop}
  {strict : Bool} {w w' : Tracker σ} {s : Serial} {p : InodeId} {scanBelow : ScanBelow σ Serial}
  {listing : List ListedEntry}

/-- When the names that are gone have been unbound, those that are left are listed. -/
theorem lists_of_gone (hd : d.Distinguishes present) (hsound : w.tree.Sound)
    (hupdates : Updates d present w.tree.view w'.tree.view) (hlist : d.list s = .ok listing)
    (hp : w'.tree.view.Holds d p s)
    (hgone : ∀ e ∈ goneEntries w.tree p ((listing.filter (!·.isPseudo)).map (·.name)), ∀ b,
      w.tree.entryOf? e = some b → w'.tree.view.child p b.name = none) :
    w'.tree.view.Lists p listing := by
  intro name i hi
  refine (Updates.listed hd hupdates hlist hp hi).elim (fun hold => ?_) id
  by_contra hname
  obtain ⟨e, he⟩ := hsound.child?_eq_some_iff.1 hold
  obtain ⟨r, hr⟩ := hsound.parent_live he
  have hentry := (hsound.child_iff hr name e).2 ⟨_, he, rfl, rfl⟩
  have hnone := hgone e ((mem_goneEntries hr).2 ⟨name, hname, hentry⟩) _ he
  rw [hi] at hnone
  cases hnone

/-- Letting a record wait, if need be, leaves it no stray. -/
theorem beyond_of_orphanIfUnlinked (hsound : w.tree.Sound) (now : Instant)
    (hfiles : w'.files = w.files) (htree : w'.tree = (w.tree.orphanIfUnlinked p now).2) :
    Beyond d present w w' ∧ ¬w'.tree.Stray p := by
  have hview : w'.tree.view = w.tree.view := by rw [htree, Tree.view_orphanIfUnlinked]
  have hstrays : ∀ i, w'.tree.Stray i → w.tree.Stray i ∧ i ≠ p :=
    fun i hi => hsound.stray_orphanIfUnlinked (htree ▸ hi)
  refine ⟨⟨⟨hfiles, htree ▸ hsound.orphanIfUnlinked p now, hview ▸ .refl⟩, ?_⟩, ?_⟩
  · exact fun i hi => (hstrays i hi).1
  · exact fun hp => (hstrays p hp).2 rfl

section directory

variable (hd : d.Distinguishes present) (hbelow : SettlesBelow fs strict d present scanBelow)
  (hw : Poised fs strict d present w) (hs : present s) (hdir : d.isDirectory s)
include hd hbelow hw hs hdir

/-- A directory is brought in line with its listing, and its record is no stray afterwards. -/
theorem settles_applyListing (hp : w.tree.view.Holds d p s) (hsmall : ¬d.Oversized s)
    (hlist : d.list s = .ok listing) (recursive : Bool) :
    Does (applyListing fs strict scanBelow s p recursive listing) w False fun _ w' =>
      Beyond d present w w' ∧ ¬w'.tree.Stray p ∧
        Settled d present (applyListing fs strict scanBelow s p recursive listing) w' := by
  unfold applyListing
  refine .bind (settles_reconcileAll hd hbelow hw hp hs hdir hsmall fun _ =>
    sincere_of_list hd.regular _ p hlist) (fun _ =>
    .bind (.look _) fun _ => .bind (editsOnly_unbindAll _) fun _ => editsOnly_closeListing _ _) ?_
  rintro below w₁ ⟨hfirst, htidied⟩
  have hw₁ := hw.after hd hfirst.toWorked
  have hp₁ := Updates.holds hd.regular hfirst.updates hs hp
  refine .step (run_look _ _) ?_
  have hunbinds := (does_unbindGone hd hw₁.toReady hp₁ hs hsmall hlist rfl).swept
    (sweeps_unbindAll _ nothing) hw₁.standing
  refine .bind (hunbinds.weaken fun _ => trivial) (fun _ => editsOnly_closeListing _ _) ?_
  rintro removed w₂ ⟨⟨hwork, -, hgone⟩, hstrays⟩
  have hp₂ := Updates.holds hd.regular hwork.updates hs hp₁
  have hnames := lists_of_gone hd hw₁.sound hwork.updates hlist hp₂ hgone
  refine .step (run_edit _ _) (.step (run_look _ _) (.step (run_note _ _) (.pure ?_)))
  generalize hw₃ : ({ w₂ with ledger := _ } : Tracker σ) = w₃
  obtain ⟨hclosed, hwaits⟩ : Beyond d present w₂ w₃ ∧ ¬w₃.tree.Stray p :=
    beyond_of_orphanIfUnlinked hwork.sound (w₂.clock w₂.ledger.reads) (hw₃ ▸ rfl) (hw₃ ▸ rfl)
  have hlast : Beyond d present w₁ w₃ :=
    .trans ⟨hwork, fun i hi => (hstrays i hi).resolve_left id⟩ hclosed
  refine ⟨hfirst.trans hlast, hwaits, fun u hu => ?_⟩
  -- what follows is said of any state beyond the end of the scan
  have hlater := hlast.trans hu
  have hpu := Updates.holds hd.regular hlater.updates hs hp₁
  refine rests_applyListing hu.sound (fun e he u' hstill => ?_) ?_ fun hstray => ?_
  · have hlater' := hlater.trans (hstill.beyond hu.sound)
    have hready := hw₁.toReady.after hlater'.toWorked
    exact ((htidied e he).later hd hs hp₁ hready.truthful hlater').rests hready hdir
  · exact Updates.lists hd (hclosed.trans hu).updates hlist hpu hnames
  · exact hwaits (hu.strays p hstray)

/-- A directory whose record has been found. -/
theorem settles_scanRecord (hp : w.tree.view.Holds d p s) (hsmall : ¬d.Oversized s)
    (recursive : Bool) :
    Does (scanRecord fs strict scanBelow s p recursive) w False fun _ w' =>
      Beyond d present w w' ∧ ¬w'.tree.Stray p ∧
        Settled d present (scanRecord fs strict scanBelow s p recursive) w' := by
  have hagain : ∀ {w' u : Tracker σ}, Beyond d present w w' → Beyond d present w' u →
      (list fs s).run u = (d.list s, u) := fun hbeyond hu =>
    (hw.toReady.after (hbeyond.trans hu).toWorked).plain.run_list s
  unfold scanRecord
  refine .attempt_step (hw.plain.run_list s) ?_
  cases hlist : d.list s with
  | ok listing =>
    refine (settles_applyListing hd hbelow hw hs hdir hp hsmall hlist recursive).mono ?_
    rintro _ w' ⟨hbeyond, hwaits, hsettled⟩
    refine ⟨hbeyond, hwaits, fun u hu => .attempt_step (hagain hbeyond hu) (.refl u) ?_⟩
    rw [hlist]
    exact hsettled u hu
  | error e =>
    simp only
    split
    · next hvanished =>
      refine .step (run_look _ _) (.step (run_note _ _) (.step (run_edit _ _) (.pure ?_)))
      generalize hw' : ({ w with ledger := _ } : Tracker σ) = w'
      obtain ⟨hbeyond, hwaits⟩ : Beyond d present w w' ∧ ¬w'.tree.Stray p :=
        beyond_of_orphanIfUnlinked hw.sound (w.clock w.ledger.reads) (hw' ▸ rfl) (hw' ▸ rfl)
      refine ⟨hbeyond, hwaits, fun u hu => .attempt_step (hagain hbeyond hu) (.refl u) ?_⟩
      rw [hlist]
      simp only [hvanished, if_true]
      refine .step (run_look _ _) (.refl u) (.step (run_note _ _) (.noted u _) ?_)
      refine .step (run_edit _ _) ⟨rfl, ?_, rfl⟩ (.pure rfl)
      exact hu.sound.orphanIfUnlinked_of_not_stray (fun hp => hwaits (hu.strays p hp)) _
    · exact .throw _ id

theorem settles_scanDirectory (recursive : Bool) :
    Does (scanDirectory fs strict scanBelow s recursive) w False fun _ w' =>
      Beyond d present w w' ∧ Settled d present (scanDirectory fs strict scanBelow s recursive) w' := by
  have hsettled : ∀ {w' : Tracker σ}, Beyond d present w w' →
      (¬d.Oversized s → ∃ p, w'.tree.view.Current d p s ∧
        Settled d present (scanRecord fs strict scanBelow s p recursive) w') →
      Settled d present (scanDirectory fs strict scanBelow s recursive) w' := by
    intro w' hbeyond hrecord u hu
    have hready := hw.toReady.after (hbeyond.trans hu).toWorked
    refine rests_scanDirectory hready fun hsize => ?_
    obtain ⟨p, hp, hrests⟩ := hrecord hsize
    refine ⟨p, Updates.current hd.regular hu.updates hs hp, fun u' hstill => ?_⟩
    exact hrests u' (hu.trans (hstill.beyond hu.sound))
  unfold scanDirectory
  refine .releasing (P := fun _ w' => Beyond d present w w' ∧ (¬d.Oversized s → ∃ p,
    w'.tree.view.Current d p s ∧
      Settled d present (scanRecord fs strict scanBelow s p recursive) w')) ?_ ?_
  · by_cases hsize : d.Oversized s
    · refine .attempt_step (hw.plain.run_resolve_of_oversized hsize) (.step (run_note _ _) (.pure ?_))
      exact ⟨(Still.noted w _).beyond hw.sound, fun hnot => absurd hsize hnot⟩
    have hresolves := (does_resolve hd hw.toReady hs hsize).swept
      (sweeps_resolve fs.vouches_trivial s) hw.standing
    refine .attempt_bind hresolves
      (editsOnly_afterResolve fs.vouches_trivial strict hbelow.tame s recursive) ?_
      fun _ _ hfalse => absurd trivial hfalse
    rintro p w₁ ⟨⟨hwork, hfound⟩, hstrays⟩
    refine (settles_scanRecord hd hbelow (hw.after hd hwork) hs hdir hfound.current.holds hsize
      recursive).mono ?_
    rintro _ w' ⟨hbeyond, hwaits, hsettled⟩
    refine ⟨⟨hwork.trans hbeyond.toWorked, fun i hi => ?_⟩, fun _ => ⟨p, ?_, hsettled⟩⟩
    · -- a record that has just been put in is bound or waits in the end
      refine (hstrays i (hbeyond.strays i hi)).resolve_left ?_
      rintro rfl
      exact hwaits hi
    · exact Updates.current hd.regular hbeyond.updates hs hfound.current
  · rintro _ w' leases ⟨hbeyond, hrecord⟩
    have hreleased : Beyond d present w' { w' with leases } :=
      (Still.leases w' leases).beyond hbeyond.sound
    refine ⟨hbeyond.trans hreleased, hsettled (hbeyond.trans hreleased) fun hsize => ?_⟩
    exact (hrecord hsize).imp fun p hp => ⟨hp.1, hp.2.later hreleased⟩

end directory

/-- Whatever is done after a scan, the same scan rests. -/
theorem settlesBelow_scanWithin (hd : d.Distinguishes present) (depth : Nat) :
    SettlesBelow fs strict d present (scanWithin fs strict depth) := by
  induction depth with
  | zero =>
    refine ⟨fun c recursive => editsOnly_scanWithin fs.vouches_trivial strict 0 c recursive, ?_⟩
    intro c recursive w _ _ _
    refine .releasing (P := fun _ _ => False) (.throw _ id) ?_
    exact fun _ _ _ hfalse => hfalse.elim
  | succ depth ih =>
    refine ⟨fun c recursive => editsOnly_scanWithin fs.vouches_trivial strict _ c recursive, ?_⟩
    intro c recursive w hc hdir hw
    exact settles_scanDirectory hd ih hw hc hdir recursive

theorem settles_scan (hd : d.Distinguishes present) (hw : Poised fs strict d present w)
    (hs : present s) (hdir : d.isDirectory s) (recursive : Bool) :
    Does (scan fs strict s recursive) w False fun _ w' =>
      Beyond d present w w' ∧ Settled d present (scan fs strict s recursive) w' := by
  unfold scan
  refine .step (run_look _ w) ?_
  refine ((settlesBelow_scanWithin hd _).does hs hdir hw).mono ?_
  rintro _ w' ⟨hbeyond, hsettled⟩
  refine ⟨hbeyond, fun u hu => .step (run_look _ u) (.refl u) ?_⟩
  -- the depth allowed is the same
  rw [hu.files, hbeyond.files]
  exact hsettled u hu

theorem Watched.poised {w : Tracker ScriptedDisk} {handles : List Serial} (h : Watched w)
    (hclean : w.files.Clean) (hapart : w.files.disk.Apart handles)
    (htokens : strict = false → ∀ i r o, w.tree.record? i = some r →
      w.files.disk.Named o ∨ o ∈ handles → r.ino = w.files.disk.inoAt o → r.token = Disk.tokenOf o)
    (fits : w.tree.Fits) :
    Poised ScriptedDisk.filesystem strict w.files.disk
      (fun o => w.files.disk.Named o ∨ o ∈ handles) w where
  toReady := h.ready hclean fits
  root := by
    obtain ⟨left, hlittered⟩ := Reached.littered h
    obtain ⟨⟨n, hn, hino⟩, hstanding, -⟩ := hlittered.standing fits
    rw [Disk.inoAt_eq hn, hino]
    exact hstanding.root
  fresh hstrict := by
    refine UpToDate.fresh (hapart.distinguishes h.regular) fun i x o hx ho hino => ?_
    obtain ⟨r, hr, rfl⟩ := Tree.identity?_eq_some_iff.1 hx
    exact htokens hstrict i r o hr ho hino

/-- A second scan changes nothing. If a scan of a directory gives a result, then the same scan gives one
again, whenever it is run next as long as nothing else has happened: it binds and unbinds nothing, it
reports no observation, and it leaves the tree exactly as it was. If the scan is not strict, the records
with inode numbers of objects that have a name or are open must have the tokens of these objects. -/
theorem Watched.scan_again {w w' : Tracker ScriptedDisk} {handles : List Serial} {recursive : Bool}
    {summary : ScanSummary} (h : Watched w) (hclean : w.files.Clean)
    (hapart : w.files.disk.Apart handles) (hs : s ∈ handles) (hdir : w.files.disk.isDirectory s)
    (htokens : strict = false → ∀ i r o, w.tree.record? i = some r →
      w.files.disk.Named o ∨ o ∈ handles → r.ino = w.files.disk.inoAt o → r.token = Disk.tokenOf o)
    (hrun : (scan ScriptedDisk.filesystem strict s recursive).run w = (.ok summary, w'))
    (fits : w'.tree.Fits) (leases : Leases) (clock : Clock) :
    ∃ summary' w'', (scan ScriptedDisk.filesystem strict s recursive).run { w' with leases, clock } =
        (.ok summary', w'') ∧ summary'.linked = 0 ∧ summary'.unlinked = 0 ∧
      w''.ledger.journal = w'.ledger.journal ∧ w''.tree = w'.tree := by
  have hafter : (Call.scan s recursive).after ScriptedDisk.filesystem strict w = w' :=
    congrArg Prod.snd hrun
  have hgrows : w.tree.Grows w'.tree := hafter ▸ (Call.scan s recursive).grows strict w
  have hd := hapart.distinguishes h.regular
  have hsettles := settles_scan hd (h.poised hclean hapart htokens (hgrows.fits fits)) (.inr hs) hdir
    recursive
  unfold Does at hsettles
  rw [hrun] at hsettles
  obtain ⟨hbeyond, hsettled⟩ := hsettles fits
  have hmeanwhile : Beyond w.files.disk (fun o => w.files.disk.Named o ∨ o ∈ handles) w'
      { w' with leases, clock } := Still.beyond ⟨rfl, rfl, rfl⟩ hbeyond.sound
  obtain ⟨summary', w'', hagain, hunchanged, hstill⟩ := hsettled _ hmeanwhile
  obtain ⟨hlinked, hunlinked⟩ := ScanSummary.changed_eq_false_iff.1 hunchanged
  exact ⟨summary', w'', hagain, hlinked, hunlinked, hstill.journal, hstill.tree⟩

theorem apart_outdated : outdated.files.disk.Apart [Disk.rootSerial] :=
  watched_outdated.regular.apart (by decide +kernel) fun _ hs => .inl (List.mem_singleton.1 hs)

/-- No inode number has been used again. -/
theorem tokens_outdated {i : InodeId} {r : InodeRecord} {o : Serial}
    (hr : outdated.tree.record? i = some r)
    (ho : outdated.files.disk.Named o ∨ o ∈ [Disk.rootSerial])
    (hino : r.ino = outdated.files.disk.inoAt o) : r.token = Disk.tokenOf o := by
  have fits : outdated.tree.Fits := by decide +kernel
  have htokens : ∀ p ∈ outdated.tree.inodes.toList,
      ∀ o ∈ List.range outdated.files.disk.nodes.length,
        p.2.ino = outdated.files.disk.inoAt o → p.2.token = Disk.tokenOf o := by decide +kernel
  obtain ⟨n, hn⟩ := (apart_outdated.distinguishes watched_outdated.regular).exists_node ho
  exact htokens _ ((Arena.mem_toList fits.inodes).2 hr) o
    (List.mem_range.2 (List.getElem?_eq_some_iff.1 hn).1) hino

/-- The first scan binds two names, the second one none. -/
theorem scan_again_outdated :
    ∃ w₁ w₂ summary, (scan ScriptedDisk.filesystem false Disk.rootSerial true).run outdated =
        (.ok { directories := 3, fastPath := 2, skipped := 2, linked := 2 }, w₁) ∧
      (scan ScriptedDisk.filesystem false Disk.rootSerial true).run w₁ = (.ok summary, w₂) ∧
      summary.linked = 0 ∧ summary.unlinked = 0 ∧ w₂.ledger.journal = w₁.ledger.journal ∧
      w₂.tree = w₁.tree := by
  have hrun : (scan ScriptedDisk.filesystem false Disk.rootSerial true).run outdated =
      (.ok { directories := 3, fastPath := 2, skipped := 2, linked := 2 },
        ((scan ScriptedDisk.filesystem false Disk.rootSerial true).run outdated).2) :=
    Prod.ext (by decide +kernel) rfl
  have fits : ((scan ScriptedDisk.filesystem false Disk.rootSerial true).run outdated).2.tree.Fits := by
    decide +kernel
  generalize ((scan ScriptedDisk.filesystem false Disk.rootSerial true).run outdated).2 = w₁ at hrun fits
  obtain ⟨summary, w₂, hagain⟩ := watched_outdated.scan_again clean_outdated apart_outdated
    (List.mem_singleton_self _) (by decide +kernel) (fun _ _ _ _ => tokens_outdated) hrun fits
    w₁.leases w₁.clock
  exact ⟨w₁, w₂, summary, hrun, hagain⟩

end Tracker

end TreeWatch

import TreeWatch.Proofs.Mirror.Convergence
import TreeWatch.Proofs.Mirror.Survey
import TreeWatch.Proofs.Mirror.Unrefused

/-!
# Runs in which nothing is refused

A disk is watched from its beginning. Between the calls operations happen on it, some of which mark
objects as oversized, make directories list what is not there or make them impossible to list. Handles may
be those of directories that have been deleted since. Calls may fail, but never because the tree refuses
what they ask for.

## Main definitions

- `Tracker.Tended` : the states that come up in such a run
- `Tracker.Call.Refused` : a call fails because the tree refuses something

## Main results

- `Tracker.Call.behaves` : what holds of one call from any state in shape
- `Tracker.Tended.inShape` : what holds of all states of a run
- `Tracker.Tended.not_refused` : no call is refused anything, and no error is ever reported

## Design notes

Errors in the log are as good as refusals: a number that another record still has when a record is put in,
an entry that is not there when a record is destroyed, and a tree that is found inconsistent are reported
there and nowhere else.
-/

namespace TreeWatch

/-- The tree refused a change. -/
def WatchError.IsRefusal : WatchError → Prop
  | .scan e | .queueOverflow e | .baseline e => e.IsRefusal
  | _ => False

namespace Disk

variable {d d' : Disk} {op : Operation} {handles : List Serial}

/-- Marking an object makes no circle, and no more does an orderly operation. -/
theorem Operation.acyclic (hop : op.apply d = .ok d') (horderly : op.marks = true ∨ op.Orderly d)
    (hd : d.Regular) (hacyclic : d.Acyclic) : d'.Acyclic := by
  rcases horderly with hmarks | horderly
  · have hnone : op.added d = none := by
      cases op with
      | markOversized _ => rfl
      | addPhantom _ _ _ => rfl
      | failListing _ => rfl
      | _ => cases hmarks
    have hedge : ∀ a s, op.added d = some (a, s) → ¬d.Below s a := by
      intro a s hadded
      rw [hnone] at hadded
      cases hadded
    exact fun c hcircle =>
      hacyclic c (transGen_of_edge (Operation.subdirectory_back hop hd) hedge hcircle)
  · exact horderly.acyclic hop hd hacyclic

theorem Unrepeated.apart (h : d.Unrepeated) (hd : d.Regular)
    (hhandles : ∀ s ∈ handles, ∃ n, d.node? s = some n) : d.Apart handles := by
  have hnode : ∀ s, d.Named s ∨ s ∈ handles → ∃ n, d.node? s = some n :=
    fun s hs => hs.elim hd.exists_node_of_named (hhandles s)
  refine ⟨hhandles, fun s s' hs hs' hino => ?_⟩
  obtain ⟨n, hn⟩ := hnode s hs
  obtain ⟨n', hn'⟩ := hnode s' hs'
  rw [inoAt_eq hn, inoAt_eq hn'] at hino
  exact h.eq_of_ino_eq hn hn' hino

end Disk

namespace Tracker

open View

variable {σ ε : Type} {fs : Filesystem σ Serial} {d : Disk} {present : Serial → Prop} {strict : Bool}
  {w w' w'' : Tracker σ} {n : Notification Serial} {batch : List (Notification Serial)}

/-! ### Calls -/

/-- The handles that a call comes with. -/
def Call.handles : Call Serial → List Serial
  | .processBatch batch => handlesOf batch
  | .scan directory _ => [directory]
  | .baseline | .rescanRoots | .scanRoot => []

/-- The call fails because the tree refuses something. -/
def Call.Refused {H : Type} (fs : Filesystem σ H) (strict : Bool) (c : Call H) (w : Tracker σ) : Prop :=
  match c with
  | .baseline => ∃ e, ((Tracker.baseline fs strict).run w).1 = .error e ∧ e.IsRefusal
  | .rescanRoots => ∃ e, ((Tracker.rescanRoots fs strict).run w).1 = .error e ∧ e.IsRefusal
  | .processBatch batch => ∃ e, ((Tracker.processBatch fs strict batch).run w).1 = .error e ∧ e.IsRefusal
  | .scan directory recursive =>
    ∃ e, ((Tracker.scan fs strict directory recursive).run w).1 = .error e ∧ e.IsRefusal
  | .scanRoot => ∃ e, ((Tracker.scanRoot fs strict).run w).1 = .error e ∧ e.IsRefusal

/-- The filesystem is as it was, the tracker is in shape, and new names are names on the disk. -/
structure Kept (fs : Filesystem σ Serial) (d : Disk) (w w' : Tracker σ) : Prop where
  files : w'.files = w.files
  shape : InShape fs d w'
  child_back : ∀ i name c, w'.tree.child? i name = some c →
    w.tree.child? i name = some c ∨ ∃ s o, d.child? s name = some o

theorem Kept.trans (h : Kept fs d w w') (h' : Kept fs d w' w'') : Kept fs d w w'' where
  files := h'.files.trans h.files
  shape := h'.shape
  child_back i name c hc := (h'.child_back i name c hc).elim (h.child_back i name c) .inr

theorem Kept.of_tree_eq (h : Kept fs d w w') (hfiles : w''.files = w'.files)
    (htree : w''.tree = w'.tree) : Kept fs d w w'' :=
  ⟨hfiles.trans h.files, h.shape.of_tree_eq hfiles htree, htree ▸ h.child_back⟩

theorem InShape.kept (h : InShape fs d w) : Kept fs d w w := ⟨rfl, h, fun _ _ _ => .inl⟩

theorem InShape.kept_of_worked (hd : d.Distinguishes present) (hstraight : d.Straight)
    (h : InShape fs d w) (hwork : Worked d present w w') : Kept fs d w w' where
  files := hwork.files
  shape := h.after hd hstraight hwork
  child_back i name c hc := by
    rcases View.Updates.child hd hwork.updates hc with ⟨hold, -⟩ | ⟨s, o, -, -, -, ho, -⟩
    · exact .inl hold
    · exact .inr ⟨s, o, ho⟩

/-- Reclaiming leaves no name that leads back. -/
theorem InShape.of_pruned (h : InShape fs d w) (hfiles : w'.files = w.files)
    (hpruned : Tree.Pruned w.tree w'.tree) : InShape fs d w' where
  plain := hfiles ▸ h.plain
  sound := hpruned.sound
  truthful := hpruned.truthful h.truthful
  straight i name hname := h.straight i name (hpruned.child?_back hname)

theorem behaves_reclaimNow (hw : InShape fs d w) {barred : ε → Prop} :
    Behaves (reclaimNow : Track σ ε Nat) w barred (Kept fs d w) := by
  refine .of_does ((does_reclaimNow hw.sound).mono ?_) (.of_log_eq (Ledger.log_reclaim hw.sound))
  exact fun _ w' ⟨hfiles, hpruned⟩ =>
    ⟨hfiles, hw.of_pruned hfiles hpruned, fun _ _ _ hc => .inl (hpruned.child?_back hc)⟩

/-- Some part of a call has been run, and another one follows. -/
theorem Behaves.then {α β : Type} {x : Track σ ε α} {f : α → Track σ ε β} {barred : ε → Prop}
    (hx : Behaves x w barred (Kept fs d w)) (htame : ∀ a, Tame (f a))
    (hf : ∀ a w', InShape fs d w' → Behaves (f a) w' barred (Kept fs d w')) :
    Behaves (x >>= f) w barred (Kept fs d w) :=
  .bind hx (.trivial _ _) htame fun a w' hkept _ => (hf a w' hkept.shape).mono fun _ h => hkept.trans h

theorem behaves_releaseObject {barred : ε → Prop} (hw : InShape fs d w) (n : Notification Serial) :
    Behaves (releaseObject n : Track σ ε Unit) w barred (Kept fs d w) := by
  unfold releaseObject
  cases n.object with
  | none => exact .pure hw.kept
  | some _ => exact fun _ => ⟨.refl, hw.kept.of_tree_eq rfl rfl, nofun⟩

theorem behaves_note {barred : ε → Prop} (hw : InShape fs d w) {event : LogEvent}
    (h : event.level ≠ .error) : Behaves (note event : Track σ ε Unit) w barred (Kept fs d w) :=
  fun _ => ⟨.note h, hw.kept.of_tree_eq rfl rfl, nofun⟩

section calls

variable (hd : d.Distinguishes present) (hstraight : d.Straight)
include hd hstraight

theorem behaves_rescanRoots (hw : InShape fs d w) :
    Behaves (rescanRoots fs strict) w ScanError.IsRefusal (Kept fs d w) := by
  have hscan := behaves_scanRoot strict hd hstraight hw
  refine (hscan.mono fun _ h => hw.kept_of_worked hd hstraight h).then
    (fun _ => .bind editsOnly_reclaimNow fun _ => .pure _) fun _ w₁ hw₁ => ?_
  exact (behaves_reclaimNow hw₁).then (fun _ => .pure _) fun _ _ h => .pure h.kept

/-- The check after the first scan finds nothing wrong. -/
theorem behaves_baseline (hw : InShape fs d w) :
    Behaves (baseline fs strict) w WatchError.IsRefusal (Kept fs d w) := by
  have hrescan : Behaves (wrapping WatchError.baseline (rescanRoots fs strict)) w WatchError.IsRefusal
      (Kept fs d w) := .wrapping (behaves_rescanRoots hd hstraight hw) fun _ h => h
  refine hrescan.then (fun _ => .bind (.look _) fun _ => .bind (.note _) fun _ => .bind (.look _)
    fun verdict => ?_) fun summary w₁ hw₁ => ?_
  · split
    · exact .pure _
    · exact .bind (.note _) fun _ => .pure _
  refine .step (run_look _ _) .refl (.step (run_note _ _) (.note nofun) (.step (run_look _ _) .refl ?_))
  split
  · exact .pure (hw₁.kept.of_tree_eq rfl rfl)
  · next e hcheck =>
    -- the tree is sound, and the verdict does not change it
    intro fits
    cases hcheck.symm.trans (hw₁.sound.checkConsistency_eq_ok fits)

theorem behaves_handle (hw : InShape fs d w) (hpresent : ∀ s, n.object = some s → present s) :
    Behaves (handle fs strict n) w WatchError.IsRefusal (Kept fs d w) := by
  have hrelease : ∀ {α : Type} {f : Unit → Track σ WatchError α} {w₁ : Tracker σ}, InShape fs d w₁ →
      (∀ a, Tame (f a)) → (∀ a w', InShape fs d w' → Behaves (f a) w' WatchError.IsRefusal
        (Kept fs d w')) → Behaves (releaseObject n >>= f) w₁ WatchError.IsRefusal (Kept fs d w₁) :=
    fun hw₁ htame hf => (behaves_releaseObject hw₁ n).then htame hf
  unfold handle
  split
  · exact hrelease hw (fun _ => .throw _) fun _ _ h => .throw h.kept id
  · split
    · next directory _ hobject =>
      have hscan := behaves_scan strict hd hstraight hw (hpresent directory hobject) false
      exact .wrapping (hscan.mono fun _ h => hw.kept_of_worked hd hstraight h) fun _ h => h
    · have htame := tame_afterRescan (σ := σ) n
      refine (behaves_note hw (by rintro ⟨⟩)).then (fun _ => .bind (.attempt
        (editsOnly_rescanRoots fs.vouches_trivial strict)) htame) fun _ w₁ hw₁ => ?_
      refine .attempt_bind (behaves_rescanRoots hd hstraight hw₁) (.trivial _ _) htame ?_ ?_
      · intro summary w₂ hkept _
        exact (hrelease hkept.shape (fun _ => .pure _) fun _ _ h => .pure h.kept).mono
          fun _ h => hkept.trans h
      · intro e w₂ hkept he
        have hbarred : ¬(WatchError.queueOverflow e).IsRefusal := he
        exact (hrelease hkept.shape (fun _ => .throw _) fun _ _ h => .throw h.kept hbarred).mono
          fun _ h => hkept.trans h
    · refine (behaves_note hw (by rintro ⟨⟩)).then
        (fun _ => .bind (editsOnly_releaseObject n) fun _ => .pure _) fun _ w₁ hw₁ => ?_
      exact hrelease hw₁ (fun _ => .pure _) fun _ _ h => .pure h.kept

/-- Notifications, one after another, until one fails. -/
theorem behaves_handleAll (hw : InShape fs d w)
    (hpresent : ∀ n ∈ batch, ∀ s, n.object = some s → present s) :
    Behaves (handleAll fs strict batch) w WatchError.IsRefusal (Kept fs d w) := by
  have hforM : ∀ (rest : List (Notification Serial)) (w₁ : Tracker σ), InShape fs d w₁ →
      Behaves (rest.forM releaseObject : Track σ WatchError PUnit) w₁ WatchError.IsRefusal
        (Kept fs d w₁) := by
    intro rest
    induction rest with
    | nil => exact fun w₁ hw₁ => .pure hw₁.kept
    | cons n rest ih =>
      exact fun w₁ hw₁ => (behaves_releaseObject hw₁ n).then
        (fun _ => editsOnly_forM_releaseObject rest) fun _ w₂ hw₂ => ih w₂ hw₂
  induction batch generalizing w with
  | nil => exact .pure hw.kept
  | cons n rest ih =>
    obtain ⟨hfirst, hothers⟩ := List.forall_mem_cons.1 hpresent
    refine .attempt_bind (behaves_handle hd hstraight hw hfirst) (.trivial _ _)
      (editsOnly_afterHandle strict (editsOnly_handleAll fs.vouches_trivial strict rest)) ?_ ?_
    · intro first w₁ hkept _
      refine ((ih hkept.shape hothers).then (fun _ => .pure _) fun _ _ h => .pure h.kept).mono ?_
      exact fun _ h => hkept.trans h
    · intro e w₁ hkept he
      refine ((hforM rest w₁ hkept.shape).then (fun _ => .throw _) fun _ _ h => .throw h.kept he).mono ?_
      exact fun _ h => hkept.trans h

theorem behaves_processBatch (hw : InShape fs d w)
    (hpresent : ∀ n ∈ batch, ∀ s, n.object = some s → present s) :
    Behaves (processBatch fs strict batch) w WatchError.IsRefusal (Kept fs d w) := by
  rw [processBatch_eq]
  refine (behaves_handleAll hd hstraight hw hpresent).then editsOnly_afterBatch fun summary w₁ hw₁ => ?_
  refine (behaves_reclaimNow hw₁).then (fun count => ?_) fun count w₂ hw₂ => ?_
  · split
    · exact .bind (.note _) fun _ => .pure _
    · exact .pure _
  · split
    · exact (behaves_note hw₂ (by rintro ⟨⟩)).then (fun _ => .pure _) fun _ _ h => .pure h.kept
    · exact .pure hw₂.kept

/-- Begun in shape, a call is refused nothing, reports no error and leaves the tracker in shape, also if it
fails. -/
theorem Call.behaves (hw : InShape fs d w) (strict : Bool) (c : Call Serial)
    (hpresent : ∀ s ∈ c.handles, present s) (fits : (c.after fs strict w).tree.Fits) :
    ¬c.Refused fs strict w ∧ w.ledger.Quiet (c.after fs strict w).ledger ∧
      Kept fs d w (c.after fs strict w) := by
  have hnot : ∀ {ε α : Type} {x : Track σ ε α} {barred : ε → Prop},
      Behaves x w barred (Kept fs d w) → (x.run w).2.tree.Fits →
        (¬∃ e, (x.run w).1 = .error e ∧ barred e) ∧ w.ledger.Quiet (x.run w).2.ledger ∧
          Kept fs d w (x.run w).2 := by
    intro ε α x barred hx hfits
    obtain ⟨hquiet, hkept, herror⟩ := hx hfits
    exact ⟨fun ⟨e, he, hbarred⟩ => herror e he hbarred, hquiet, hkept⟩
  cases c with
  | baseline => exact hnot (behaves_baseline hd hstraight hw) fits
  | rescanRoots => exact hnot (behaves_rescanRoots hd hstraight hw) fits
  | processBatch batch =>
    refine hnot (behaves_processBatch hd hstraight hw fun n hn s hs => hpresent s ?_) fits
    exact List.mem_filterMap.2 ⟨n, hn, hs⟩
  | scan directory recursive =>
    have hscan := behaves_scan strict hd hstraight hw
      (hpresent directory (List.mem_singleton_self _)) recursive
    exact hnot (hscan.mono fun _ h => hw.kept_of_worked hd hstraight h) fits
  | scanRoot =>
    have hscan := behaves_scanRoot strict hd hstraight hw
    exact hnot (hscan.mono fun _ h => hw.kept_of_worked hd hstraight h) fits

end calls

/-! ### Runs -/

/-- The states that come up while a disk is watched that was empty at first. Directories get no second name
and are not moved into themselves or below, and whenever a call is made, no two objects share an inode
number that have a name or an open handle. Calls may be strict or not, and they may fail. -/
inductive Tended : Tracker Disk → Prop
  | start {leases : Leases} {clock : Clock} {grace : Nat} :
    Tended ⟨.empty, leases, clock, { tree := { grace } }⟩
  | call {w : Tracker Disk} (strict : Bool) (c : Call Serial) :
    Tended w → w.files.Apart c.handles → Tended (c.after Disk.filesystem strict w)
  | operate {w : Tracker Disk} {op : Disk.Operation} {d' : Disk} :
    Tended w → op.marks = true ∨ op.Orderly w.files → op.apply w.files = .ok d' →
      Tended { w with files := d' }
  | wait {w : Tracker Disk} {leases : Leases} {clock : Clock} :
    Tended w → Tended { w with leases, clock }

variable {t : Tracker Disk}

theorem InShape.operate {d' : Disk} (h : InShape Disk.filesystem t.files t)
    (hkeeps : t.files.Keeps d') : InShape Disk.filesystem d' { t with files := d' } :=
  ⟨⟨Disk.plain d', h.sound, h.truthful.of_keeps hkeeps⟩, h.straight⟩

theorem Call.files_after (strict : Bool) (c : Call Serial) (w : Tracker Disk) :
    (c.after Disk.filesystem strict w).files = w.files :=
  (c.edits (Disk.vouches (· = w.files)) strict w rfl).files

/-- In every state of a run the disk is in order. If the tree fits its slot numbers, the tracker is in
shape, and no error has been reported. -/
theorem Tended.inShape (h : Tended t) : t.files.Regular ∧ t.files.Acyclic ∧
    (t.tree.Fits → InShape Disk.filesystem t.files t ∧ ∀ e ∈ t.ledger.log, e.level ≠ .error) := by
  induction h with
  | @start leases clock grace =>
    refine ⟨Disk.regular_empty, Disk.acyclic_empty, fun _ => ⟨?_, fun e he => by cases he⟩⟩
    refine ⟨⟨Disk.plain _, Tree.sound_empty grace, fun i x hx => ?_⟩, fun i name hname => ?_⟩
    · cases hx
    · cases hname
  | @call w strict c _ hapart ih =>
    obtain ⟨hregular, hacyclic, hshape⟩ := ih
    have hd := hapart.distinguishes hregular
    rw [c.files_after]
    refine ⟨hregular, hacyclic, fun fits => ?_⟩
    obtain ⟨hw, hlog⟩ := hshape ((c.grows strict w).fits fits)
    obtain ⟨-, hquiet, hkept⟩ := Call.behaves hd hacyclic.straight hw strict c (fun _ => .inr) fits
    exact ⟨hkept.shape, fun e he => (hquiet e he).elim (hlog e) id⟩
  | @operate w op d' _ horderly hop ih =>
    obtain ⟨hregular, hacyclic, hshape⟩ := ih
    refine ⟨Disk.Operation.regular hop hregular, Disk.Operation.acyclic hop horderly hregular hacyclic,
      fun fits => ?_⟩
    obtain ⟨hw, hlog⟩ := hshape fits
    exact ⟨hw.operate (Disk.Operation.keeps hop), hlog⟩
  | wait _ ih =>
    obtain ⟨hregular, hacyclic, hshape⟩ := ih
    refine ⟨hregular, hacyclic, fun fits => ?_⟩
    obtain ⟨hw, hlog⟩ := hshape fits
    exact ⟨hw.of_tree_eq rfl rfl, hlog⟩

/-- No call of a run fails because the tree refuses something, and neither before it nor in its course is
an error reported. -/
theorem Tended.not_refused (h : Tended t) (strict : Bool) (c : Call Serial)
    (hapart : t.files.Apart c.handles) (fits : (c.after Disk.filesystem strict t).tree.Fits) :
    ¬c.Refused Disk.filesystem strict t ∧
      ∀ e ∈ (c.after Disk.filesystem strict t).ledger.log, e.level ≠ .error := by
  obtain ⟨hregular, hacyclic, hshape⟩ := h.inShape
  have hd := hapart.distinguishes hregular
  obtain ⟨hw, -⟩ := hshape ((c.grows strict t).fits fits)
  obtain ⟨hnot, -⟩ := Call.behaves hd hacyclic.straight hw strict c (fun _ => .inr) fits
  exact ⟨hnot, (((Tended.call strict c h hapart).inShape).2.2 fits).2⟩

/-- Any number of operations may happen between two calls; those that fail do nothing. -/
theorem Tended.perform (h : Tended t) (ops : List Disk.Operation)
    (horderly : ∀ op ∈ ops, op.marks = true ∨ ∀ d, op.Orderly d) :
    Tended { t with files := ops.foldl Disk.perform t.files } := by
  induction ops generalizing t with
  | nil => exact h
  | cons op rest ih =>
    obtain ⟨hfirst, hrest⟩ := List.forall_mem_cons.1 horderly
    have hnext : Tended { t with files := t.files.perform op } := by
      rcases t.files.perform_cases op with hsame | hop
      · rw [hsame]
        exact h
      · exact .operate h (hfirst.imp_right fun hall => hall _) hop
    exact ih hnext hrest

/-- A directory with another one inside, an object whose token is too large, and a name that is listed
but not there. -/
def thicket : List Disk.Operation :=
  [.mkdir (.ofString "/a"), .mkdir (.ofString "/a/b"), .create (.ofString "/a/b/f"),
    .create (.ofString "/a/o"), .markOversized (.ofString "/a/o"),
    .addPhantom (.ofString "/a") (.ofString "ghost") 7]

/-- The directory inside is deleted, and another one cannot be listed. -/
def thinning : List Disk.Operation :=
  [.remove (.ofString "/a/b/f"), .remove (.ofString "/a/b"), .mkdir (.ofString "/c"),
    .failListing (.ofString "/c")]

/-- A tracker that has scanned a disk and has not heard of what happened to it since. -/
def beforeThinning : Tracker Disk :=
  Call.baseline.after Disk.filesystem false
    ⟨thicket.foldl Disk.perform .empty, {}, fun _ => 0, { tree := { grace := 1 } }⟩

/-- Notifications about the directory, about the deleted one and about the root. The last scan fails
because the new directory cannot be listed, and nothing is refused even so. -/
theorem not_refused_thinning :
    let t := { beforeThinning with files := thinning.foldl Disk.perform beforeThinning.files }
    let batch := Call.processBatch [modified 1, modified 2, modified 0]
    Tended t ∧ t.files.Apart batch.handles ∧ (batch.after Disk.filesystem true t).tree.Fits ∧
      ¬batch.Refused Disk.filesystem true t ∧
      ∀ e ∈ (batch.after Disk.filesystem true t).ledger.log, e.level ≠ .error := by
  intro t batch
  have hstart : Tended ⟨thicket.foldl Disk.perform .empty, {}, fun _ => 0, { tree := { grace := 1 } }⟩ :=
    Tended.start.perform thicket (by simp [thicket, Disk.Operation.marks, Disk.Operation.Orderly])
  have hunrepeated : (thicket.foldl Disk.perform .empty).Unrepeated := by decide +kernel
  have hscanned : Tended beforeThinning :=
    .call false .baseline hstart (hunrepeated.apart hstart.inShape.1 nofun)
  have htended : Tended t :=
    hscanned.perform thinning (by simp [thinning, Disk.Operation.marks, Disk.Operation.Orderly])
  have hnumbers : t.files.Unrepeated := by decide +kernel
  have hnodes : ∀ s ∈ batch.handles, (t.files.node? s).isSome := by decide +kernel
  have hapart : t.files.Apart batch.handles :=
    hnumbers.apart htended.inShape.1 fun s hs => Option.isSome_iff_exists.1 (hnodes s hs)
  have fits : (batch.after Disk.filesystem true t).tree.Fits := by decide +kernel
  exact ⟨htended, hapart, fits, htended.not_refused true batch hapart fits⟩

end Tracker

end TreeWatch

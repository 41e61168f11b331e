import TreeWatch.Proofs.Mirror.Quiet
import TreeWatch.Proofs.Mirror.Scan

/-!
# Nothing that a scan asks for is refused

The tree refuses to bind a name that is bound already or in a record that is none of a directory, and to
take out an entry that is not there. A scan of a plain disk never asks for that. It may fail for other
reasons all the same, and is then given up midway.

## Main definitions

- `ScanError.IsRefusal` : a scan was given up because the tree refused something
- `Tracker.InShape` : the tracker can begin to work, and no name leads back
- `Tracker.Behaves` : from a state on, a computation goes well or fails for other reasons

## Main results

- `Tracker.Behaves.bind`, `Tracker.Behaves.attempt_bind` and so on : one rule for each way to build a
  computation
- `Tracker.behaves_scan`, `Tracker.behaves_scanRoot` : scans behave

## Design notes

What a part of a scan achieves is known from `Tracker.Does`, which says nothing of the state after a
failure. Here the state is told whatever comes of the computation, and `Behaves.bind` takes what is known
of a result from there.
-/

namespace TreeWatch

/-- The tree refused a change. -/
def ScanError.IsRefusal : ScanError → Prop
  | .tree _ => True
  | _ => False

namespace Disk

/-- No directory has a name inside itself. -/
def Straight (d : Disk) : Prop := ∀ s name, d.child? s name ≠ some s

theorem Acyclic.straight {d : Disk} (h : d.Acyclic) : d.Straight := by
  intro s name hname
  exact h s (.single ⟨⟨name, hname⟩, isDirectory_of_child? hname⟩)

end Disk

/-- Names that updates add lead from a directory to something else. -/
theorem View.Updates.straight {d : Disk} {present : Serial → Prop} {v v' : View}
    (hd : d.Distinguishes present) (hstraight : d.Straight) (h : Updates d present v v')
    (hv : v.Straight) : v'.Straight := by
  intro i name hname
  rcases View.Updates.child hd h hname with ⟨hold, -⟩ | ⟨s, o, hs, -, -, ho, hio⟩
  · exact hv i name hold
  · obtain rfl := hs.serial_eq hd.regular hio
    exact hstraight s name ho

theorem Filesystem.Plain.run_wrapped_openChild {σ : Type} {fs : Filesystem σ Serial} {d : Disk}
    {w : Tracker σ} {s : Serial} (h : fs.Plain w.files d) (hdir : d.isDirectory s) (name : Bytes) :
    ∃ leases, (Tracker.wrapping ScanError.call (Tracker.openChild fs s name)).run w =
      (.ok (d.child? s name), { w with leases }) := by
  obtain ⟨leases, hopen⟩ := h.run_openChild hdir name
  exact ⟨leases, by rw [Tracker.run_wrapping, hopen]⟩

namespace Tracker

open View

variable {σ ε ε' α β : Type}

/-! ### Computations that behave -/

/-- Begun in `w`, the computation leads to a state as told, also if it fails; it does not fail for a reason
that is ruled out, and it reports nothing at the level of errors. Nothing is said if the tree does not fit
its slot numbers at the end. -/
def Behaves (x : Track σ ε α) (w : Tracker σ) (barred : ε → Prop) (Q : Tracker σ → Prop) : Prop :=
  (x.run w).2.tree.Fits →
    w.ledger.Quiet (x.run w).2.ledger ∧ Q (x.run w).2 ∧ ∀ e, (x.run w).1 = .error e → ¬barred e

theorem Does.trivial (x : Track σ ε α) (w : Tracker σ) : Does x w False fun _ _ => True := by
  intro _
  cases (x.run w).1 with
  | ok a => trivial
  | error e => exact id

namespace Behaves

variable {w w' : Tracker σ} {barred : ε → Prop} {barred' : ε' → Prop} {P Q : Tracker σ → Prop}
  {R : α → Tracker σ → Prop}

protected theorem pure {a : α} (h : Q w) : Behaves (pure a : Track σ ε α) w barred Q :=
  fun _ => ⟨.refl, h, nofun⟩

protected theorem throw {e : ε} (h : Q w) (he : ¬barred e) :
    Behaves (throw e : Track σ ε α) w barred Q := by
  refine fun _ => ⟨.refl, h, ?_⟩
  rintro _ ⟨⟩
  exact he

theorem mono {x : Track σ ε α} (h : Behaves x w barred P) (hPQ : ∀ w', P w' → Q w') :
    Behaves x w barred Q :=
  fun fits => ⟨(h fits).1, hPQ _ (h fits).2.1, (h fits).2.2⟩

/-- What never fails behaves if it reports no error. -/
theorem of_does {x : Track σ ε α} (h : Does x w True fun _ w' => Q w')
    (hquiet : w.ledger.Quiet (x.run w).2.ledger) : Behaves x w barred Q := by
  intro fits
  obtain ⟨a, w', hrun, hQ⟩ := h.run_eq fits
  rw [hrun] at hquiet ⊢
  exact ⟨hquiet, hQ, nofun⟩

/-- Of the result of the first part all is known that it achieves. -/
theorem bind {x : Track σ ε α} {f : α → Track σ ε β} (hx : Behaves x w barred Q)
    (hdoes : Does x w False R) (htame : ∀ a, Tame (f a))
    (hf : ∀ a w', Q w' → R a w' → Behaves (f a) w' barred Q) : Behaves (x >>= f) w barred Q := by
  intro fits
  unfold Behaves at hx
  unfold Does at hdoes
  rw [run_bind] at fits ⊢
  generalize x.run w = outcome at hx hdoes fits ⊢
  obtain ⟨r, w'⟩ := outcome
  cases r with
  | error e => exact ⟨(hx fits).1, (hx fits).2.1, fun e' h => by cases h; exact (hx fits).2.2 e rfl⟩
  | ok a =>
    have hmid : w'.tree.Fits := ((htame a).grows w').fits fits
    obtain ⟨hquiet, hQ, herror⟩ := hf a w' (hx hmid).2.1 (hdoes hmid) fits
    exact ⟨(hx hmid).1.trans hquiet, hQ, herror⟩

/-- A first part whose run is known. -/
theorem step {x : Track σ ε α} {f : α → Track σ ε β} {a : α} (hx : x.run w = (.ok a, w'))
    (hquiet : w.ledger.Quiet w'.ledger) (hf : Behaves (f a) w' barred Q) :
    Behaves (x >>= f) w barred Q := by
  unfold Behaves at hf ⊢
  rw [run_bind, hx]
  exact fun fits => ⟨hquiet.trans (hf fits).1, (hf fits).2⟩

theorem attempt_bind {x : Track σ ε' α} {f : Except ε' α → Track σ ε β}
    (hx : Behaves x w barred' Q) (hdoes : Does x w False R) (htame : ∀ r, Tame (f r))
    (hok : ∀ a w', Q w' → R a w' → Behaves (f (.ok a)) w' barred Q)
    (herror : ∀ e w', Q w' → ¬barred' e → Behaves (f (.error e)) w' barred Q) :
    Behaves (attempt x >>= f) w barred Q := by
  intro fits
  unfold Behaves at hx
  unfold Does at hdoes
  rw [run_bind, run_attempt] at fits ⊢
  generalize x.run w = outcome at hx hdoes fits ⊢
  obtain ⟨r, w'⟩ := outcome
  have hmid : w'.tree.Fits := ((htame r).grows w').fits fits
  obtain ⟨hquiet, hQ, hbarred⟩ := hx hmid
  have hrest : Behaves (f r) w' barred Q := by
    cases r with
    | ok a => exact hok a w' hQ (hdoes hmid)
    | error e => exact herror e w' hQ (hbarred e rfl)
  exact ⟨hquiet.trans (hrest fits).1, (hrest fits).2⟩

theorem attempt_step {x : Track σ ε' α} {f : Except ε' α → Track σ ε β} {r : Except ε' α}
    (hx : x.run w = (r, w')) (hquiet : w.ledger.Quiet w'.ledger)
    (hf : Behaves (f r) w' barred Q) : Behaves (attempt x >>= f) w barred Q :=
  step (by rw [run_attempt, hx]) hquiet hf

theorem wrapping {wrap : ε' → ε} {x : Track σ ε' α} (h : Behaves x w barred' Q)
    (hwrap : ∀ e, ¬barred' e → ¬barred (wrap e)) : Behaves (wrapping wrap x) w barred Q := by
  unfold Behaves at h ⊢
  rw [run_wrapping]
  generalize x.run w = outcome at h ⊢
  obtain ⟨r, w'⟩ := outcome
  intro fits
  cases r with
  | ok a => exact ⟨(h fits).1, (h fits).2.1, nofun⟩
  | error e =>
    refine ⟨(h fits).1, (h fits).2.1, ?_⟩
    rintro _ ⟨⟩
    exact hwrap e ((h fits).2.2 e rfl)

theorem releasing {x : Track σ ε α} (h : Behaves x w barred P)
    (hPQ : ∀ w' leases, P w' → Q { w' with leases }) : Behaves (releasing x) w barred Q :=
  fun fits => ⟨(h fits).1, hPQ _ _ (h fits).2.1, (h fits).2.2⟩

end Behaves

/-! ### Being in shape -/

variable {fs : Filesystem σ Serial} {d : Disk} {present : Serial → Prop} {strict recursive : Bool}
  {w w' w'' : Tracker σ} {p : InodeId} {s : Serial} {depth : Nat} {scanBelow : ScanBelow σ Serial}

/-- The tracker can begin to work, and no name leads back to the directory that it is in. -/
structure InShape (fs : Filesystem σ Serial) (d : Disk) (w : Tracker σ) : Prop
    extends Ready fs d w where
  straight : w.tree.view.Straight

theorem InShape.after (hd : d.Distinguishes present) (hstraight : d.Straight) (h : InShape fs d w)
    (hwork : Worked d present w w') : InShape fs d w' :=
  ⟨h.toReady.after hwork, hwork.updates.straight hd hstraight h.straight⟩

theorem InShape.of_tree_eq (h : InShape fs d w) (hfiles : w'.files = w.files)
    (htree : w'.tree = w.tree) : InShape fs d w' :=
  ⟨⟨hfiles ▸ h.plain, htree ▸ h.sound, htree ▸ h.truthful⟩, htree ▸ h.straight⟩

/-- What is neither in the tree nor in the filesystem may change besides. -/
theorem Worked.of_eq (h : Worked d present w w') (hfiles : w''.files = w'.files)
    (htree : w''.tree = w'.tree) : Worked d present w w'' :=
  ⟨hfiles.trans h.files, htree ▸ h.sound, htree ▸ h.updates⟩

/-! ### Names -/

/-- Binding and unbinding reports nothing. -/
theorem log_bindName (parent : InodeId) (name : Bytes) (child : InodeId) (w : Tracker σ) :
    ((bindName parent name child : Track σ ScanError Unit).run w).2.ledger.log = w.ledger.log := by
  rw [run_bindName]
  cases w.tree.addEntry parent name child <;> rfl

theorem log_unbindEntry (entry : EntryId) (w : Tracker σ) :
    ((unbindEntry entry : Track σ ScanError Unit).run w).2.ledger.log = w.ledger.log := by
  rw [run_unbindEntry]
  cases w.tree.removeEntry (w.clock w.ledger.reads) entry <;> rfl

theorem quiet_rebind (parent : InodeId) (name : Bytes) (child : InodeId) (w : Tracker σ) :
    w.ledger.Quiet ((rebind parent name child).run w).2.ledger := by
  have hbind : ∀ (w₁ : Tracker σ) (summary : ScanSummary), w₁.ledger.Quiet
      (((do bindName parent name child; pure summary) : Track σ ScanError ScanSummary).run
        w₁).2.ledger :=
    fun w₁ _ => quiet_bind (.of_log_eq (log_bindName ..)) fun _ _ _ => .refl
  refine quiet_bind .refl fun bound w₁ hrun => ?_
  cases hrun
  split
  · split
    · exact .refl
    · exact quiet_bind (.of_log_eq (log_unbindEntry ..)) fun _ w₁ _ => hbind w₁ _
  · exact hbind w _

theorem ledger_handOn (child : InodeId) (summary : ScanSummary) (recursive : Bool) (object : Serial)
    (w : Tracker σ) : ((handOn fs child summary recursive object).run w).2.ledger = w.ledger := by
  unfold handOn
  rw [run_bind, run_look]
  simp only
  split
  · rw [run_bind, run_attempt, openDirectory, run_askOpen]
    cases ((fs.openDirectory object).run w.files).1 with
    | ok handle => rfl
    | error e =>
      simp only
      split <;> rfl
  · rfl

theorem quiet_unbindAll (entries : List EntryId) (w : Tracker σ) :
    w.ledger.Quiet ((unbindAll entries : Track σ ScanError ScanSummary).run w).2.ledger := by
  induction entries generalizing w with
  | nil => exact .refl
  | cons e rest ih =>
    exact quiet_bind (.of_log_eq (log_unbindEntry e w)) fun _ w₁ _ =>
      quiet_bind (ih w₁) fun _ _ _ => .refl

/-- Finding the record of an object whose token is not too large never fails. -/
theorem behaves_resolve (hd : d.Distinguishes present) (hw : InShape fs d w) (hs : present s)
    (hsize : ¬d.Oversized s) : Behaves (resolve fs s) w (fun _ => True) (Worked d present w) :=
  .of_does ((does_resolve hd hw.toReady hs hsize).mono fun _ _ h => h.1)
    (quiet_resolve fs s hw.sound hw.straight)

/-- Down to a depth, the function scans directories without being refused anything. -/
structure BehavesBelow (fs : Filesystem σ Serial) (strict : Bool) (d : Disk) (present : Serial → Prop)
    (depth : Nat) (scanBelow : ScanBelow σ Serial) : Prop
    extends ScansBelow fs strict d present depth scanBelow where
  behaves : ∀ {c recursive} {w : Tracker σ}, present c → InShape fs d w →
    Behaves (scanBelow c recursive) w ScanError.IsRefusal (Worked d present w)

section names

variable (hd : d.Distinguishes present) (hstraight : d.Straight)
  (hbelow : BehavesBelow fs strict d present depth scanBelow) (hw : InShape fs d w)
  (hs : present s) (hdir : d.isDirectory s) (recursive : Bool)
include hd hw hs hdir

theorem behaves_bindObject {name : Bytes} {o : Serial} (hp : w.tree.view.Holds d p s)
    (hsmall : ¬d.Oversized s) (ho : d.child? s name = some o) :
    Behaves (bindObject fs p name recursive o) w ScanError.IsRefusal (Worked d present w) := by
  refine .of_does ((does_bindObject hd hw.toReady hp hs hdir hsmall ho recursive).mono
    fun _ _ h => h.toWorked) ?_
  refine quiet_bind (quiet_resolve fs o hw.sound hw.straight) fun r w₁ _ => ?_
  split
  · exact .note nofun
  · split
    · exact .note nofun
    · exact .refl
  · exact .refl
  · exact quiet_bind (quiet_rebind p name _ w₁) fun _ w₂ _ => .of_log_eq (congrArg _ (ledger_handOn ..))

include hstraight hbelow

/-- A name that is opened. -/
theorem behaves_reopen (hp : w.tree.view.Holds d p s) (hsmall : ¬d.Oversized s) (name : Bytes) :
    Behaves (reopen fs scanBelow s p recursive name) w ScanError.IsRefusal (Worked d present w) := by
  obtain ⟨leases, hopen⟩ := hw.plain.run_wrapped_openChild hdir name
  unfold reopen
  refine .step hopen .refl ?_
  have hw₀ : InShape fs d { w with leases } := hw.of_tree_eq rfl rfl
  cases hchild : d.child? s name with
  | none => exact .step (run_note _ _) (.note nofun) (.pure (hw.worked.of_eq rfl rfl))
  | some o =>
    have ho : present o := hd.of_child? hchild
    have hbinds := behaves_bindObject hd hw₀ hs hdir recursive hp hsmall hchild
    have hdoes := does_bindObject hd hw₀.toReady hp hs hdir hsmall hchild recursive
    refine .bind (R := fun r _ => ∀ handle, r.2 = some handle → handle = o)
      (hbinds.releasing fun _ _ h => ⟨h.files, h.sound, h.updates⟩)
      ((hdoes.weaken False.elim).releasing fun _ _ _ h handle heq => (h.next_eq handle heq).1) ?_ ?_
    · rintro ⟨summary, next⟩
      cases next with
      | none => exact .pure _
      | some handle => exact .bind (hbelow.tame _ _) fun _ => .pure _
    rintro ⟨summary, next⟩ w₁ hwork hnext
    cases next with
    | none => exact .pure hwork
    | some handle =>
      obtain rfl := hnext handle rfl
      have hw₁ : InShape fs d w₁ := hw.after hd hstraight hwork
      refine .bind ((hbelow.behaves ho hw₁).mono fun _ h => hwork.trans h) (.trivial _ _)
        (fun _ => .pure _) ?_
      exact fun _ _ h _ => .pure h

omit hstraight hs in
/-- The directory behind a name that is taken for unchanged. -/
theorem behaves_descend (name : Bytes) :
    Behaves (descend fs scanBelow s name) w ScanError.IsRefusal (Worked d present w) := by
  obtain ⟨leases, hopen⟩ := hw.plain.run_wrapped_openChild hdir name
  unfold descend
  refine .step hopen .refl ?_
  have hw₀ : InShape fs d { w with leases } := hw.of_tree_eq rfl rfl
  cases hchild : d.child? s name with
  | none => exact .pure (hw.worked.of_eq rfl rfl)
  | some o =>
    by_cases hodir : d.isDirectory o
    · have hrun : (releasing (attempt (openDirectory fs o)) : Track σ ScanError _).run
          { w with leases } = (.ok (.ok o), { w with leases := leases.take.giveBack }) := by
        rw [run_releasing, run_attempt, hw₀.plain.run_openDirectory hodir]
      refine .step hrun .refl ?_
      have hw₁ : InShape fs d { w with leases := leases.take.giveBack } := hw.of_tree_eq rfl rfl
      exact (hbelow.behaves (hd.of_child? hchild) hw₁).mono
        fun _ h => ⟨h.files, h.sound, h.updates⟩
    · have hrun : (releasing (attempt (openDirectory fs o)) : Track σ ScanError _).run
          { w with leases } =
            (.ok (.error ⟨.openDirectory, .notDirectory⟩), { w with leases := leases.giveBack }) := by
        rw [run_releasing, run_attempt, hw₀.plain.run_openDirectory_of_not hodir]
      refine .step hrun .refl ?_
      exact .pure (hw.worked.of_eq rfl rfl)

/-- A listed name. -/
theorem behaves_reconcile (hp : w.tree.view.Holds d p s) (hsmall : ¬d.Oversized s)
    (listed : ListedEntry) :
    Behaves (reconcile fs strict scanBelow s p recursive listed) w ScanError.IsRefusal
      (Worked d present w) := by
  have hreopen := behaves_reopen hd hstraight hbelow hw hs hdir recursive hp hsmall listed.name
  unfold reconcile
  refine .step (run_look _ w) .refl ?_
  cases ((w.tree.child? p listed.name).bind w.tree.record?).filter (·.ino = listed.ino) with
  | none => exact hreopen
  | some r =>
    simp only
    split
    · exact hreopen
    · split
      · refine .bind (behaves_descend hd hbelow hw hdir listed.name) (.trivial _ _)
          (fun _ => .pure _) ?_
        exact fun _ _ h _ => .pure h
      · exact .pure hw.worked

/-- Listed names, one after another. -/
theorem behaves_reconcileAll (hp : w.tree.view.Holds d p s) (hsmall : ¬d.Oversized s)
    (listing : List ListedEntry) :
    Behaves (reconcileAll fs strict scanBelow s p recursive listing) w ScanError.IsRefusal
      (Worked d present w) := by
  induction listing generalizing w with
  | nil => exact .pure hw.worked
  | cons listed rest ih =>
    have htame := editsOnly_reconcileAll fs.vouches_trivial strict hbelow.tame s p recursive rest
      fun _ _ => trivial
    refine .bind (behaves_reconcile hd hstraight hbelow hw hs hdir recursive hp hsmall listed) (.trivial _ _)
      (fun _ => .bind htame fun _ => .pure _) ?_
    intro _ w₁ hwork _
    have hrest := ih (hw.after hd hstraight hwork) (hwork.updates.holds hd.regular hs hp)
    refine .bind (hrest.mono fun _ h => hwork.trans h) (.trivial _ _) (fun _ => .pure _) ?_
    exact fun _ _ h _ => .pure h

/-! ### Directories -/

/-- Entries that are out of date are still there when they are taken out. -/
theorem behaves_applyListing (hp : w.tree.view.Holds d p s) (hsmall : ¬d.Oversized s)
    {listing : List ListedEntry} (hlist : d.list s = .ok listing) :
    Behaves (applyListing fs strict scanBelow s p recursive listing) w ScanError.IsRefusal
      (Worked d present w) := by
  unfold applyListing
  refine .bind (behaves_reconcileAll hd hstraight hbelow hw hs hdir recursive hp hsmall _) (.trivial _ _)
    (fun _ => .bind (.look _) fun _ => .bind (editsOnly_unbindAll _) fun _ =>
      editsOnly_closeListing _ _) ?_
  intro below w₁ hwork _
  have hw₁ := hw.toReady.after hwork
  have hp₁ : w₁.tree.view.Holds d p s := hwork.updates.holds hd.regular hs hp
  refine .step (run_look _ _) .refl ?_
  have hunbound := (does_unbindGone hd hw₁ hp₁ hs hsmall hlist rfl).mono fun _ _ h => hwork.trans h.1
  refine .bind (.of_does hunbound (quiet_unbindAll _ _)) (.trivial _ _)
    (fun _ => editsOnly_closeListing _ _) ?_
  intro removed w₂ hwork₂ _
  refine .step (run_edit _ _) .refl (.step (run_look _ _) .refl
    (.step (run_note _ _) (.note nofun) (.pure ?_)))
  refine ⟨hwork₂.files, hwork₂.sound.orphanIfUnlinked p (w₂.clock w₂.ledger.reads), ?_⟩
  change Updates d present w.tree.view (w₂.tree.orphanIfUnlinked p (w₂.clock w₂.ledger.reads)).2.view
  rw [Tree.view_orphanIfUnlinked]
  exact hwork₂.updates

end names

section directory

variable (hd : d.Distinguishes present) (hstraight : d.Straight)
  (hbelow : BehavesBelow fs strict d present depth scanBelow) (hs : present s)
include hd hstraight hbelow hs

/-- An object whose record has been found. If it is no directory, it cannot be listed. -/
theorem behaves_scanRecord (hw : InShape fs d w) (hp : w.tree.view.Holds d p s)
    (hsmall : ¬d.Oversized s) :
    Behaves (scanRecord fs strict scanBelow s p recursive) w ScanError.IsRefusal
      (Worked d present w) := by
  unfold scanRecord
  refine .attempt_step (hw.plain.run_list s) .refl ?_
  cases hlist : d.list s with
  | ok listing =>
    obtain ⟨n, children, hn, hchildren, -⟩ := Disk.list_eq_ok hlist
    have hdir : d.isDirectory s := (Disk.isDirectory_iff_of_node? hn).2 (by rw [hchildren]; rfl)
    exact behaves_applyListing hd hstraight hbelow hw hs hdir recursive hp hsmall hlist
  | error e =>
    simp only
    split
    · have hsound := hw.sound.orphanIfUnlinked p (w.clock w.ledger.reads)
      refine .step (run_look _ _) .refl (.step (run_note _ _) (.note nofun)
        (.step (run_edit _ _) .refl (.pure ⟨rfl, hsound, ?_⟩)))
      change Updates d present w.tree.view (w.tree.orphanIfUnlinked p (w.clock w.ledger.reads)).2.view
      rw [Tree.view_orphanIfUnlinked]
    · exact .throw hw.worked id

theorem behaves_scanDirectory (hw : InShape fs d w) :
    Behaves (scanDirectory fs strict scanBelow s recursive) w ScanError.IsRefusal
      (Worked d present w) := by
  unfold scanDirectory
  refine .releasing (P := Worked d present w) ?_ fun _ _ h => h.of_eq rfl rfl
  by_cases hsize : d.Oversized s
  · refine .attempt_step (hw.plain.run_resolve_of_oversized hsize) .refl ?_
    exact .step (run_note _ _) (.note nofun) (.pure (hw.worked.of_eq rfl rfl))
  refine .attempt_bind (behaves_resolve hd hw hs hsize)
    ((does_resolve hd hw.toReady hs hsize).weaken False.elim)
    (editsOnly_afterResolve fs.vouches_trivial strict hbelow.tame s recursive) ?_
    fun _ _ _ hfalse => absurd trivial hfalse
  rintro i w₁ hwork ⟨-, hfound⟩
  have hw₁ := hw.after hd hstraight hwork
  refine (behaves_scanRecord hd hstraight hbelow hs hw₁ hfound.current.holds hsize).mono ?_
  exact fun _ h => hwork.trans h

end directory

/-- The scans of the program behave. -/
theorem behavesBelow_scanWithin (hd : d.Distinguishes present) (hstraight : d.Straight) (depth : Nat) :
    BehavesBelow fs strict d present depth (scanWithin fs strict depth) := by
  induction depth with
  | zero =>
    refine ⟨scansBelow_scanWithin hd 0, fun {c recursive w} _ hw => ?_⟩
    exact .releasing (.throw hw.worked id) fun _ _ h => h.of_eq rfl rfl
  | succ depth ih =>
    exact ⟨scansBelow_scanWithin hd (depth + 1), fun hc hw =>
      behaves_scanDirectory hd hstraight ih hc hw⟩

section scan

variable (strict) (hd : d.Distinguishes present) (hstraight : d.Straight) (hw : InShape fs d w)
include hd hstraight hw

/-- A scan behaves, whatever the object is that is scanned. -/
theorem behaves_scan (hs : present s) (recursive : Bool) :
    Behaves (scan fs strict s recursive) w ScanError.IsRefusal (Worked d present w) := by
  unfold scan
  exact .step (run_look _ w) .refl ((behavesBelow_scanWithin hd hstraight _).behaves hs hw)

theorem behaves_scanRoot :
    Behaves (scanRoot fs strict) w ScanError.IsRefusal (Worked d present w) := by
  have hroot : present Disk.rootSerial := hd.of_named (.inl rfl)
  have hopen : (wrapping ScanError.call (openRoot fs)).run w =
      (.ok Disk.rootSerial, { w with leases := w.leases.take }) := by
    rw [run_wrapping, hw.plain.run_openRoot]
  unfold scanRoot
  refine .step hopen .refl ?_
  have hw₀ : InShape fs d { w with leases := w.leases.take } := hw.of_tree_eq rfl rfl
  by_cases hsize : d.Oversized Disk.rootSerial
  · refine .attempt_step (hw₀.plain.run_resolve_of_oversized hsize) .refl ?_
    exact .releasing (P := Worked d present w) (.throw (hw.worked.of_eq rfl rfl) id)
      fun _ _ h => h.of_eq rfl rfl
  refine .attempt_bind
    ((behaves_resolve hd hw₀ hroot hsize).mono fun _ h => ⟨h.files, h.sound, h.updates⟩)
    ((does_resolve hd hw₀.toReady hroot hsize).weaken False.elim) (fun r => ?_) ?_
    fun _ _ _ hfalse => absurd trivial hfalse
  · split
    · exact .bind (.edit fun _ _ => .single (.root trivial)) fun _ =>
        editsOnly_scan fs.vouches_trivial strict _ _
    · exact .releasing (.throw _)
  rintro i w₁ hwork ⟨-, hfound⟩
  have hw₁ := hw.after hd hstraight hwork
  let w₂ : Tracker σ := { w₁ with ledger := { w₁.ledger with tree := w₁.tree.setRoot i } }
  have hbecomes : Worked d present w₁ w₂ :=
    ⟨rfl, hw₁.sound.setRoot i, .single (.root hfound.current.holds)⟩
  refine .step (run_edit _ _) .refl ?_
  refine (behaves_scan strict hd hstraight (hw₁.after hd hstraight hbecomes) hroot true).mono fun w₃ h => ?_
  exact (hwork.trans hbecomes).trans h

end scan

end Tracker

end TreeWatch

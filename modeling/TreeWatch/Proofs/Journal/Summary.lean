import TreeWatch.Proofs.Journal.Course

/-!
# What the summary of a scan counts

The counters of a summary are added up by hand at many places of a scan. They tell exactly how many names
came and how many went, but for the names that are lost when a record makes way for that of another object.

## Main definitions

- `ScanSummary.addTo` : a tally with the counters of a summary added
- `Tracker.Nameless` : a computation neither binds nor unbinds a name, whatever its outcome
- `Tracker.KeepsCount` : a computation that gives a result keeps the tally of names

## Main results

- `Tracker.KeepsCount.bind`, `Tracker.KeepsCount.attempt` and so on : one rule for each way to build a
  computation
- `Tracker.keepsCount_scan` and so on : one for each function
- `Tracker.scan_accounts` : a summary, the journal, the log and the tree agree

## Design notes

A failure leaves no summary, so nothing is said of names that came or went before it. The only failures
that a scan goes on after are those of computations that deal with no names.
-/

namespace TreeWatch

namespace ScanSummary

/-- A tally of names come and names gone, with those of the summary added. -/
def addTo (s : ScanSummary) (n : Nat × Nat) : Nat × Nat := (n.1 + s.linked, n.2 + s.unlinked)

theorem addTo_add (a b : ScanSummary) (n : Nat × Nat) : (a + b).addTo n = b.addTo (a.addTo n) :=
  Prod.ext (Nat.add_assoc ..).symm (Nat.add_assoc ..).symm

end ScanSummary

namespace Tracker

open Ledger

variable {σ H ε ε' α β : Type} {n : Nat × Nat}

/-- Whatever the outcome, no name has come and none has gone but with records that made way. -/
def Nameless (x : Track σ ε α) : Prop :=
  ∀ w : Tracker σ, Counted 0 0 w.ledger (x.run w).2.ledger

/-- Begun with one tally of names, a computation that gives a result has come to the tally that is told by
the result. -/
def KeepsCount (before : Nat × Nat) (x : Track σ ε α) (after : α → Nat × Nat) : Prop :=
  ∀ w a w', x.run w = (.ok a, w') →
    ∃ came went, after a = (before.1 + came, before.2 + went) ∧ Counted came went w.ledger w'.ledger

theorem Nameless.of_ledger {x : Track σ ε α} (h : ∀ w, (x.run w).2.ledger = w.ledger) : Nameless x := by
  intro w
  rw [h]
  exact .refl

theorem Nameless.look (f : Tracker σ → α) : Nameless (look f : Track σ ε α) :=
  .of_ledger fun _ => rfl

theorem Nameless.ask (call : StateM σ (Except ε α)) : Nameless (ask call) :=
  .of_ledger fun _ => rfl

theorem Nameless.askOpen (opened : α → Bool) (call : StateM σ (Except ε α)) :
    Nameless (askOpen opened call) := by
  refine .of_ledger fun w => ?_
  rw [run_askOpen]
  split <;> rfl

theorem Nameless.bind {x : Track σ ε α} {f : α → Track σ ε β} (hx : Nameless x)
    (hf : ∀ a, Nameless (f a)) : Nameless (x >>= f) := by
  intro w
  have hfirst := hx w
  rw [run_bind]
  rcases hrun : x.run w with ⟨r, w₁⟩
  rw [hrun] at hfirst
  cases r with
  | error e => exact hfirst
  | ok a => exact hfirst.trans (hf a w₁)

theorem Nameless.wrapping (wrap : ε → ε') {x : Track σ ε α} (hx : Nameless x) :
    Nameless (wrapping wrap x) := by
  intro w
  have hrun := hx w
  rw [run_wrapping]
  generalize x.run w = outcome at hrun ⊢
  obtain ⟨r, w'⟩ := outcome
  cases r <;> exact hrun

theorem Nameless.edit {f : Clock → Ledger → Ledger} (hf : ∀ clock l, Counted 0 0 l (f clock l)) :
    Nameless (edit f : Track σ ε Unit) :=
  fun w => hf w.clock w.ledger

theorem Nameless.note {event : LogEvent} (h : event.invalidated? = none) :
    Nameless (note event : Track σ ε Unit) :=
  .edit fun _ _ => (Change.note h).counted

namespace KeepsCount

variable {after : α → Nat × Nat} {after' : β → Nat × Nat}

protected theorem pure {a : α} (h : after a = n) : KeepsCount n (pure a : Track σ ε α) after := by
  intro w b w' hrun
  cases hrun
  exact ⟨0, 0, h, .refl⟩

protected theorem throw (e : ε) : KeepsCount n (throw e : Track σ ε α) after :=
  nofun

theorem bind {x : Track σ ε α} {f : α → Track σ ε β} (hx : KeepsCount n x after)
    (hf : ∀ a, KeepsCount (after a) (f a) after') : KeepsCount n (x >>= f) after' := by
  intro w b w' hrun
  obtain ⟨a, w₁, hfirst, hrest⟩ := run_bind_eq_ok hrun
  obtain ⟨came, went, hafter, hledger⟩ := hx w a w₁ hfirst
  obtain ⟨came', went', hafter', hledger'⟩ := hf a w₁ b w' hrest
  refine ⟨came + came', went + went', ?_, hledger.trans hledger'⟩
  rw [hafter', hafter, Nat.add_assoc, Nat.add_assoc]

/-- What deals with no names leaves the tally as it is. -/
theorem nameless {x : Track σ ε α} (h : Nameless x) : KeepsCount n x fun _ => n := by
  intro w a w' hrun
  have hledger := h w
  rw [hrun] at hledger
  exact ⟨0, 0, rfl, hledger⟩

/-- A failure is caught only if no names have been dealt with. -/
theorem attempt {x : Track σ ε α} (h : Nameless x) :
    KeepsCount n (attempt x : Track σ ε' (Except ε α)) fun _ => n :=
  .nameless fun w => h w

theorem wrapping (wrap : ε → ε') {x : Track σ ε α} (hx : KeepsCount n x after) :
    KeepsCount n (wrapping wrap x) after :=
  fun w a w' hrun => hx w a w' (run_of_wrapping hrun)

theorem releasing {x : Track σ ε α} (hx : KeepsCount n x after) : KeepsCount n (releasing x) after := by
  intro w a w' hrun
  obtain ⟨hresult, rfl⟩ := Prod.mk.inj hrun
  exact hx w a (x.run w).2 (Prod.ext hresult rfl)

theorem editTry (came went : Nat) {f : Clock → Ledger → Except TreeError Ledger}
    (hf : ∀ clock l l', f clock l = .ok l' → Counted came went l l') :
    KeepsCount n (editTry f : Track σ TreeError Unit) fun _ => (n.1 + came, n.2 + went) := by
  intro w a w' hrun
  rw [run_editTry] at hrun
  split at hrun
  · next l' hl' =>
    cases hrun
    exact ⟨came, went, rfl, hf _ _ _ hl'⟩
  · cases hrun

theorem look (f : Tracker σ → α) : KeepsCount n (look f : Track σ ε α) fun _ => n :=
  .nameless (.look f)

theorem edit {f : Clock → Ledger → Ledger} (hf : ∀ clock l, Counted 0 0 l (f clock l)) :
    KeepsCount n (edit f : Track σ ε Unit) fun _ => n :=
  .nameless (.edit hf)

theorem note {event : LogEvent} (h : event.invalidated? = none) :
    KeepsCount n (note event : Track σ ε Unit) fun _ => n :=
  .nameless (.note h)

end KeepsCount

variable (fs : Filesystem σ H)

/-! ### Finding the record of an object -/

theorem nameless_recordFor (a : Attributes) (token : IdentityToken) :
    Nameless (recordFor fs a token) := by
  intro w
  unfold recordFor
  rw [run_bind, run_look]
  simp only
  cases hlookup : w.tree.lookupIno a.ino with
  | none => exact (Change.insert hlookup).counted
  | some old =>
    have hbelongs : ((belongsTo fs old token).run w).2.ledger = w.ledger := ledger_belongsTo old token w
    simp only
    rw [run_bind]
    generalize (belongsTo fs old token).run w = outcome at hbelongs ⊢
    obtain ⟨r, w₁⟩ := outcome
    -- the number is that of the old record still when the record makes way
    have hledger : w₁.ledger = w.ledger := hbelongs
    rw [← hledger]
    cases r with
    | error e => exact .refl
    | ok same =>
      cases same with
      | true => exact Change.refresh.counted
      | false =>
        simp only [Bool.false_eq_true, if_false, run_bind, run_look, run_note, run_edit, run_editGet,
          run_pure]
        generalize hnoted : w₁.ledger.note (.recycled a.ino (w₁.tree.resolvePath old)) = l
        have hnote : Counted 0 0 w₁.ledger l := hnoted ▸ (Change.note rfl).counted
        have hold : l.tree.lookupIno a.ino = some old := by
          rw [← hnoted]
          exact hledger ▸ hlookup
        exact (hnote.trans (Change.replace hold).counted).trans (Change.note rfl).counted

theorem nameless_resolve (object : H) : Nameless (resolve fs object) :=
  .bind (.wrapping _ (.ask _)) fun a => .bind (.ask _) fun token => nameless_recordFor fs a token

/-! ### Scanning -/

theorem keepsCount_unbindEntry (entry : EntryId) :
    KeepsCount n (unbindEntry entry : Track σ ScanError Unit) fun _ => (n.1, n.2 + 1) :=
  .wrapping _ (.editTry 0 1 fun _ _ _ h => (Change.unbind h).counted)

theorem keepsCount_bindName (parent : InodeId) (name : Bytes) (child : InodeId) :
    KeepsCount n (bindName parent name child : Track σ ScanError Unit) fun _ => (n.1 + 1, n.2) := by
  refine .wrapping _ (.editTry 1 0 fun clock l l' h => ?_)
  cases hadd : l.addEntry parent name child with
  | error e =>
    rw [hadd] at h
    cases h
  | ok p =>
    rw [hadd] at h
    cases h
    exact (Change.bind hadd).counted

theorem keepsCount_rebind (parent : InodeId) (name : Bytes) (child : InodeId) :
    KeepsCount n (rebind parent name child : Track σ ScanError ScanSummary) fun s => s.addTo n := by
  refine .bind (.look _) fun bound => ?_
  split
  · split
    · exact .pure rfl
    · refine .bind (keepsCount_unbindEntry _) fun _ => ?_
      exact .bind (keepsCount_bindName _ _ _) fun _ => .pure rfl
  · exact .bind (keepsCount_bindName _ _ _) fun _ => .pure rfl

theorem keepsCount_handOn (child : InodeId) (summary : ScanSummary) (recursive : Bool) (object : H) :
    KeepsCount (summary.addTo n) (handOn fs child summary recursive object) fun p => p.1.addTo n := by
  refine .bind (.look _) fun record => ?_
  simp only
  split
  · refine .bind (.attempt (.askOpen _ _)) fun opened => ?_
    split
    · exact .pure rfl
    · split
      · exact .pure rfl
      · exact .throw _
  · exact .pure rfl

theorem keepsCount_bindObject (parent : InodeId) (name : Bytes) (recursive : Bool) (object : H) :
    KeepsCount n (bindObject fs parent name recursive object) fun p => p.1.addTo n := by
  refine .bind (.attempt (nameless_resolve fs object)) fun resolved => ?_
  split
  · exact .bind (.note rfl) fun _ => .pure rfl
  · split
    · exact .bind (.note rfl) fun _ => .pure rfl
    · exact .throw _
  · exact .throw _
  · exact .bind (keepsCount_rebind _ _ _) fun _ => keepsCount_handOn fs _ _ _ _

section below

variable {scanBelow : ScanBelow σ H} (strict : Bool)
  (hbelow : ∀ n object recursive, KeepsCount n (scanBelow object recursive) fun s => s.addTo n)
include hbelow

theorem keepsCount_descend (directory : H) (name : Bytes) :
    KeepsCount n (descend fs scanBelow directory name) fun s => s.addTo n := by
  refine .bind (.wrapping _ (.nameless (.askOpen _ _))) fun child => ?_
  split
  · exact .pure rfl
  · refine .bind (.releasing (.attempt (.askOpen _ _))) fun opened => ?_
    split
    · exact hbelow _ _ _
    · split
      · exact .pure rfl
      · exact .throw _

theorem keepsCount_reopen (directory : H) (parent : InodeId) (recursive : Bool) (name : Bytes) :
    KeepsCount n (reopen fs scanBelow directory parent recursive name) fun s => s.addTo n := by
  refine .bind (.wrapping _ (.nameless (.askOpen _ _))) fun child => ?_
  split
  · exact .bind (.note rfl) fun _ => .pure rfl
  · refine .bind (.releasing (keepsCount_bindObject fs _ _ _ _)) fun outcome => ?_
    obtain ⟨summary, next⟩ := outcome
    simp only
    split
    · exact .bind (hbelow _ _ _) fun _ => .pure (ScanSummary.addTo_add ..)
    · exact .pure rfl

theorem keepsCount_reconcile (directory : H) (parent : InodeId) (recursive : Bool)
    (listed : ListedEntry) :
    KeepsCount n (reconcile fs strict scanBelow directory parent recursive listed) fun s => s.addTo n := by
  refine .bind (.look _) fun record => ?_
  split
  · split
    · exact keepsCount_reopen fs hbelow _ _ _ _
    · split
      · exact .bind (keepsCount_descend fs hbelow _ _) fun _ => .pure (ScanSummary.addTo_add ..)
      · exact .pure rfl
  · exact keepsCount_reopen fs hbelow _ _ _ _

theorem keepsCount_reconcileAll (directory : H) (parent : InodeId) (recursive : Bool)
    (listing : List ListedEntry) :
    KeepsCount n (reconcileAll fs strict scanBelow directory parent recursive listing)
      fun s => s.addTo n := by
  induction listing generalizing n with
  | nil => exact .pure rfl
  | cons listed rest ih =>
    refine .bind (keepsCount_reconcile fs strict hbelow _ _ _ _) fun _ => ?_
    exact .bind ih fun _ => .pure (ScanSummary.addTo_add ..)

omit hbelow in
theorem keepsCount_unbindAll (entries : List EntryId) :
    KeepsCount n (unbindAll entries : Track σ ScanError ScanSummary) fun s => s.addTo n := by
  induction entries generalizing n with
  | nil => exact .pure rfl
  | cons entry rest ih =>
    refine .bind (keepsCount_unbindEntry entry) fun _ => ?_
    exact .bind ih fun _ => .pure (ScanSummary.addTo_add ..)

theorem keepsCount_applyListing (directory : H) (parent : InodeId) (recursive : Bool)
    (listing : List ListedEntry) :
    KeepsCount n (applyListing fs strict scanBelow directory parent recursive listing)
      fun s => s.addTo n := by
  refine .bind (keepsCount_reconcileAll fs strict hbelow _ _ _ _) fun below => .bind (.look _) fun _ => ?_
  refine .bind (keepsCount_unbindAll _) fun removed => ?_
  refine .bind (.edit fun _ _ => Change.wait.counted) fun _ => ?_
  refine .bind (.look _) fun _ => .bind (.note rfl) fun _ => .pure ?_
  rw [ScanSummary.addTo_add, ScanSummary.addTo_add]
  rfl

theorem keepsCount_scanRecord (directory : H) (parent : InodeId) (recursive : Bool) :
    KeepsCount n (scanRecord fs strict scanBelow directory parent recursive) fun s => s.addTo n := by
  refine .bind (.attempt (.ask _)) fun listed => ?_
  split
  · exact keepsCount_applyListing fs strict hbelow _ _ _ _
  · split
    · refine .bind (.look _) fun _ => .bind (.note rfl) fun _ => ?_
      exact .bind (.edit fun _ _ => Change.wait.counted) fun _ => .pure rfl
    · exact .throw _

theorem keepsCount_scanDirectory (directory : H) (recursive : Bool) :
    KeepsCount n (scanDirectory fs strict scanBelow directory recursive) fun s => s.addTo n := by
  refine .releasing (.bind (.attempt (nameless_resolve fs directory)) fun resolved => ?_)
  split
  · exact .bind (.note rfl) fun _ => .pure rfl
  · exact .throw _
  · exact keepsCount_scanRecord fs strict hbelow _ _ _

end below

variable (strict : Bool)

theorem keepsCount_scanWithin (depth : Nat) (directory : H) (recursive : Bool) :
    KeepsCount n (scanWithin fs strict depth directory recursive) fun s => s.addTo n := by
  induction depth generalizing n directory recursive with
  | zero => exact .releasing (.throw _)
  | succ depth ih =>
    exact keepsCount_scanDirectory fs strict (fun n object recursive => ih object recursive) directory
      recursive

theorem keepsCount_scan (directory : H) (recursive : Bool) :
    KeepsCount n (scan fs strict directory recursive) fun s => s.addTo n :=
  .bind (.look _) fun _ => keepsCount_scanWithin fs strict _ _ _

/-- A summary counts every name that came and every name that went, but for the names of the records that
made way for others, as the tree was when they did. The log tells which records these are. If the summary
tells of no change, just their names are missing. -/
theorem scan_accounts {directory : H} {recursive : Bool} {w w' : Tracker σ} {summary : ScanSummary}
    (h : w.tree.Formed) (fits : w'.tree.Fits)
    (hrun : (scan fs strict directory recursive).run w = (.ok summary, w')) :
    ∃ expelled, Course summary.linked summary.unlinked expelled w.ledger w'.ledger ∧
      Observes summary.linked (summary.unlinked + (expelled.flatMap Expulsion.names).length) w.ledger
        w'.ledger ∧
      Expels (expelled.map Expulsion.record) w.ledger w'.ledger ∧
      (summary.changed = false → ∀ e b, w'.tree.entryOf? e = some b ↔
        w.tree.entryOf? e = some b ∧ ∀ x ∈ expelled, b.parent ≠ x.record ∧ b.child ≠ x.record) := by
  obtain ⟨came, went, hcount, expelled, hcourse⟩ :=
    keepsCount_scan (n := (0, 0)) fs strict directory recursive w summary w' hrun
  obtain ⟨hlinked, hunlinked⟩ := Prod.mk.inj hcount
  rw [Nat.zero_add, Nat.zero_add] at hlinked hunlinked
  subst hlinked hunlinked
  have haccount := hcourse.account h fits
  refine ⟨expelled, hcourse, haccount.observes, haccount.expels, fun hsame => ?_⟩
  obtain ⟨hcame, hwent⟩ := ScanSummary.changed_eq_false_iff.1 hsame
  exact haccount.kept hcame hwent

/-- A disk with one file. -/
def oneFile : Disk := Disk.perform .empty (.createWithIno (.ofString "/f") 101)

/-- A tracker that has scanned it, and has not heard that the file has gone and that a new directory has
its inode number. -/
def sawOneFile : Tracker Disk :=
  { (Call.rescanRoots.after Disk.filesystem false ⟨oneFile, {}, fun _ => 0, { tree := {} }⟩) with
    files := [Disk.Operation.remove (.ofString "/f"), .mkdir (.ofString "/d")].foldl Disk.perform oneFile }

/-- The scan of the directory tells of no change, and yet the name of the file goes. -/
theorem scan_accounts_sawOneFile :
    sawOneFile.tree.Formed ∧ ∃ w' expelled, w'.tree.Fits ∧
      (scan Disk.filesystem false 2 false).run sawOneFile = (.ok { directories := 1 }, w') ∧
      Course 0 0 expelled sawOneFile.ledger w'.ledger ∧ (expelled.flatMap Expulsion.names).length = 1 ∧
      w'.ledger.journal = sawOneFile.ledger.journal ++ [⟨.unlinked, .ofString "/f", 101, 2⟩] ∧
      sawOneFile.tree.entries.toList.length = 1 ∧ w'.tree.entries.toList.length = 0 := by
  have hreached : ReachedAnyhow Disk.filesystem sawOneFile :=
    .elsewhere (.call false .rescanRoots (.start trivial)) trivial
  have hformed : sawOneFile.tree.Formed := (hreached.sound (by decide +kernel)).formed rfl rfl rfl
  have hresult : ((scan Disk.filesystem false 2 false).run sawOneFile).1.toOption =
      some { directories := 1 } := by decide +kernel
  have fits : ((scan Disk.filesystem false 2 false).run sawOneFile).2.tree.Fits := by decide +kernel
  have hbefore : sawOneFile.tree.entries.toList.length = 1 := by decide +kernel
  have hafter : ((scan Disk.filesystem false 2 false).run sawOneFile).2.tree.entries.toList.length = 0 := by
    decide +kernel
  have hjournal : ((scan Disk.filesystem false 2 false).run sawOneFile).2.ledger.journal =
      sawOneFile.ledger.journal ++ [⟨.unlinked, .ofString "/f", 101, 2⟩] := by decide +kernel
  generalize hrun : (scan Disk.filesystem false 2 false).run sawOneFile = outcome at *
  obtain ⟨e | summary, w'⟩ := outcome
  · cases hresult
  cases hresult
  obtain ⟨expelled, hcourse, ⟨observed, hobserved, -, hunlinked⟩, -, -⟩ :=
    scan_accounts Disk.filesystem false hformed fits hrun
  cases List.append_cancel_left (hjournal.symm.trans hobserved)
  have hlost : (expelled.flatMap Expulsion.names).length = 1 := by
    rw [← Nat.zero_add (List.length _)]
    exact hunlinked.symm
  exact ⟨hformed, w', expelled, fits, rfl, hcourse, hlost, hjournal, hbefore, hafter⟩

end Tracker

end TreeWatch

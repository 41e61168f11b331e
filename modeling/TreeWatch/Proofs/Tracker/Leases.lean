import TreeWatch.Proofs.Tracker.Reached
import TreeWatch.Store.Verify

/-!
# Open handles

No handle is left open and none is given back twice. A call gives back the handles that it was given
and those that it opened, whatever the filesystem answers and whether it gives a result or fails.

## Main definitions

- `Leases.Settled` : some handles were given back and some were opened in between
- `Tracker.Accounts` : a computation gives back the handles that it owes, and hands on those it holds
- `Tracker.Job` : everything that a program does with the tracker, and the handles that are given to it

## Main results

- `Tracker.Accounts.bind`, `Tracker.Accounts.releasing` and so on : one rule for each way to build a
  computation
- `Tracker.accounts_scan`, `Tracker.accounts_verify` and so on : one for each function
- `Tracker.Job.leases_after` : the balance of a job

## Design notes

A handle is given back where the work on it ends, also if the work fails. So a failure leaves no handle
to the caller, and what is held after a result depends on the result: it may be a handle itself.
-/

namespace TreeWatch

/-- Of the handles that were open, some were given back, and some others are open now that were not. At
no moment more were given back than were open. -/
structure Leases.Settled (owed held : Nat) (before after : Leases) : Prop where
  overdrawn : after.overdrawn = before.overdrawn
  count : after.count + owed = before.count + held

namespace Tracker

variable {σ H ε ε' α β : Type}

/-- The handles held after an outcome. A failure holds none. -/
def heldBy (held : α → Nat) : Except ε α → Nat
  | .ok a => held a
  | .error _ => 0

/-- Begun while at least as many handles are open as are owed, a computation gives them back and keeps
the others open. After a result it holds as many more as are told by `held`. -/
def Accounts (x : Track σ ε α) (owed : Nat) (held : α → Nat) : Prop :=
  ∀ w : Tracker σ, owed ≤ w.leases.count →
    Leases.Settled owed (heldBy held (x.run w).1) w.leases (x.run w).2.leases

/-- No handles. -/
abbrev noHandles : α → Nat := fun _ => 0

namespace Accounts

variable {owed : Nat} {held : α → Nat} {held' : β → Nat}

protected theorem pure {a : α} (h : held a = owed) : Accounts (pure a : Track σ ε α) owed held :=
  fun _ _ => ⟨rfl, congrArg _ h.symm⟩

/-- Nothing may be owed any more when a computation fails. -/
protected theorem throw (e : ε) : Accounts (throw e : Track σ ε α) 0 held :=
  fun _ _ => ⟨rfl, rfl⟩

theorem bind {x : Track σ ε α} {f : α → Track σ ε β} (hx : Accounts x owed held)
    (hf : ∀ a, Accounts (f a) (held a) held') : Accounts (x >>= f) owed held' := by
  intro w hw
  have hfirst := hx w hw
  rw [run_bind]
  rcases hrun : x.run w with ⟨r, w₁⟩
  rw [hrun] at hfirst
  cases r with
  | error e => exact hfirst
  | ok a =>
    have hcount : w₁.leases.count + owed = w.leases.count + held a := hfirst.count
    have hrest := hf a w₁ (by omega)
    have hcount' := hrest.count
    refine ⟨hrest.overdrawn.trans hfirst.overdrawn, ?_⟩
    show ((f a).run w₁).2.leases.count + owed = w.leases.count + heldBy held' ((f a).run w₁).1
    omega

/-- A computation that cannot fail and leaves the handles alone. -/
theorem of_frame {x : Track σ ε α} (h : ∀ w, ∃ a, (x.run w).1 = .ok a ∧ (x.run w).2.leases = w.leases) :
    Accounts x owed fun _ => owed := by
  intro w _
  obtain ⟨a, ha, hleases⟩ := h w
  rw [ha, hleases]
  exact ⟨rfl, rfl⟩

theorem look (f : Tracker σ → α) : Accounts (look f : Track σ ε α) owed fun _ => owed :=
  .of_frame fun w => ⟨f w, rfl, rfl⟩

theorem edit (f : Clock → Ledger → Ledger) :
    Accounts (edit f : Track σ ε Unit) owed fun _ => owed :=
  .of_frame fun _ => ⟨(), rfl, rfl⟩

theorem editGet (f : Clock → Ledger → α × Ledger) :
    Accounts (editGet f : Track σ ε α) owed fun _ => owed :=
  .of_frame fun w => ⟨(f w.clock w.ledger).1, rfl, rfl⟩

theorem note (event : LogEvent) : Accounts (note event : Track σ ε Unit) owed fun _ => owed :=
  .edit _

theorem editTry (f : Clock → Ledger → Except TreeError Ledger) :
    Accounts (editTry f : Track σ TreeError Unit) 0 noHandles := by
  intro w _
  rw [run_editTry]
  cases f w.clock w.ledger <;> exact ⟨rfl, rfl⟩

/-- A failure that is caught may leave handles of the caller open. -/
theorem attempt (extra : Nat) {x : Track σ ε α} (hx : Accounts x owed held) :
    Accounts (attempt x : Track σ ε' (Except ε α)) (extra + owed) fun r => extra + heldBy held r := by
  intro w hw
  obtain ⟨hoverdrawn, hcount⟩ := hx w (by omega)
  refine ⟨hoverdrawn, ?_⟩
  show (x.run w).2.leases.count + (extra + owed) = w.leases.count + (extra + heldBy held (x.run w).1)
  omega

theorem wrapping (wrap : ε → ε') {x : Track σ ε α} (hx : Accounts x owed held) :
    Accounts (wrapping wrap x) owed held := by
  intro w hw
  have hrun := hx w hw
  rw [run_wrapping]
  generalize x.run w = outcome at hrun ⊢
  obtain ⟨r, w'⟩ := outcome
  cases r <;> exact hrun

theorem giveBack {before after : Leases} {now : Nat} (h : Leases.Settled owed now before after)
    (hcount : owed + 1 ≤ before.count) : Leases.Settled (owed + 1) now before after.giveBack := by
  obtain ⟨hoverdrawn, hbalance⟩ := h
  have hopen : after.count ≠ 0 := by omega
  refine ⟨?_, ?_⟩
  · simp [Leases.giveBack, hopen, hoverdrawn]
  · show after.count - 1 + (owed + 1) = before.count + now
    omega

theorem release : Accounts (release : Track σ ε Unit) (owed + 1) fun _ => owed :=
  fun _ hw => giveBack ⟨rfl, rfl⟩ hw

/-- The handle is given back after the work, whatever its outcome. -/
theorem releasing {x : Track σ ε α} (hx : Accounts x owed held) :
    Accounts (releasing x) (owed + 1) held :=
  fun w hw => giveBack (hx w (by omega)) hw

theorem ask (call : StateM σ (Except ε α)) : Accounts (ask call) 0 noHandles := by
  intro w _
  rw [run_ask]
  cases (call.run w.files).1 <;> exact ⟨rfl, rfl⟩

theorem askOpen (opened : α → Bool) (call : StateM σ (Except ε α)) :
    Accounts (askOpen opened call) 0 fun a => (opened a).toNat := by
  intro w _
  rw [run_askOpen]
  cases hanswer : (call.run w.files).1 with
  | error e => exact ⟨rfl, rfl⟩
  | ok a =>
    refine ⟨?_, ?_⟩
    · show (if opened a then w.leases.take else w.leases).overdrawn = w.leases.overdrawn
      split <;> rfl
    · show (if opened a then w.leases.take else w.leases).count = w.leases.count + (opened a).toNat
      cases opened a <;> rfl

end Accounts

variable (fs : Filesystem σ H)

/-- The handles in a result that may hold one. -/
abbrev inOption : Option H → Nat := fun o => o.isSome.toNat

/-! ### Finding the record of an object -/

theorem accounts_tokenOpens (token : IdentityToken) : Accounts (tokenOpens fs token) 0 noHandles := by
  refine .bind (.attempt 0 (.askOpen _ _)) fun outcome => ?_
  split
  · exact .bind .release fun _ => .pure rfl
  · exact .pure rfl
  · exact .throw _

theorem accounts_belongsTo (existing : InodeId) (token : IdentityToken) :
    Accounts (belongsTo fs existing token) 0 noHandles := by
  refine .bind (.look _) fun record => ?_
  split
  · exact .pure rfl
  · split
    · exact .pure rfl
    · exact accounts_tokenOpens fs _

/-- The handle of the object stays with the caller. -/
theorem accounts_resolve (object : H) : Accounts (resolve fs object) 0 noHandles := by
  refine .bind (.wrapping _ (.ask _)) fun a => .bind (.ask _) fun token => .bind (.look _) fun bound => ?_
  split
  · exact .editGet _
  · refine .bind (accounts_belongsTo fs _ _) fun same => ?_
    split
    · exact .bind (.edit _) fun _ => .pure rfl
    · refine .bind (.look _) fun _ => .bind (.note _) fun _ => .bind (.edit _) fun _ => ?_
      exact .bind (.editGet _) fun _ => .bind (.note _) fun _ => .pure rfl

/-! ### Scanning -/

theorem accounts_unbindEntry (entry : EntryId) :
    Accounts (unbindEntry entry : Track σ ScanError Unit) 0 noHandles :=
  .wrapping _ (.editTry _)

theorem accounts_bindName (parent : InodeId) (name : Bytes) (child : InodeId) :
    Accounts (bindName parent name child : Track σ ScanError Unit) 0 noHandles :=
  .wrapping _ (.editTry _)

theorem accounts_rebind (parent : InodeId) (name : Bytes) (child : InodeId) :
    Accounts (rebind parent name child : Track σ ScanError ScanSummary) 0 noHandles := by
  refine .bind (.look _) fun bound => ?_
  split
  · split
    · exact .pure rfl
    · refine .bind (accounts_unbindEntry _) fun _ => ?_
      exact .bind (accounts_bindName _ _ _) fun _ => .pure rfl
  · exact .bind (accounts_bindName _ _ _) fun _ => .pure rfl

theorem accounts_handOn (child : InodeId) (summary : ScanSummary) (recursive : Bool) (object : H) :
    Accounts (handOn fs child summary recursive object) 0 fun p => inOption p.2 := by
  refine .bind (.look _) fun record => ?_
  simp only
  split
  · refine .bind (.attempt 0 (.askOpen _ _)) fun opened => ?_
    split
    · exact .pure rfl
    · split
      · exact .pure rfl
      · exact .throw _
  · exact .pure rfl

theorem accounts_bindObject (parent : InodeId) (name : Bytes) (recursive : Bool) (object : H) :
    Accounts (bindObject fs parent name recursive object) 0 fun p => inOption p.2 := by
  refine .bind (.attempt 0 (accounts_resolve fs object)) fun resolved => ?_
  split
  · exact .bind (.note _) fun _ => .pure rfl
  · split
    · exact .bind (.note _) fun _ => .pure rfl
    · exact .throw _
  · exact .throw _
  · exact .bind (accounts_rebind _ _ _) fun _ => accounts_handOn fs _ _ _ _

section below

variable {scanBelow : ScanBelow σ H} (strict : Bool)
  (hbelow : ∀ object recursive, Accounts (scanBelow object recursive) 1 noHandles)
include hbelow

theorem accounts_descend (directory : H) (name : Bytes) :
    Accounts (descend fs scanBelow directory name) 0 noHandles := by
  refine .bind (.wrapping _ (.askOpen _ _)) fun child => ?_
  split
  · exact .pure rfl
  · refine .bind (.releasing (.attempt 0 (.askOpen _ _))) fun opened => ?_
    split
    · exact hbelow _ _
    · split
      · exact .pure rfl
      · exact .throw _

theorem accounts_reopen (directory : H) (parent : InodeId) (recursive : Bool) (name : Bytes) :
    Accounts (reopen fs scanBelow directory parent recursive name) 0 noHandles := by
  refine .bind (.wrapping _ (.askOpen _ _)) fun child => ?_
  split
  · exact .bind (.note _) fun _ => .pure rfl
  · refine .bind (.releasing (accounts_bindObject fs _ _ _ _)) fun outcome => ?_
    obtain ⟨summary, next⟩ := outcome
    simp only
    split
    · exact .bind (hbelow _ _) fun _ => .pure rfl
    · exact .pure rfl

theorem accounts_reconcile (directory : H) (parent : InodeId) (recursive : Bool)
    (listed : ListedEntry) :
    Accounts (reconcile fs strict scanBelow directory parent recursive listed) 0 noHandles := by
  refine .bind (.look _) fun record => ?_
  split
  · split
    · exact accounts_reopen fs hbelow _ _ _ _
    · split
      · exact .bind (accounts_descend fs hbelow _ _) fun _ => .pure rfl
      · exact .pure rfl
  · exact accounts_reopen fs hbelow _ _ _ _

theorem accounts_reconcileAll (directory : H) (parent : InodeId) (recursive : Bool)
    (listing : List ListedEntry) :
    Accounts (reconcileAll fs strict scanBelow directory parent recursive listing) 0 noHandles := by
  induction listing with
  | nil => exact .pure rfl
  | cons listed rest ih =>
    exact .bind (accounts_reconcile fs strict hbelow _ _ _ _) fun _ => .bind ih fun _ => .pure rfl

omit hbelow in
theorem accounts_unbindAll (entries : List EntryId) :
    Accounts (unbindAll entries : Track σ ScanError ScanSummary) 0 noHandles := by
  induction entries with
  | nil => exact .pure rfl
  | cons entry rest ih =>
    exact .bind (accounts_unbindEntry entry) fun _ => .bind ih fun _ => .pure rfl

theorem accounts_applyListing (directory : H) (parent : InodeId) (recursive : Bool)
    (listing : List ListedEntry) :
    Accounts (applyListing fs strict scanBelow directory parent recursive listing) 0 noHandles := by
  refine .bind (accounts_reconcileAll fs strict hbelow _ _ _ _) fun _ => .bind (.look _) fun _ => ?_
  refine .bind (accounts_unbindAll _) fun _ => .bind (.edit _) fun _ => ?_
  exact .bind (.look _) fun _ => .bind (.note _) fun _ => .pure rfl

theorem accounts_scanRecord (directory : H) (parent : InodeId) (recursive : Bool) :
    Accounts (scanRecord fs strict scanBelow directory parent recursive) 0 noHandles := by
  refine .bind (.attempt 0 (.ask _)) fun listed => ?_
  split
  · exact accounts_applyListing fs strict hbelow _ _ _ _
  · split
    · refine .bind (.look _) fun _ => .bind (.note _) fun _ => ?_
      exact .bind (.edit _) fun _ => .pure rfl
    · exact .throw _

/-- The handle of the directory is given back. -/
theorem accounts_scanDirectory (directory : H) (recursive : Bool) :
    Accounts (scanDirectory fs strict scanBelow directory recursive) 1 noHandles := by
  refine .releasing (.bind (.attempt 0 (accounts_resolve fs directory)) fun resolved => ?_)
  split
  · exact .bind (.note _) fun _ => .pure rfl
  · exact .throw _
  · exact accounts_scanRecord fs strict hbelow _ _ _

end below

variable (strict : Bool)

theorem accounts_scanWithin (depth : Nat) (directory : H) (recursive : Bool) :
    Accounts (scanWithin fs strict depth directory recursive) 1 noHandles := by
  induction depth generalizing directory recursive with
  | zero => exact .releasing (.throw _)
  | succ depth ih => exact accounts_scanDirectory fs strict ih directory recursive

theorem accounts_scan (directory : H) (recursive : Bool) :
    Accounts (scan fs strict directory recursive) 1 noHandles :=
  .bind (.look _) fun _ => accounts_scanWithin fs strict _ _ _

/-- The handle of the root is given away to the scan, or back if there is none. -/
theorem accounts_scanRoot : Accounts (scanRoot fs strict) 0 noHandles := by
  refine .bind (.wrapping _ (.askOpen _ _)) fun root => ?_
  refine .bind (.attempt 1 (accounts_resolve fs root)) fun resolved => ?_
  split
  · exact .bind (.edit _) fun _ => accounts_scan fs strict _ _
  · exact .releasing (.throw _)

/-! ### Watching -/

theorem accounts_rescanRoots : Accounts (rescanRoots fs strict) 0 noHandles :=
  .bind (accounts_scanRoot fs strict) fun _ => .bind (.editGet _) fun _ => .pure rfl

theorem accounts_baseline : Accounts (baseline fs strict) 0 noHandles := by
  refine .bind (.wrapping _ (accounts_rescanRoots fs strict)) fun _ => .bind (.look _) fun _ => ?_
  refine .bind (.note _) fun _ => .bind (.look _) fun verdict => ?_
  split
  · exact .pure rfl
  · exact .bind (.note _) fun _ => .pure rfl

/-- The handles that come with notifications. -/
def handed (batch : List (Notification H)) : Nat := batch.countP (·.object.isSome)

theorem handed_cons (n : Notification H) (rest : List (Notification H)) :
    handed (n :: rest) = inOption n.object + handed rest := by
  rw [handed, List.countP_cons, Nat.add_comm]
  cases n.object <;> rfl

theorem accounts_releaseObject (n : Notification H) (extra : Nat) :
    Accounts (releaseObject n : Track σ ε Unit) (inOption n.object + extra) fun _ => extra := by
  unfold releaseObject
  cases hobject : n.object with
  | some object =>
    show Accounts _ (1 + extra) _
    rw [Nat.add_comm]
    exact .release
  | none =>
    show Accounts _ (0 + extra) _
    rw [Nat.zero_add]
    exact .pure rfl

theorem accounts_handle (n : Notification H) :
    Accounts (handle fs strict n) (inOption n.object) noHandles := by
  unfold handle
  split
  · exact .bind (accounts_releaseObject n 0) fun _ => .throw _
  · split
    · next hobject =>
      rw [hobject]
      exact .wrapping _ (accounts_scan fs strict _ _)
    · refine .bind (.note _) fun _ => ?_
      refine .bind (.attempt (inOption n.object) (accounts_rescanRoots fs strict)) fun outcome => ?_
      cases outcome with
      | ok summary => exact .bind (accounts_releaseObject n 0) fun _ => .pure rfl
      | error e => exact .bind (accounts_releaseObject n 0) fun _ => .throw _
    · exact .bind (.note _) fun _ => .bind (accounts_releaseObject n 0) fun _ => .pure rfl

theorem accounts_forM_releaseObject (batch : List (Notification H)) :
    Accounts (batch.forM releaseObject : Track σ ε PUnit) (handed batch) noHandles := by
  induction batch with
  | nil => exact .pure rfl
  | cons n rest ih =>
    rw [handed_cons]
    exact .bind (accounts_releaseObject n _) fun _ => ih

/-- After a notification that fails the handles of the others are given back all the same. -/
theorem accounts_handleAll (batch : List (Notification H)) :
    Accounts (handleAll fs strict batch) (handed batch) noHandles := by
  induction batch with
  | nil => exact .pure rfl
  | cons n rest ih =>
    rw [handed_cons, Nat.add_comm]
    refine .bind (.attempt (handed rest) (accounts_handle fs strict n)) fun outcome => ?_
    cases outcome with
    | ok first => exact .bind ih fun _ => .pure rfl
    | error e => exact .bind (accounts_forM_releaseObject rest) fun _ => .throw _

theorem accounts_processBatch (batch : List (Notification H)) :
    Accounts (processBatch fs strict batch) (handed batch) noHandles := by
  refine .bind (accounts_handleAll fs strict batch) fun _ => .bind (.editGet _) fun count => ?_
  split
  · exact .bind (.note _) fun _ => .pure rfl
  · exact .pure rfl

/-! ### Checking stored fingerprints -/

theorem accounts_currentAttributes (key : StoreKey) :
    Accounts (currentAttributes fs key) 0 noHandles := by
  unfold currentAttributes
  split
  · exact .throw _
  · exact .bind (.askOpen _ _) fun _ => .releasing (.wrapping _ (.ask _))

theorem accounts_verifyRow (key : StoreKey) (row : StoreRow) :
    Accounts (verifyRow fs key row : Track σ ε StoreRow) 0 noHandles := by
  unfold verifyRow
  split
  · refine .bind (.attempt 0 (accounts_currentAttributes fs key)) fun outcome => ?_
    split
    · split <;> exact .pure rfl
    · exact .pure rfl
    · split
      · exact .pure rfl
      · exact .bind (.note _) fun _ => .pure rfl
    · exact .bind (.note _) fun _ => .pure rfl
  · exact .pure rfl

theorem accounts_verifyRows (rows : List (StoreKey × StoreRow)) :
    Accounts (verifyRows fs rows : Track σ ε (List (StoreKey × StoreRow) × Nat)) 0 noHandles := by
  induction rows with
  | nil => exact .pure rfl
  | cons p rest ih =>
    exact .bind (accounts_verifyRow fs _ _) fun _ => .bind ih fun _ => .pure rfl

theorem accounts_verify (s : Store) :
    Accounts (verify fs s : Track σ ε (Nat × Store)) 0 noHandles := by
  refine .bind (accounts_verifyRows fs _) fun p => ?_
  obtain ⟨rows, count⟩ := p
  simp only
  split
  · exact .bind (.note _) fun _ => .pure rfl
  · exact .pure rfl

/-! ### Jobs -/

/-- Everything that a program does with the tracker. -/
inductive Job (H : Type) where
  | call (c : Call H)
  /-- Finds the record of an open object. -/
  | resolve (object : H)
  /-- Checks stored fingerprints. -/
  | verify (s : Store)

/-- The handles that are given to a job for good. An object whose record is found is only lent. -/
def Job.given : Job H → Nat
  | .call (.processBatch batch) => handed batch
  | .call (.scan _ _) => 1
  | _ => 0

/-- The state after a job, whether it gave a result or failed. -/
def Job.after (fs : Filesystem σ H) (strict : Bool) (j : Job H) (w : Tracker σ) : Tracker σ :=
  match j with
  | .call c => c.after fs strict w
  | .resolve object => ((Tracker.resolve fs object).run w).2
  | .verify s => ((Tracker.verify fs s : Track σ Empty (Nat × Store)).run w).2

theorem Accounts.balanced {owed : Nat} {x : Track σ ε α} (hx : Accounts x owed noHandles)
    {w : Tracker σ} (hw : owed ≤ w.leases.count) :
    (x.run w).2.leases = ⟨w.leases.count - owed, w.leases.overdrawn⟩ := by
  obtain ⟨hoverdrawn, hcount⟩ := hx w hw
  have hnone : heldBy noHandles (x.run w).1 = 0 := by cases (x.run w).1 <;> rfl
  rw [hnone] at hcount
  generalize (x.run w).2.leases = after at *
  obtain ⟨count, overdrawn⟩ := after
  simp only [Nat.add_zero] at hoverdrawn hcount
  rw [hoverdrawn, ← hcount, Nat.add_sub_cancel]

/-- No handle leaks and none is given back twice: whatever the filesystem answers, whatever is in the
tree and whether the job gives a result or fails, afterwards just as many handles are open as before,
less those that were given to the job; and at no moment was a handle given back while none was open. -/
theorem Job.leases_after (strict : Bool) (j : Job H) (w : Tracker σ)
    (hgiven : j.given ≤ w.leases.count) :
    (j.after fs strict w).leases = ⟨w.leases.count - j.given, w.leases.overdrawn⟩ := by
  cases j with
  | call c =>
    cases c with
    | baseline => exact (accounts_baseline fs strict).balanced hgiven
    | rescanRoots => exact (accounts_rescanRoots fs strict).balanced hgiven
    | processBatch batch => exact (accounts_processBatch fs strict batch).balanced hgiven
    | scan directory recursive => exact (accounts_scan fs strict directory recursive).balanced hgiven
    | scanRoot => exact (accounts_scanRoot fs strict).balanced hgiven
  | resolve object => exact (accounts_resolve fs object).balanced hgiven
  | verify s => exact (accounts_verify fs s).balanced hgiven

/-- Notifications of which the first one leads to a failure: there is nothing behind its handle. -/
def failingBatch : List (Notification Serial) :=
  [⟨recordVersion, modifyDirectoryBit, some 1⟩, ⟨recordVersion, modifyDirectoryBit, some 0⟩,
    ⟨recordVersion, overflowBit, none⟩]

/-- A tracker with the handles of the batch and one more. -/
def holding : Tracker Disk where
  files := .empty
  leases := { count := 3 }
  ledger := { tree := {} }

theorem leases_after_failingBatch :
    ((processBatch Disk.filesystem false failingBatch).run holding).1.isOk = false ∧
      (Job.call (.processBatch failingBatch)).given ≤ holding.leases.count ∧
      ((Job.call (.processBatch failingBatch)).after Disk.filesystem false holding).leases =
        ⟨1, false⟩ := by
  refine ⟨by decide +kernel, by decide +kernel, ?_⟩
  exact Job.leases_after Disk.filesystem false (.call (.processBatch failingBatch)) holding
    (by decide +kernel)

end Tracker

end TreeWatch

import TreeWatch.Tracker.Scan

/-!
# Runs of computations on trackers

What each way of building a computation does when it is run.

## Main results

- `Tracker.run_bind`, `Tracker.run_attempt`, `Tracker.run_releasing` and so on
-/

namespace TreeWatch.Tracker

variable {σ H ε ε' α β : Type}

@[simp] theorem run_pure (a : α) (w : Tracker σ) :
    (pure a : Track σ ε α).run w = (.ok a, w) := rfl

@[simp] theorem run_throw (e : ε) (w : Tracker σ) :
    (throw e : Track σ ε α).run w = (.error e, w) := rfl

theorem run_bind (x : Track σ ε α) (f : α → Track σ ε β) (w : Tracker σ) :
    (x >>= f).run w =
      match x.run w with
      | (.ok a, w') => (f a).run w'
      | (.error e, w') => (.error e, w') := by
  change (ExceptT.bindCont f (x.run w).1) (x.run w).2 = _
  rcases x.run w with ⟨r, w'⟩
  cases r <;> rfl

/-- Where both parts give a result, the first one does. -/
theorem run_bind_eq_ok {x : Track σ ε α} {f : α → Track σ ε β} {w w' : Tracker σ} {b : β}
    (h : (x >>= f).run w = (.ok b, w')) :
    ∃ a w₁, x.run w = (.ok a, w₁) ∧ (f a).run w₁ = (.ok b, w') := by
  rw [run_bind] at h
  generalize x.run w = outcome at h ⊢
  obtain ⟨e | a, w₁⟩ := outcome
  · cases h
  · exact ⟨a, w₁, rfl, h⟩

@[simp] theorem run_look (f : Tracker σ → α) (w : Tracker σ) :
    (look f : Track σ ε α).run w = (.ok (f w), w) := rfl

@[simp] theorem run_edit (f : Clock → Ledger → Ledger) (w : Tracker σ) :
    (edit f : Track σ ε Unit).run w = (.ok (), { w with ledger := f w.clock w.ledger }) := rfl

@[simp] theorem run_editGet (f : Clock → Ledger → α × Ledger) (w : Tracker σ) :
    (editGet f : Track σ ε α).run w =
      (.ok (f w.clock w.ledger).1, { w with ledger := (f w.clock w.ledger).2 }) := rfl

theorem run_editTry (f : Clock → Ledger → Except TreeError Ledger) (w : Tracker σ) :
    (editTry f).run w =
      match f w.clock w.ledger with
      | .ok ledger => (.ok (), { w with ledger })
      | .error e => (.error e, w) := rfl

@[simp] theorem run_note (event : LogEvent) (w : Tracker σ) :
    (note event : Track σ ε Unit).run w = (.ok (), { w with ledger := w.ledger.note event }) := rfl

@[simp] theorem run_attempt (x : Track σ ε α) (w : Tracker σ) :
    (attempt x : Track σ ε' (Except ε α)).run w = (.ok (x.run w).1, (x.run w).2) := rfl

theorem run_wrapping (wrap : ε → ε') (x : Track σ ε α) (w : Tracker σ) :
    (wrapping wrap x).run w =
      match x.run w with
      | (.ok a, w') => (.ok a, w')
      | (.error e, w') => (.error (wrap e), w') := rfl

@[simp] theorem run_release (w : Tracker σ) :
    (release : Track σ ε Unit).run w = (.ok (), { w with leases := w.leases.giveBack }) := rfl

@[simp] theorem run_releasing (x : Track σ ε α) (w : Tracker σ) :
    (releasing x).run w =
      ((x.run w).1, { (x.run w).2 with leases := (x.run w).2.leases.giveBack }) := rfl

@[simp] theorem run_ask (call : StateM σ (Except ε α)) (w : Tracker σ) :
    (ask call).run w = ((call.run w.files).1, { w with files := (call.run w.files).2 }) := rfl

theorem run_askOpen (opened : α → Bool) (call : StateM σ (Except ε α)) (w : Tracker σ) :
    (askOpen opened call).run w =
      match (call.run w.files).1 with
      | .ok a =>
        (.ok a, { w with
          files := (call.run w.files).2
          leases := if opened a then w.leases.take else w.leases })
      | .error e => (.error e, { w with files := (call.run w.files).2 }) := rfl

/-! ### What a result tells -/

variable {r : Except ε α} {a : α} {w w' : Tracker σ}

theorem run_of_attempt {x : Track σ ε α}
    (h : (attempt x : Track σ ε' (Except ε α)).run w = (.ok r, w')) : x.run w = (r, w') := by
  rw [run_attempt] at h
  obtain ⟨hr, hw⟩ := Prod.ext_iff.1 h
  exact Prod.ext (Except.ok.inj hr) hw

theorem run_of_wrapping {wrap : ε → ε'} {x : Track σ ε α}
    (h : (wrapping wrap x).run w = (.ok a, w')) : x.run w = (.ok a, w') := by
  rw [run_wrapping] at h
  rcases hrun : x.run w with ⟨r, w₁⟩
  rw [hrun] at h
  cases r <;> cases h
  rfl

theorem answer_of_ask {call : StateM σ (Except ε α)} (h : (ask call).run w = (.ok a, w')) :
    (call.run w.files).1 = .ok a :=
  (Prod.ext_iff.1 h).1

theorem answer_of_askOpen {opened : α → Bool} {call : StateM σ (Except ε α)}
    (h : (askOpen opened call).run w = (.ok a, w')) : (call.run w.files).1 = .ok a := by
  rw [run_askOpen] at h
  split at h
  · next hanswer =>
    cases h
    exact hanswer
  · cases h

/-! ### Changes that the tree may refuse -/

theorem run_bindName (parent : InodeId) (name : Bytes) (child : InodeId) (w : Tracker σ) :
    (bindName parent name child : Track σ ScanError Unit).run w =
      match w.tree.addEntry parent name child with
      | .ok (_, t, o) =>
        (.ok (), { w with ledger := { w.ledger with tree := t, journal := w.ledger.journal ++ [o] } })
      | .error e => (.error (.tree e), w) := by
  rw [bindName, run_wrapping, run_editTry, Ledger.addEntry, tree]
  cases w.ledger.tree.addEntry parent name child <;> rfl

theorem run_unbindEntry (entry : EntryId) (w : Tracker σ) :
    (unbindEntry entry : Track σ ScanError Unit).run w =
      match w.tree.removeEntry (w.clock w.ledger.reads) entry with
      | .ok (t, o) =>
        (.ok (), { w with ledger :=
          { w.ledger with
            tree := t
            journal := w.ledger.journal ++ [o]
            reads := w.ledger.reads + 1 } })
      | .error e => (.error (.tree e), w) := by
  rw [unbindEntry, run_wrapping, run_editTry, Ledger.removeEntry, tree]
  cases w.ledger.tree.removeEntry (w.clock w.ledger.reads) entry <;> rfl

end TreeWatch.Tracker

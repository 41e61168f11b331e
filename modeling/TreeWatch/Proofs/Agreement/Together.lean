import TreeWatch.Proofs.Agreement.Current
import TreeWatch.Proofs.Tree.Blank

/-!
# Computations side by side

Two computations begun in states that differ in nothing but fingerprints, open handles and the log. If
they go together, they end in such states again, both with a result or both with the same failure.

## Main definitions

- `Tracker.Alike`, `Tracker.InStep` : two states that differ in fingerprints, handles and the log at most
- `Tracker.Together` : from two such states on, two computations go together

## Main results

- `Tracker.Together.bind`, `Tracker.Together.attempt_bind` and so on : one rule for each way to build a
  computation
- `Tracker.Together.left`, `Tracker.Together.right` : one of the two does something that the other
  leaves out

## Design notes

What is known of a state is said of the left one; the right one has the same blank tree. As for
triples, nothing is claimed of trees that have outgrown their slot numbers at the end.
-/

namespace TreeWatch.Tracker

variable {σ ε ε' α β γ δ : Type}

/-- The states differ in fingerprints, open handles and the log at most. -/
structure Alike (w w' : Tracker σ) : Prop where
  files : w'.files = w.files
  clock : w'.clock = w.clock
  reads : w'.ledger.reads = w.ledger.reads
  journal : w'.ledger.journal = w.ledger.journal
  blank : w'.tree.blank = w.tree.blank

/-- Two such states over a disk. No inode number leads to the record of another object. -/
structure InStep (fs : Filesystem σ Serial) (d : Disk) (present : Serial → Prop)
    (w w' : Tracker σ) : Prop extends Alike w w' where
  plain : fs.Plain w.files d
  formed : w.tree.Formed
  upToDate : w.tree.view.UpToDate d present

/-- Both are results that match, or both are the same failure. -/
def Matches (P : α → β → Prop) : Except ε α → Except ε β → Prop
  | .ok a, .ok b => P a b
  | .error e, .error e' => e = e'
  | _, _ => False

/-- Begun in `w` and `w'`, the computations end in step, both with results as told or both with the same
failure. Marks and right names in the tree stay. -/
def Together (fs : Filesystem σ Serial) (d : Disk) (present : Serial → Prop) (x : Track σ ε α)
    (y : Track σ ε β) (w w' : Tracker σ) (Q : α → β → Tracker σ → Prop) : Prop :=
  (x.run w).2.tree.Fits →
    InStep fs d present (x.run w).2 (y.run w').2 ∧
      View.Onward d present w.tree.view (x.run w).2.tree.view ∧
      Matches (fun a b => Q a b (x.run w).2) (x.run w).1 (y.run w').1

variable {fs : Filesystem σ Serial} {d : Disk} {present : Serial → Prop} {w w' w₁ w₁' : Tracker σ}

theorem Alike.trans {w'' : Tracker σ} (h : Alike w w') (h' : Alike w' w'') : Alike w w'' :=
  ⟨h'.files.trans h.files, h'.clock.trans h.clock, h'.reads.trans h.reads,
    h'.journal.trans h.journal, h'.blank.trans h.blank⟩

namespace InStep

/-- The left state may change in handles and the log only. -/
theorem left (h : InStep fs d present w w') (hfiles : w₁.files = w.files) (hclock : w₁.clock = w.clock)
    (hreads : w₁.ledger.reads = w.ledger.reads) (hjournal : w₁.ledger.journal = w.ledger.journal)
    (htree : w₁.tree = w.tree) : InStep fs d present w₁ w' where
  files := by rw [hfiles, h.files]
  clock := by rw [hclock, h.clock]
  reads := by rw [hreads, h.reads]
  journal := by rw [hjournal, h.journal]
  blank := by rw [htree, h.blank]
  plain := hfiles ▸ h.plain
  formed := htree ▸ h.formed
  upToDate := htree ▸ h.upToDate

theorem right (h : InStep fs d present w w') (halike : Alike w' w₁') :
    InStep fs d present w w₁' :=
  ⟨h.toAlike.trans halike, h.plain, h.formed, h.upToDate⟩

theorem leases (h : InStep fs d present w w') (leases leases' : Leases) :
    InStep fs d present { w with leases } { w' with leases := leases' } := by
  have hleft : InStep fs d present { w with leases } w' := h.left rfl rfl rfl rfl rfl
  exact hleft.right ⟨rfl, rfl, rfl, rfl, rfl⟩

theorem noted (h : InStep fs d present w w') (event event' : LogEvent) :
    InStep fs d present { w with ledger := w.ledger.note event }
      { w' with ledger := w'.ledger.note event' } := by
  have hleft : InStep fs d present { w with ledger := w.ledger.note event } w' :=
    h.left rfl rfl rfl rfl rfl
  exact hleft.right ⟨rfl, rfl, rfl, rfl, rfl⟩

/-- What remains to be said of two ledgers that take the place of those of two states. -/
theorem edited (h : InStep fs d present w w') {l l' : Ledger} (hformed : l.tree.Formed)
    (hupToDate : l.tree.view.UpToDate d present) (hreads : l'.reads = l.reads)
    (hjournal : l'.journal = l.journal) (hblank : l'.tree.blank = l.tree.blank) :
    InStep fs d present { w with ledger := l } { w' with ledger := l' } :=
  ⟨⟨h.files, h.clock, hreads, hjournal, hblank⟩, h.plain, hformed, hupToDate⟩

theorem plain' (h : InStep fs d present w w') : fs.Plain w'.files d := h.files ▸ h.plain

end InStep

namespace Together

variable {P : α → β → Tracker σ → Prop} {Q : γ → δ → Tracker σ → Prop} {x : Track σ ε α}
  {y : Track σ ε β} {f : α → Track σ ε γ} {g : β → Track σ ε δ}

protected theorem pure {a : α} {b : β} (h : InStep fs d present w w') (hP : P a b w) :
    Together fs d present (pure a : Track σ ε α) (pure b) w w' P :=
  fun _ => ⟨h, .refl, hP⟩

protected theorem throw (e : ε) (h : InStep fs d present w w') :
    Together fs d present (throw e : Track σ ε α) (throw e) w w' P :=
  fun _ => ⟨h, .refl, rfl⟩

theorem mono {P' : α → β → Tracker σ → Prop} (h : Together fs d present x y w w' P)
    (hPP : ∀ a b w₁, View.Onward d present w.tree.view w₁.tree.view → P a b w₁ → P' a b w₁) :
    Together fs d present x y w w' P' := by
  intro fits
  obtain ⟨hstep, honward, hmatch⟩ := h fits
  refine ⟨hstep, honward, ?_⟩
  generalize (x.run w).2 = w₁ at *
  cases hx : (x.run w).1 <;> cases hy : (y.run w').1 <;> rw [hx, hy] at hmatch
  · exact hmatch
  · exact hmatch
  · exact hmatch
  · exact hPP _ _ _ honward hmatch

theorem bind (hx : Together fs d present x y w w' P) (htame : ∀ a, Tame (f a))
    (hf : ∀ a b w₁ w₁', InStep fs d present w₁ w₁' →
      View.Onward d present w.tree.view w₁.tree.view → P a b w₁ →
        Together fs d present (f a) (g b) w₁ w₁' Q) :
    Together fs d present (x >>= f) (y >>= g) w w' Q := by
  intro fits
  unfold Together at hx
  rw [run_bind] at fits ⊢
  rw [run_bind]
  generalize x.run w = left at hx fits ⊢
  generalize y.run w' = right at hx ⊢
  obtain ⟨r, w₁⟩ := left
  obtain ⟨r', w₁'⟩ := right
  have hmid : w₁.tree.Fits := by
    cases r with
    | error e => exact fits
    | ok a => exact ((htame a).grows w₁).fits fits
  obtain ⟨hstep, honward, hmatch⟩ := hx hmid
  cases r with
  | error e =>
    cases r' with
    | error e' => exact ⟨hstep, honward, hmatch⟩
    | ok b => exact hmatch.elim
  | ok a =>
    cases r' with
    | error e' => exact hmatch.elim
    | ok b =>
      obtain ⟨hstep', honward', hmatch'⟩ := hf a b w₁ w₁' hstep honward hmatch fits
      exact ⟨hstep', honward.trans honward', hmatch'⟩

/-- The computations may be replaced by others that end as they do, and so may the states they begin
in. -/
theorem of_run {x' : Track σ ε α} {y' : Track σ ε β} (hx : x.run w = x'.run w₁)
    (hy : y.run w' = y'.run w₁') (htree : w₁.tree = w.tree)
    (h : Together fs d present x' y' w₁ w₁' P) : Together fs d present x y w w' P := by
  unfold Together at h ⊢
  rw [hx, hy, ← htree]
  exact h

/-- Only the left one does something, which leaves its tree as it is. -/
theorem left {a : α} {y : Track σ ε δ} (hx : x.run w = (.ok a, w₁)) (htree : w₁.tree = w.tree)
    (h : Together fs d present (f a) y w₁ w' Q) : Together fs d present (x >>= f) y w w' Q := by
  unfold Together at h ⊢
  rw [run_bind, hx, ← htree]
  exact h

/-- Only the right one does something. -/
theorem right {b : β} {x : Track σ ε γ} (hy : y.run w' = (.ok b, w₁'))
    (h : Together fs d present x (g b) w w₁' Q) : Together fs d present x (y >>= g) w w' Q := by
  unfold Together at h ⊢
  rw [run_bind y, hy]
  exact h

/-- Both do something, and the left one leaves its tree as it is. -/
theorem step {a : α} {b : β} (hx : x.run w = (.ok a, w₁)) (hy : y.run w' = (.ok b, w₁'))
    (htree : w₁.tree = w.tree) (h : Together fs d present (f a) (g b) w₁ w₁' Q) :
    Together fs d present (x >>= f) (y >>= g) w w' Q :=
  left hx htree (right hy h)

theorem attempt_step {f : Except ε α → Track σ ε' γ} {g : Except ε β → Track σ ε' δ} {r : Except ε α}
    {r' : Except ε β} (hx : x.run w = (r, w₁)) (hy : y.run w' = (r', w₁'))
    (htree : w₁.tree = w.tree) (h : Together fs d present (f r) (g r') w₁ w₁' Q) :
    Together fs d present (attempt x >>= f) (attempt y >>= g) w w' Q := by
  have hleft : (attempt x : Track σ ε' (Except ε α)).run w = (.ok r, w₁) := by rw [run_attempt, hx]
  have hright : (attempt y : Track σ ε' (Except ε β)).run w' = (.ok r', w₁') := by
    rw [run_attempt, hy]
  exact step hleft hright htree h

theorem wrapping_step {wrap : ε → ε'} {f : α → Track σ ε' γ} {g : β → Track σ ε' δ} {a : α} {b : β}
    (hx : x.run w = (.ok a, w₁)) (hy : y.run w' = (.ok b, w₁')) (htree : w₁.tree = w.tree)
    (h : Together fs d present (f a) (g b) w₁ w₁' Q) :
    Together fs d present (Tracker.wrapping wrap x >>= f) (Tracker.wrapping wrap y >>= g) w w' Q := by
  have hleft : (Tracker.wrapping wrap x).run w = (.ok a, w₁) := by rw [run_wrapping, hx]
  have hright : (Tracker.wrapping wrap y).run w' = (.ok b, w₁') := by rw [run_wrapping, hy]
  exact step hleft hright htree h

theorem attempt_bind {f : Except ε α → Track σ ε' γ} {g : Except ε β → Track σ ε' δ}
    (hx : Together fs d present x y w w' P) (htame : ∀ r, Tame (f r))
    (hok : ∀ a b w₁ w₁', InStep fs d present w₁ w₁' →
      View.Onward d present w.tree.view w₁.tree.view → P a b w₁ →
        Together fs d present (f (.ok a)) (g (.ok b)) w₁ w₁' Q)
    (herror : ∀ e w₁ w₁', InStep fs d present w₁ w₁' →
      View.Onward d present w.tree.view w₁.tree.view →
        Together fs d present (f (.error e)) (g (.error e)) w₁ w₁' Q) :
    Together fs d present (attempt x >>= f) (attempt y >>= g) w w' Q := by
  have hattempt : Together fs d present (attempt x : Track σ ε' (Except ε α)) (attempt y) w w'
      fun r r' w₁ => Matches (fun a b => P a b w₁) r r' := fun fits => hx fits
  refine hattempt.bind htame fun r r' w₁ w₁' hstep honward hmatch => ?_
  cases r with
  | error e =>
    cases r' with
    | error e' =>
      obtain rfl : e = e' := hmatch
      exact herror e w₁ w₁' hstep honward
    | ok b => exact hmatch.elim
  | ok a =>
    cases r' with
    | error e' => exact hmatch.elim
    | ok b => exact hok a b w₁ w₁' hstep honward hmatch

theorem wrapping {wrap : ε → ε'} (h : Together fs d present x y w w' P) :
    Together fs d present (wrapping wrap x) (wrapping wrap y) w w' P := by
  unfold Together at h ⊢
  rw [run_wrapping, run_wrapping]
  generalize x.run w = left at h ⊢
  generalize y.run w' = right at h ⊢
  obtain ⟨r, w₁⟩ := left
  obtain ⟨r', w₁'⟩ := right
  cases r <;> cases r'
  · exact fun fits => ⟨(h fits).1, (h fits).2.1, congrArg wrap (h fits).2.2⟩
  · exact h
  · exact h
  · exact h

theorem releasing (h : Together fs d present x y w w' P)
    (hP : ∀ a b w₁ leases, P a b w₁ → P a b { w₁ with leases }) :
    Together fs d present (releasing x) (releasing y) w w' P := by
  intro fits
  obtain ⟨hstep, honward, hmatch⟩ := h fits
  refine ⟨hstep.leases _ _, honward, ?_⟩
  rw [run_releasing, run_releasing]
  simp only
  generalize (x.run w).2 = w₁ at *
  cases hx : (x.run w).1 <;> cases hy : (y.run w').1 <;> rw [hx, hy] at hmatch
  · exact hmatch
  · exact hmatch
  · exact hmatch
  · exact hP _ _ _ _ hmatch

end Together

end TreeWatch.Tracker

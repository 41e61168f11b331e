import TreeWatch.Proofs.Tracker.Edits

/-!
# What computations on trackers achieve

Triples for computations on trackers: from a given state on, a result is as told, and the computation
fails only if the circumstances are not good.

## Main definitions

- `Tracker.Tame` : a computation does nothing to the tree but change it, whatever happens
- `Tracker.Does` : from a state on, a computation achieves something

## Main results

- `Tracker.Does.bind`, `Tracker.Does.attempt_bind` and so on : one rule for each way to build a
  computation
- `Tracker.Does.sound` : trees stay sound besides

## Design notes

Nothing is claimed of trees that have outgrown their slot numbers at the end. Trees never shrink, so
a tree that fits at the end did so all the time; this is why `Does.bind` asks the second part to be
tame. No claim is made about the state after a failure.
-/

namespace TreeWatch.Tracker

variable {σ ε ε' α β : Type}

/-- Whatever the filesystem answers, the computation does nothing to the tree but change it. -/
abbrev Tame (x : Track σ ε α) : Prop :=
  EditsOnly (fun _ => True) {} x

/-- Begun in `w`, the computation gives a result as told; it fails only if `good` does not hold.
Nothing is said if the tree does not fit its slot numbers at the end. -/
def Does (x : Track σ ε α) (w : Tracker σ) (good : Prop) (Q : α → Tracker σ → Prop) : Prop :=
  (x.run w).2.tree.Fits →
    match (x.run w).1 with
    | .ok a => Q a (x.run w).2
    | .error _ => ¬good

theorem Tame.grows {x : Track σ ε α} (h : Tame x) (w : Tracker σ) :
    w.tree.Grows (x.run w).2.tree :=
  (h w trivial).tree.grows

namespace Does

variable {good : Prop} {w : Tracker σ} {P Q : α → Tracker σ → Prop} {R : β → Tracker σ → Prop}

protected theorem pure {a : α} (h : Q a w) : Does (pure a : Track σ ε α) w good Q :=
  fun _ => h

protected theorem throw (e : ε) (h : ¬good) : Does (throw e : Track σ ε α) w good Q :=
  fun _ => h

theorem mono {x : Track σ ε α} (h : Does x w good P) (hPQ : ∀ a w', P a w' → Q a w') :
    Does x w good Q := by
  intro fits
  have hrun := h fits
  cases hr : (x.run w).1 with
  | ok a =>
    rw [hr] at hrun
    exact hPQ a _ hrun
  | error e =>
    rw [hr] at hrun
    exact hrun

/-- What never fails gives a result. -/
theorem run_eq {x : Track σ ε α} (h : Does x w True Q) (fits : (x.run w).2.tree.Fits) :
    ∃ a w', x.run w = (.ok a, w') ∧ Q a w' := by
  have hrun := h fits
  generalize x.run w = outcome at hrun
  obtain ⟨result, w'⟩ := outcome
  cases result with
  | ok a => exact ⟨a, w', rfl, hrun⟩
  | error e => exact absurd trivial hrun

/-- Circumstances in which nothing fails may be narrowed. -/
theorem weaken {good' : Prop} {x : Track σ ε α} (h : Does x w good Q) (hgood : good' → good) :
    Does x w good' Q := by
  intro fits
  have hrun := h fits
  cases hr : (x.run w).1 with
  | ok a =>
    rw [hr] at hrun
    exact hrun
  | error e =>
    rw [hr] at hrun
    exact fun h' => hrun (hgood h')

theorem bind {x : Track σ ε α} {f : α → Track σ ε β} (hx : Does x w good P)
    (htame : ∀ a, Tame (f a)) (hf : ∀ a w', P a w' → Does (f a) w' good R) :
    Does (x >>= f) w good R := by
  intro fits
  unfold Does at hx
  rw [run_bind] at fits ⊢
  generalize x.run w = outcome at hx fits ⊢
  obtain ⟨r, w'⟩ := outcome
  cases r with
  | error e => exact hx fits
  | ok a => exact hf a w' (hx (((htame a).grows w').fits fits)) fits

/-- A first part whose run is known. -/
theorem step {x : Track σ ε α} {f : α → Track σ ε β} {a : α} {w' : Tracker σ}
    (hx : x.run w = (.ok a, w')) (hf : Does (f a) w' good R) : Does (x >>= f) w good R := by
  unfold Does at hf ⊢
  rw [run_bind, hx]
  exact hf

theorem attempt_bind {good' : Prop} {x : Track σ ε α} {f : Except ε α → Track σ ε' β}
    (hx : Does x w good' P) (htame : ∀ r, Tame (f r))
    (hok : ∀ a w', P a w' → Does (f (.ok a)) w' good R)
    (herror : ∀ e w', ¬good' → Does (f (.error e)) w' good R) :
    Does (attempt x >>= f) w good R := by
  intro fits
  unfold Does at hx
  rw [run_bind, run_attempt] at fits ⊢
  generalize x.run w = outcome at hx fits ⊢
  obtain ⟨r, w'⟩ := outcome
  have hmid : w'.tree.Fits := ((htame r).grows w').fits fits
  cases r with
  | error e => exact herror e w' (hx hmid) fits
  | ok a => exact hok a w' (hx hmid) fits

/-- An attempt at what never fails gives a result of it. -/
protected theorem attempt {x : Track σ ε α} (h : Does x w True Q) :
    Does (attempt x : Track σ ε' (Except ε α)) w True fun r w' => ∃ a, r = .ok a ∧ Q a w' := by
  intro fits
  obtain ⟨a, w', hrun, hQ⟩ := h.run_eq fits
  rw [run_attempt, hrun]
  exact ⟨a, rfl, hQ⟩

/-- An attempt whose outcome is known. -/
theorem attempt_step {x : Track σ ε α} {f : Except ε α → Track σ ε' β} {r : Except ε α}
    {w' : Tracker σ} (hx : x.run w = (r, w')) (hf : Does (f r) w' good R) :
    Does (attempt x >>= f) w good R := by
  refine step ?_ hf
  rw [run_attempt, hx]

theorem wrapping {wrap : ε → ε'} {x : Track σ ε α} (h : Does x w good Q) :
    Does (wrapping wrap x) w good Q := by
  unfold Does at h ⊢
  rw [run_wrapping]
  generalize x.run w = outcome at h ⊢
  obtain ⟨r, w'⟩ := outcome
  cases r <;> exact h

theorem releasing {x : Track σ ε α} (h : Does x w good P)
    (hPQ : ∀ a w' leases, P a w' → Q a { w' with leases }) : Does (releasing x) w good Q := by
  unfold Does at h ⊢
  rw [run_releasing]
  generalize x.run w = outcome at h ⊢
  obtain ⟨r, w'⟩ := outcome
  intro fits
  have hrun := h fits
  cases r with
  | ok a => exact hPQ a w' _ hrun
  | error e => exact hrun

/-- What the pass at the end of a batch achieves, the batch achieves. -/
theorem afterBatch {P : Tracker σ → Prop}
    (h : Does (reclaimNow : Track σ WatchError Nat) w good fun _ w' => P w')
    (hnote : ∀ w' event, P w' → P { w' with ledger := w'.ledger.note event })
    (summary : ScanSummary) : Does (afterBatch summary) w good fun _ w' => P w' := by
  refine .bind h (fun count => ?_) fun count w' hw' => ?_
  · split
    · exact .bind (.note _) fun _ => .pure _
    · exact .pure _
  · split
    · exact .step (run_note _ _) (.pure (hnote w' _ hw'))
    · exact .pure hw'

/-- Sound trees stay sound besides. -/
theorem sound {x : Track σ ε α} (h : Does x w good Q) (htame : Tame x) (hsound : w.tree.Sound) :
    Does x w good fun a w' => Q a w' ∧ w'.tree.Sound := by
  intro fits
  have hrun := h fits
  have hsound' := Tree.Edits.sound (htame w trivial).tree hsound fits
  cases hr : (x.run w).1 with
  | ok a =>
    rw [hr] at hrun
    exact ⟨hrun, hsound'⟩
  | error e =>
    rw [hr] at hrun
    exact hrun

end Does

end TreeWatch.Tracker

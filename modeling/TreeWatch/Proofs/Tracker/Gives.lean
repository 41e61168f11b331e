import TreeWatch.Proofs.Tracker.Run

/-!
# What computations on trackers give

Triples for computations that succeed with a known result.

## Main definitions

- `Tracker.Gives` : from a state on, a computation gives a result and leads to a state as told

## Main results

- `Tracker.Gives.bind`, `Tracker.Gives.attempt_bind` and so on : one rule for each way to build a
  computation

## Design notes

Nothing is left open here: the computation is shown not to fail, whereas `Tracker.Does` has to leave out
trees that outgrow their slot numbers. A proof of `Gives` has to see to it that there is room.
-/

namespace TreeWatch.Tracker

variable {σ ε ε' α β : Type} {w w' : Tracker σ} {P Q : Tracker σ → Prop} {a : α} {b : β}

/-- Begun in `w`, the computation gives `a` and leads to a state as told. -/
def Gives (x : Track σ ε α) (w : Tracker σ) (a : α) (Q : Tracker σ → Prop) : Prop :=
  ∃ w', x.run w = (.ok a, w') ∧ Q w'

namespace Gives

theorem of_run_eq {x : Track σ ε α} (hx : x.run w = (.ok a, w')) (h : Q w') : Gives x w a Q :=
  ⟨w', hx, h⟩

protected theorem pure (h : Q w) : Gives (pure a : Track σ ε α) w a Q :=
  of_run_eq rfl h

theorem mono {x : Track σ ε α} (h : Gives x w a P) (hPQ : ∀ w', P w' → Q w') : Gives x w a Q := by
  obtain ⟨w', hrun, hP⟩ := h
  exact ⟨w', hrun, hPQ w' hP⟩

theorem bind {x : Track σ ε α} {f : α → Track σ ε β} (hx : Gives x w a P)
    (hf : ∀ w', P w' → Gives (f a) w' b Q) : Gives (x >>= f) w b Q := by
  obtain ⟨w', hrun, hP⟩ := hx
  obtain ⟨w'', hrun', hQ⟩ := hf w' hP
  refine ⟨w'', ?_, hQ⟩
  rw [run_bind, hrun]
  exact hrun'

/-- A first part whose run is known. -/
theorem step {x : Track σ ε α} {f : α → Track σ ε β} (hx : x.run w = (.ok a, w'))
    (hf : Gives (f a) w' b Q) : Gives (x >>= f) w b Q :=
  (of_run_eq (Q := (· = w')) hx rfl).bind fun _ heq => heq ▸ hf

theorem attempt_bind {x : Track σ ε α} {f : Except ε α → Track σ ε' β} (hx : Gives x w a P)
    (hf : ∀ w', P w' → Gives (f (.ok a)) w' b Q) : Gives (attempt x >>= f) w b Q := by
  obtain ⟨w', hrun, hP⟩ := hx
  refine step ?_ (hf w' hP)
  rw [run_attempt, hrun]

/-- An attempt whose outcome is known. -/
theorem attempt_step {x : Track σ ε α} {f : Except ε α → Track σ ε' β} {r : Except ε α}
    (hx : x.run w = (r, w')) (hf : Gives (f r) w' b Q) : Gives (attempt x >>= f) w b Q := by
  refine step ?_ hf
  rw [run_attempt, hx]

theorem wrapping {wrap : ε → ε'} {x : Track σ ε α} (h : Gives x w a Q) :
    Gives (wrapping wrap x) w a Q := by
  obtain ⟨w', hrun, hQ⟩ := h
  refine ⟨w', ?_, hQ⟩
  rw [run_wrapping, hrun]

theorem wrapping_step {wrap : ε → ε'} {x : Track σ ε α} {f : α → Track σ ε' β}
    (hx : x.run w = (.ok a, w')) (hf : Gives (f a) w' b Q) :
    Gives (Tracker.wrapping wrap x >>= f) w b Q :=
  (of_run_eq (Q := (· = w')) hx rfl).wrapping.bind fun _ heq => heq ▸ hf

theorem releasing {x : Track σ ε α} (h : Gives x w a P)
    (hPQ : ∀ w' leases, P w' → Q { w' with leases }) : Gives (releasing x) w a Q := by
  obtain ⟨w', hrun, hP⟩ := h
  refine of_run_eq ?_ (hPQ w' w'.leases.giveBack hP)
  rw [run_releasing, hrun]

end Gives

end TreeWatch.Tracker

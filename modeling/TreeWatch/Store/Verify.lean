import TreeWatch.Store.Basic
import TreeWatch.Tracker.Basic

/-!
# Checking stored fingerprints

Looks up every file that counts as looked at through its token, and lets those be looked at again
that are gone or have changed while nobody watched.

## Main definitions

- `Tracker.verifyRow` : what one row becomes
- `Tracker.verify` : checks a store
-/

namespace TreeWatch.Tracker

variable {σ H ε : Type} (fs : Filesystem σ H)

/-- Reads the attributes of the object in a key, through its token. -/
def currentAttributes (key : StoreKey) : Track σ IdentityError Attributes := do
  match key.token with
  | .error e => throw e
  | .ok token =>
    let object ← openByToken fs token
    releasing (wrapping .call (attributes fs object))

/-- What a row becomes when it is checked. Only rows that count as looked at are. -/
def verifyRow (key : StoreKey) (row : StoreRow) : Track σ ε StoreRow := do
  if row.state = .scanned then
    match ← attempt (currentAttributes fs key) with
    | .ok current =>
      if current.fingerprint.divergesFrom row.fingerprint then
        pure ⟨current.fingerprint, .pending⟩
      else pure row
    | .error .stale => pure { row with state := .pending }
    | .error (.call e) =>
      if e.isVanished then pure { row with state := .pending }
      else
        note (.rowUnverified key.ino (.call e))
        pure row
    | .error (.tooLarge size) =>
      note (.rowUnverified key.ino (.tooLarge size))
      pure row
  else pure row

/-- Checks rows one after another; gives what they become and how many are to be looked at again. -/
def verifyRows : List (StoreKey × StoreRow) → Track σ ε (List (StoreKey × StoreRow) × Nat)
  | [] => pure ([], 0)
  | (key, row) :: rest => do
    let checked ← verifyRow fs key row
    let (others, count) ← verifyRows rest
    let flipped := row.state = .scanned ∧ checked.state = .pending
    pure ((key, checked) :: others, (if flipped then 1 else 0) + count)

/-- The store with the rows in a list in the place of its own of the same keys. -/
def updateRows (s : Store) (rows : List (StoreKey × StoreRow)) : Store :=
  ⟨rows.foldl (fun m p => m.insert p.1 p.2) s.rows⟩

/-- Checks a store; gives how many of its rows are to be looked at again. -/
def verify (s : Store) : Track σ ε (Nat × Store) := do
  let (rows, count) ← verifyRows fs s.rows.toList
  if 0 < count then note (.rowsFlipped count)
  pure (count, updateRows s rows)

end TreeWatch.Tracker

import TreeWatch.Proofs.Mirror.Plain
import TreeWatch.Proofs.Store.Rows
import TreeWatch.Proofs.Tracker.Gives

/-!
# Checking a store

Checking a store examines the rows that count as looked at through their tokens, and nothing else happens
but that events are logged. What the rows become depends only on what is found. If the files stay as they
are meanwhile, every row becomes what `StoreRow.checked` says.

## Main definitions

- `Tracker.Logged` : nothing is different but the log
- `Filesystem.examine`, `Filesystem.findings` : what examining one row finds, or rows one after another
- `Filesystem.Steady` : what keys lead to while the files stay as they are
- `Tracker.verifyInOrder` : checking a store with its rows in some order
- `Store.reviewed` : what becomes of a store in view of what was found

## Main results

- `Tracker.gives_verifyInOrder` : the rows become what is said by the findings
- `Tracker.gives_verify` : what the rows become
- `Filesystem.Plain.steady` : on a disk keys lead to the objects with their tokens
-/

namespace TreeWatch

/-! ### What examining finds -/

/-- What keys were found to lead to. -/
abbrev Findings := List (StoreKey × Except IdentityError Attributes)

namespace Filesystem

variable {σ H : Type} (fs : Filesystem σ H)

/-- What examining the object in a key finds, through its token. -/
def examine (key : StoreKey) : StateM σ (Except IdentityError Attributes) :=
  match key.token with
  | .error e => pure (.error e)
  | .ok token => do
    match ← fs.openByToken token with
    | .error e => pure (.error e)
    | .ok object => return (← fs.attributes object).mapError .call

theorem run_examine (key : StoreKey) (files : σ) :
    (fs.examine key).run files =
      match key.token with
      | .error e => (.error e, files)
      | .ok token =>
        match (fs.openByToken token).run files with
        | (.error e, files) => (.error e, files)
        | (.ok object, files) =>
          let (answer, files) := (fs.attributes object).run files
          (answer.mapError .call, files) := by
  unfold examine
  cases key.token with
  | error e => rfl
  | ok token =>
    simp only [StateT.run_bind]
    rcases (fs.openByToken token).run files with ⟨_ | _, _⟩ <;> rfl

/-- What examining rows one after another finds. Only rows that count as looked at are examined. -/
def findings : List (StoreKey × StoreRow) → StateM σ Findings
  | [] => pure []
  | (key, row) :: rest => do
    if row.state = .scanned then
      let found ← fs.examine key
      return (key, found) :: (← findings rest)
    else findings rest

theorem run_findings_cons (key : StoreKey) (row : StoreRow) (rest : List (StoreKey × StoreRow))
    (files : σ) :
    (fs.findings ((key, row) :: rest)).run files =
      if row.state = .scanned then
        let answer := (fs.examine key).run files
        let others := (fs.findings rest).run answer.2
        ((key, answer.1) :: others.1, others.2)
      else (fs.findings rest).run files := by
  rw [findings]
  split <;> rfl

/-- As long as the files are in these states, examining the object in a key finds `current`, and leads to
such a state again. -/
def SteadyWithin (fs : Filesystem σ H) (states : σ → Prop)
    (current : StoreKey → Except IdentityError Attributes) : Prop :=
  ∀ key files, states files →
    ((fs.examine key).run files).1 = current key ∧ states ((fs.examine key).run files).2

/-- In a state of the files, reading the attributes of the object in a key gives `current` and leaves
everything as it is. -/
def Steady (fs : Filesystem σ H) (files : σ)
    (current : StoreKey → Except IdentityError Attributes) : Prop :=
  ∀ (key : StoreKey) (w : Tracker σ), w.files = files →
    (Tracker.currentAttributes fs key).run w = (current key, w)

end Filesystem

/-- What a row becomes in view of what its key was found to lead to, if that was examined. -/
def StoreRow.reviewed (row : StoreRow) : Option (Except IdentityError Attributes) → StoreRow
  | none => row
  | some found => row.checked found

theorem StoreRow.reviewed_of_not_scanned {row : StoreRow} (h : row.state ≠ .scanned)
    (found? : Option (Except IdentityError Attributes)) : row.reviewed found? = row := by
  cases found? with
  | none => rfl
  | some found => exact checked_of_not_scanned h

namespace Store

variable {found found' : Findings} {key : StoreKey} {row : StoreRow}
  {rest : List (StoreKey × StoreRow)}

/-- What becomes of a store in view of what was found. -/
def reviewed (s : Store) (found : Findings) : Store :=
  ⟨s.rows.mapValues fun key row => row.reviewed (Assoc.get? key found)⟩

/-- What becomes of a store whose keys lead to `current`. -/
def checked (s : Store) (current : StoreKey → Except IdentityError Attributes) : Store :=
  ⟨s.rows.mapValues fun key row => row.checked (current key)⟩

/-- How many rows no longer count as looked at when the keys lead to `current`. -/
def flipped (s : Store) (current : StoreKey → Except IdentityError Attributes) : Nat :=
  s.rows.toList.countP fun p => p.2.state = .scanned ∧ (p.2.checked (current p.1)).state = .pending

/-- How many rows no longer count as looked at in view of what was found. -/
def flips (rows : List (StoreKey × StoreRow)) (found : Findings) : Nat :=
  rows.countP fun p => p.2.state = .scanned ∧ (p.2.reviewed (Assoc.get? p.1 found)).state = .pending

theorem flips_cons : flips ((key, row) :: rest) found =
    (if row.state = .scanned ∧ (row.reviewed (Assoc.get? key found)).state = .pending then 1 else 0) +
      flips rest found := by
  simp [flips, List.countP_cons, Nat.add_comm]

theorem flips_congr (h : ∀ p ∈ rest, Assoc.get? p.1 found = Assoc.get? p.1 found') :
    flips rest found = flips rest found' :=
  List.countP_congr fun p hp => by rw [h p hp]

theorem get?_reviewed (s : Store) (found : Findings) (key : StoreKey) :
    (s.reviewed found).get? key =
      (s.get? key).map (StoreRow.reviewed · (Assoc.get? key found)) :=
  SortedMap.get?_mapValues ..

theorem get?_checked (s : Store) (current : StoreKey → Except IdentityError Attributes)
    (key : StoreKey) : (s.checked current).get? key = (s.get? key).map (·.checked (current key)) :=
  SortedMap.get?_mapValues ..

end Store

/-- What is found for the first row, and what for the others. -/
theorem Filesystem.findings_cons {σ H : Type} {fs : Filesystem σ H} {key : StoreKey}
    {rest : List (StoreKey × StoreRow)} (hnew : key ∉ Assoc.keys rest) (row : StoreRow) (files : σ) :
    let later := if row.state = .scanned then ((fs.examine key).run files).2 else files
    row.reviewed (Assoc.get? key ((fs.findings ((key, row) :: rest)).run files).1) =
        row.checked ((fs.examine key).run files).1 ∧
      (∀ p ∈ rest, Assoc.get? p.1 ((fs.findings ((key, row) :: rest)).run files).1 =
        Assoc.get? p.1 ((fs.findings rest).run later).1) ∧
      ((fs.findings ((key, row) :: rest)).run files).2 = ((fs.findings rest).run later).2 := by
  rw [run_findings_cons]
  by_cases hstate : row.state = .scanned
  · simp only [if_pos hstate, Assoc.get?_cons, if_true, StoreRow.reviewed, true_and, and_true]
    refine fun p hp => if_neg ?_
    rintro rfl
    exact hnew (List.mem_map_of_mem hp)
  · simp only [if_neg hstate, StoreRow.reviewed_of_not_scanned hstate, StoreRow.checked_of_not_scanned hstate,
      and_true, implies_true]

/-- While the files are steady, each row becomes what it becomes when it is checked. -/
theorem Filesystem.SteadyWithin.findings {σ H : Type} {fs : Filesystem σ H} {states : σ → Prop}
    {current : StoreKey → Except IdentityError Attributes} (h : fs.SteadyWithin states current)
    {rows : List (StoreKey × StoreRow)} (hdistinct : (Assoc.keys rows).Nodup) {files : σ}
    (hfiles : states files) :
    (∀ p ∈ rows, p.2.reviewed (Assoc.get? p.1 ((fs.findings rows).run files).1) =
      p.2.checked (current p.1)) ∧ states ((fs.findings rows).run files).2 := by
  induction rows generalizing files with
  | nil => exact ⟨nofun, hfiles⟩
  | cons p rest ih =>
    obtain ⟨key, row⟩ := p
    obtain ⟨hnew, hdistinct⟩ := List.nodup_cons.1 hdistinct
    obtain ⟨hfirst, hothers, hlast⟩ := fs.findings_cons hnew row files
    obtain ⟨hcurrent, hlater⟩ := h key files hfiles
    have hstates : states (if row.state = .scanned then ((fs.examine key).run files).2 else files) := by
      split
      · exact hlater
      · exact hfiles
    obtain ⟨hrest, hend⟩ := ih hdistinct hstates
    refine ⟨List.forall_mem_cons.2 ⟨hcurrent ▸ hfirst, fun p hp => ?_⟩, hlast.symm ▸ hend⟩
    rw [hothers p hp]
    exact hrest p hp

namespace Tracker

variable {σ H ε : Type} {fs : Filesystem σ H} {w w' : Tracker σ}
  {current : StoreKey → Except IdentityError Attributes}

/-! ### Logging -/

/-- Nothing is different but the log. -/
def Logged (w w' : Tracker σ) : Prop :=
  ∃ log, w' = { w with ledger := { w.ledger with log } }

namespace Logged

theorem refl (w : Tracker σ) : Logged w w := ⟨w.ledger.log, rfl⟩

theorem note (h : Logged w w') (event : LogEvent) :
    Logged w { w' with ledger := w'.ledger.note event } := by
  obtain ⟨log, rfl⟩ := h
  exact ⟨log ++ [event], rfl⟩

theorem files (h : Logged w w') : w'.files = w.files := by
  obtain ⟨log, rfl⟩ := h
  rfl

end Logged

/-! ### What rows become -/

/-- Examining a row changes nothing but the files: its object is closed again. -/
theorem run_currentAttributes (fs : Filesystem σ H) (key : StoreKey) (w : Tracker σ) :
    (currentAttributes fs key).run w =
      (((fs.examine key).run w.files).1, { w with files := ((fs.examine key).run w.files).2 }) := by
  rw [fs.run_examine]
  unfold currentAttributes
  cases key.token with
  | error e => rfl
  | ok token =>
    simp only [run_bind, openByToken, run_askOpen]
    rcases (fs.openByToken token).run w.files with ⟨answer, files⟩
    cases answer with
    | error e => rfl
    | ok object =>
      have hleases : w.leases.take.giveBack = w.leases := by simp [Leases.take, Leases.giveBack]
      simp only [if_true, run_releasing, run_wrapping, attributes, run_ask]
      rcases (fs.attributes object).run files with ⟨answer, files⟩
      cases answer <;> simp only [hleases] <;> rfl

theorem gives_verifyRow (fs : Filesystem σ H) (key : StoreKey) (row : StoreRow) (w : Tracker σ) :
    Gives (verifyRow fs key row : Track σ ε StoreRow) w
      (row.checked ((fs.examine key).run w.files).1)
      (Logged { w with
        files := if row.state = .scanned then ((fs.examine key).run w.files).2 else w.files }) := by
  have hlogged : ∀ (w : Tracker σ) (event : LogEvent) (row : StoreRow),
      Gives (note event >>= fun _ => pure row : Track σ ε StoreRow) w row (Logged w) :=
    fun w event row => .step (run_note event w) (.pure ((Logged.refl w).note event))
  unfold verifyRow StoreRow.checked
  by_cases hstate : row.state = .scanned
  · simp only [if_pos hstate]
    refine .attempt_step (run_currentAttributes fs key w) ?_
    generalize (fs.examine key).run w.files = outcome
    obtain ⟨found, files⟩ := outcome
    cases found with
    | ok a =>
      simp only
      split <;> exact .pure (.refl _)
    | error e =>
      cases e with
      | stale => exact .pure (.refl _)
      | tooLarge size => exact hlogged _ _ _
      | call e =>
        simp only
        split
        · exact .pure (.refl _)
        · exact hlogged _ _ _
  · simp only [if_neg hstate]
    exact .pure (.refl w)

/-- Checking rows one after another makes them what is said by the findings. -/
theorem gives_verifyRows (fs : Filesystem σ H) {rows : List (StoreKey × StoreRow)}
    (hdistinct : (Assoc.keys rows).Nodup) (w : Tracker σ) :
    Gives (verifyRows fs rows : Track σ ε _) w
      (rows.map fun p => (p.1, p.2.reviewed (Assoc.get? p.1 ((fs.findings rows).run w.files).1)),
        Store.flips rows ((fs.findings rows).run w.files).1)
      (Logged { w with files := ((fs.findings rows).run w.files).2 }) := by
  induction rows generalizing w with
  | nil => exact .pure (.refl w)
  | cons p rest ih =>
    obtain ⟨key, row⟩ := p
    obtain ⟨hnew, hdistinct⟩ := List.nodup_cons.1 hdistinct
    obtain ⟨w₁, hrun, h₁⟩ := gives_verifyRow (ε := ε) fs key row w
    have hfiles := h₁.files
    obtain ⟨hfirst, hothers, hlast⟩ := fs.findings_cons hnew row w.files
    obtain ⟨w₂, hrest, h₂⟩ := ih hdistinct w₁
    rw [hfiles] at hrest h₂
    have hmap : rest.map (fun p => (p.1, p.2.reviewed (Assoc.get? p.1
        ((fs.findings ((key, row) :: rest)).run w.files).1))) = _ :=
      List.map_congr_left fun p hp => by rw [hothers p hp]
    rw [List.map_cons, hmap, hfirst, Store.flips_cons, hfirst, Store.flips_congr hothers, hlast]
    refine .step hrun (.step hrest (.pure ?_))
    obtain ⟨log₁, rfl⟩ := h₁
    obtain ⟨log₂, rfl⟩ := h₂
    exact ⟨log₂, rfl⟩

/-- Checks a store, with its rows in some order. -/
def verifyInOrder (fs : Filesystem σ H) (order : List (StoreKey × StoreRow)) (s : Store) :
    Track σ ε (Nat × Store) := do
  let (rows, count) ← verifyRows fs order
  if 0 < count then note (.rowsFlipped count)
  pure (count, updateRows s rows)

theorem verify_eq (fs : Filesystem σ H) (s : Store) :
    (verify fs s : Track σ ε (Nat × Store)) = verifyInOrder fs s.rows.toList s := rfl

/-- Checking a store never fails. Whatever the order of the rows, they become what is said by the
findings. -/
theorem gives_verifyInOrder (fs : Filesystem σ H) {s : Store} {order : List (StoreKey × StoreRow)}
    (horder : order.Perm s.rows.toList) (w : Tracker σ) :
    Gives (verifyInOrder fs order s : Track σ ε (Nat × Store)) w
      (Store.flips s.rows.toList ((fs.findings order).run w.files).1,
        s.reviewed ((fs.findings order).run w.files).1)
      (Logged { w with files := ((fs.findings order).run w.files).2 }) := by
  have hdistinct : (Assoc.keys order).Nodup := (horder.map _).nodup_iff.2 s.rows.distinct
  have hrows := gives_verifyRows (ε := ε) fs hdistinct w
  have hcount : ∀ found, Store.flips order found = Store.flips s.rows.toList found :=
    fun found => horder.countP_eq _
  rw [← hcount, Store.reviewed, ← Store.updateRows_map horder]
  refine hrows.bind fun w' hw' => ?_
  dsimp only
  split
  · exact .step (run_note _ w') (.pure (hw'.note _))
  · exact .pure hw'

/-- While the files are steady, the order of the rows makes no difference either. -/
theorem gives_verifyInOrder_of_steady {states : σ → Prop} (h : fs.SteadyWithin states current)
    {s : Store} {order : List (StoreKey × StoreRow)} (horder : order.Perm s.rows.toList)
    (hfiles : states w.files) :
    Gives (verifyInOrder fs order s : Track σ ε (Nat × Store)) w
      (s.flipped current, s.checked current)
      fun w' => states w'.files ∧ Logged { w with files := w'.files } w' := by
  have hdistinct : (Assoc.keys order).Nodup := (horder.map _).nodup_iff.2 s.rows.distinct
  obtain ⟨hrows, hstates⟩ := h.findings hdistinct hfiles
  have hrows' : ∀ p ∈ s.rows.toList, p.2.reviewed (Assoc.get? p.1 ((fs.findings order).run w.files).1) =
      p.2.checked (current p.1) := fun p hp => hrows p (horder.mem_iff.2 hp)
  have hcount : Store.flips s.rows.toList ((fs.findings order).run w.files).1 = s.flipped current :=
    List.countP_congr fun p hp => by rw [hrows' p hp]
  have hstore : s.reviewed ((fs.findings order).run w.files).1 = s.checked current :=
    congrArg Store.mk (SortedMap.ext (List.map_congr_left fun p hp => congrArg (p.1, ·) (hrows' p hp)))
  rw [← hcount, ← hstore]
  refine (gives_verifyInOrder fs horder w).mono fun w' hw' => ?_
  have hfiles' := hw'.files
  exact ⟨hfiles'.symm ▸ hstates, hfiles'.symm ▸ hw'⟩

/-- If the files stay as they are, every row becomes what it becomes when it is checked. -/
theorem gives_verify (h : fs.Steady w.files current) (s : Store) :
    ∃ count s', Gives (verify fs s : Track σ ε (Nat × Store)) w (count, s') (Logged w) ∧
      ∀ key, s'.get? key = (s.get? key).map (·.checked (current key)) := by
  have hsteady : fs.SteadyWithin (· = w.files) current := by
    rintro key _ rfl
    have hrun := (run_currentAttributes fs key w).symm.trans (h key w rfl)
    obtain ⟨hcurrent, hw⟩ := Prod.ext_iff.1 hrun
    exact ⟨hcurrent, congrArg Tracker.files hw⟩
  refine ⟨_, _, (gives_verifyInOrder_of_steady hsteady (.refl _) rfl).mono fun w' hw' => ?_,
    s.get?_checked current⟩
  obtain ⟨hfiles, hlogged⟩ := hw'
  rwa [hfiles] at hlogged

end Tracker

/-! ### Disks -/

namespace Disk

variable {d : Disk} {s : Serial} {n : Node}

/-- The attributes of the object in a key. -/
def current (d : Disk) (key : StoreKey) : Except IdentityError Attributes :=
  match key.token with
  | .error e => .error e
  | .ok token =>
    match d.openByToken token with
    | .error e => .error e
    | .ok s => (d.attributes s).mapError IdentityError.call

theorem openByToken_of_named (hd : d.Regular) (hn : d.node? s = some n) (hs : d.Named s) :
    d.openByToken (tokenOf s) = .ok s := by
  have hlinks : 0 < n.links := (hd.named_iff hn).1 hs
  rw [openByToken, serialIn?_tokenOf (hd.lt_capacity hn)]
  simp [hn, hlinks, tokenOf]

/-- The key of an object with a name leads to that object. -/
theorem current_ofToken (hd : d.Regular) (hn : d.node? s = some n) (hs : d.Named s) :
    d.current (.ofToken n.ino (tokenOf s)) = .ok ⟨n.ino, n.mode, n.fingerprint⟩ := by
  have htoken : (StoreKey.ofToken n.ino (tokenOf s)).token = .ok (tokenOf s) := by
    simp [StoreKey.token, StoreKey.ofToken, IdentityToken.ofBytes, (tokenOf s).fits]
  simp only [current, htoken, openByToken_of_named hd hn hs, attributes_eq hn]
  rfl

end Disk

/-- On a disk examining finds the object with the token. -/
theorem Filesystem.Plain.run_examine {σ : Type} {fs : Filesystem σ Serial} {files : σ} {d : Disk}
    (h : fs.Plain files d) (key : StoreKey) : (fs.examine key).run files = (d.current key, files) := by
  rw [fs.run_examine, Disk.current]
  cases key.token with
  | error e => rfl
  | ok token =>
    simp only [h.openByToken]
    cases d.openByToken token with
    | error e => rfl
    | ok s => simp only [h.attributes]

theorem Filesystem.Plain.steadyWithin {σ : Type} {fs : Filesystem σ Serial} {files : σ} {d : Disk}
    (h : fs.Plain files d) : fs.SteadyWithin (· = files) d.current := by
  rintro key _ rfl
  rw [h.run_examine]
  exact ⟨rfl, rfl⟩

theorem Filesystem.Plain.steady {σ : Type} {fs : Filesystem σ Serial} {files : σ} {d : Disk}
    (h : fs.Plain files d) : fs.Steady files d.current := by
  rintro key w rfl
  rw [Tracker.run_currentAttributes, h.run_examine]

end TreeWatch

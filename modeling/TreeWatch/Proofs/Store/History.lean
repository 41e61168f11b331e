import TreeWatch.Proofs.Store.Verify

/-!
# The history of a store

A file counts as looked at if it was noted as looked at, and everything that was seen of it since then agrees
with the fingerprint that was noted.

## Main definitions

- `Store.Event`, `Store.Step` : what happens to a store, and what it leads to
- `Store.History` : the events that led from the empty store to a store
- `Store.Event.Upholds`, `Store.Event.Refutes` : whether what was seen agrees with a fingerprint

## Main results

- `Store.Step.get?_eq` : what one event does to one row
- `Store.History.scanned_iff` : which files count as looked at
- `Store.History.scanned_exact` : the same, with what follows for files that change little by little
-/

namespace TreeWatch

/-- A row that counts as looked at is examined. -/
theorem Filesystem.isSome_findings {σ H : Type} {fs : Filesystem σ H}
    {rows : List (StoreKey × StoreRow)} {key : StoreKey} {row : StoreRow} (hrow : (key, row) ∈ rows)
    (hscanned : row.state = .scanned) (files : σ) :
    (Assoc.get? key ((fs.findings rows).run files).1).isSome := by
  induction rows generalizing files with
  | nil => cases hrow
  | cons p rest ih =>
    rw [run_findings_cons]
    rcases List.mem_cons.1 hrow with rfl | hrest
    · simp [hscanned, Assoc.get?_cons]
    · split
      · simp only [Assoc.get?_cons]
        split
        · rfl
        · exact ih hrest _
      · exact ih hrest files

namespace Store

/-- What happens to a store. -/
inductive Event where
  /-- A record was noticed. -/
  | absorbed (r : InodeRecord)
  /-- A file was noted as looked at. -/
  | marked (key : StoreKey) (fingerprint : Fingerprint)
  /-- The rows were checked, and this was found. -/
  | checked (found : Findings)

/-- What an event leads to. Rows may be checked on any filesystem, in any state of the tracker and in any
order. -/
inductive Step : Store → Event → Store → Prop where
  | absorb (s : Store) (r : InodeRecord) : Step s (.absorbed r) (s.absorb r).2
  | mark (s : Store) (key : StoreKey) (f : Fingerprint) : Step s (.marked key f) (s.markScanned key f).2
  | verify {σ H : Type} {fs : Filesystem σ H} {order : List (StoreKey × StoreRow)} {s s' : Store}
      {count : Nat} {w w' : Tracker σ} : order.Perm s.rows.toList →
      (Tracker.verifyInOrder fs order s : Track σ Empty (Nat × Store)).run w = (.ok (count, s'), w') →
      Step s (.checked ((fs.findings order).run w.files).1) s'

/-- The events, oldest first, that led from the empty store to a store. -/
inductive History : List Event → Store → Prop where
  | empty : History [] .empty
  | step {events : List Event} {e : Event} {s s' : Store} :
      History events s → Step s e s' → History (events ++ [e]) s'

namespace Event

/-- What becomes of the row of a key. -/
def rowAfter (key : StoreKey) (old? : Option StoreRow) : Event → Option StoreRow
  | .absorbed r =>
    if r.kind = .regular ∧ r.storeKey = key then some (.noticed old? r.fingerprint) else old?
  | .marked k f => if k = key then old?.map fun _ => ⟨f, .scanned⟩ else old?
  | .checked found => old?.map (·.reviewed (Assoc.get? key found))

/-- The event makes a row for the key, unless there is one. -/
def Introduces (key : StoreKey) (e : Event) : Prop :=
  ∃ r, e = .absorbed r ∧ r.kind = .regular ∧ r.storeKey = key

/-- What was seen of the file agrees with the fingerprint: a record that was noticed does not diverge from
it, and what a check found does not refute it. Nor is the file noted as looked at once more. -/
def Upholds (key : StoreKey) (f : Fingerprint) : Event → Prop
  | .absorbed r => r.kind = .regular → r.storeKey = key → f.divergesFrom r.fingerprint = false
  | .marked k _ => k ≠ key
  | .checked found => ∃ answer, Assoc.get? key found = some answer ∧ ¬f.RefutedBy answer

/-- Something was seen of the file that does not agree with the fingerprint. -/
inductive Refutes (key : StoreKey) (f : Fingerprint) : Event → Prop where
  | absorbed {r : InodeRecord} : r.kind = .regular → r.storeKey = key →
      f.divergesFrom r.fingerprint → Refutes key f (.absorbed r)
  | checked {found : Findings} {answer : Except IdentityError Attributes} :
      Assoc.get? key found = some answer → f.RefutedBy answer → Refutes key f (.checked found)

theorem Refutes.not_upholds {key : StoreKey} {f : Fingerprint} {e : Event} (h : e.Refutes key f) :
    ¬e.Upholds key f := by
  cases h with
  | absorbed hregular hkey hdiverges =>
    intro hupholds
    rw [hupholds hregular hkey] at hdiverges
    cases hdiverges
  | checked hfound hrefuted =>
    rintro ⟨answer, hanswer, hupheld⟩
    rw [hfound] at hanswer
    cases hanswer
    exact hupheld hrefuted

end Event

variable {s s' : Store} {e : Event} {events before after : List Event} {key : StoreKey}
  {f : Fingerprint} {row : StoreRow}

theorem get?_empty (key : StoreKey) : empty.get? key = none := rfl

/-! ### One event -/

/-- Checking rows is an event, whatever the filesystem answers. -/
theorem exists_step_verify {σ H : Type} (fs : Filesystem σ H) {order : List (StoreKey × StoreRow)}
    (horder : order.Perm s.rows.toList) (w : Tracker σ) :
    ∃ s', Step s (.checked ((fs.findings order).run w.files).1) s' := by
  obtain ⟨w', hrun, -⟩ := Tracker.gives_verifyInOrder (ε := Empty) fs horder w
  exact ⟨_, .verify horder hrun⟩

theorem get?_markScanned (k : StoreKey) :
    (s.markScanned k f).2.get? key =
      if k = key then (s.get? key).map fun _ => ⟨f, .scanned⟩ else s.get? key := by
  have hrow : s.rows.get? k = s.get? k := rfl
  unfold markScanned
  rw [hrow]
  cases hold : s.get? k with
  | some old =>
    refine (get?_insert ..).trans ?_
    by_cases hkey : k = key
    · subst hkey
      rw [if_pos rfl, if_pos rfl, hold, Option.map_some]
    · rw [if_neg (Ne.symm hkey), if_neg hkey]
  | none =>
    by_cases hkey : k = key
    · subst hkey
      simp [hold]
    · simp [hkey]

/-- The row of a key depends on nothing but the row that it had. -/
theorem Step.get?_eq (h : Step s e s') (key : StoreKey) : s'.get? key = e.rowAfter key (s.get? key) := by
  cases h with
  | absorb r =>
    simp only [Event.rowAfter]
    split
    · next hkey => exact get?_absorb_of_eq hkey.1 hkey.2
    · next hkey => exact get?_absorb_of_ne fun hregular heq => hkey ⟨hregular, heq⟩
  | mark => exact get?_markScanned _
  | @verify σ H fs order _ _ _ w _ horder hrun =>
    obtain ⟨w', hgives, -⟩ := Tracker.gives_verifyInOrder (ε := Empty) fs horder w
    rw [hrun] at hgives
    cases hgives
    exact get?_reviewed ..

/-- A check examines every row that counts as looked at. -/
theorem Step.isSome_of_scanned {found : Findings} (h : Step s (.checked found) s')
    (hrow : s.get? key = some row) (hscanned : row.state = .scanned) :
    (Assoc.get? key found).isSome := by
  cases h with
  | verify horder hrun =>
    have hmem := horder.mem_iff.2 (SortedMap.get?_eq_some_iff.1 hrow)
    exact Filesystem.isSome_findings hmem hscanned _

theorem Step.isSome_iff (h : Step s e s') :
    (s'.get? key).isSome ↔ (s.get? key).isSome ∨ e.Introduces key := by
  rw [h.get?_eq]
  cases e with
  | absorbed r =>
    simp only [Event.rowAfter, Event.Introduces, Event.absorbed.injEq, exists_eq_left']
    split <;> simp_all
  | marked k f =>
    simp only [Event.rowAfter, Event.Introduces]
    split <;> simp
  | checked found => simp [Event.rowAfter, Event.Introduces]

/-- A file counts as looked at after an event if that event says so, or if it did before and what was seen
agrees. -/
theorem Step.scanned_iff (h : Step s e s') :
    s'.get? key = some ⟨f, .scanned⟩ ↔
      (e = .marked key f ∧ (s.get? key).isSome) ∨
        (s.get? key = some ⟨f, .scanned⟩ ∧ e.Upholds key f) := by
  rw [h.get?_eq]
  cases e with
  | absorbed r =>
    simp only [Event.rowAfter, Event.Upholds, reduceCtorEq, false_and, false_or]
    by_cases hkey : r.kind = .regular ∧ r.storeKey = key
    · simp [hkey, StoreRow.noticed_eq_scanned_iff]
    · simp only [if_neg hkey, iff_self_and]
      exact fun _ hregular heq => absurd ⟨hregular, heq⟩ hkey
  | marked k g =>
    simp only [Event.rowAfter, Event.Upholds, Event.marked.injEq]
    by_cases hkey : k = key
    · cases hold : s.get? key <;> simp [hkey]
    · simp [hkey]
  | checked found =>
    simp only [Event.rowAfter, Event.Upholds, reduceCtorEq, false_and, false_or]
    cases hold : s.get? key with
    | none => simp
    | some row =>
      cases hfound : Assoc.get? key found with
      | none =>
        -- a row that counts as looked at would have been examined
        have hpending : row ≠ ⟨f, .scanned⟩ := by
          rintro rfl
          have hexamined := h.isSome_of_scanned hold rfl
          rw [hfound] at hexamined
          cases hexamined
        simp [StoreRow.reviewed, hpending]
      | some answer => simp [StoreRow.reviewed, StoreRow.checked_eq_scanned_iff]

/-! ### Many events -/

/-- An event among several is the last one, or it is one of those before. -/
theorem append_singleton_eq_iff {x y : Event} :
    events ++ [x] = before ++ y :: after ↔ (after = [] ∧ x = y ∧ events = before) ∨
      ∃ after', after = after' ++ [x] ∧ events = before ++ y :: after' := by
  constructor
  · intro heq
    rcases List.eq_nil_or_concat after with rfl | ⟨after', z, rfl⟩
    · obtain ⟨hevents, hlast⟩ := List.append_inj' heq rfl
      exact .inl ⟨rfl, List.singleton_inj.1 hlast, hevents⟩
    · have heq' : events ++ [x] = (before ++ y :: after') ++ [z] := by simpa using heq
      obtain ⟨hevents, hlast⟩ := List.append_inj' heq' rfl
      obtain rfl := List.singleton_inj.1 hlast
      exact .inr ⟨after', by simp, hevents⟩
  · rintro (⟨rfl, rfl, rfl⟩ | ⟨after', rfl, rfl⟩)
    · rfl
    · simp

/-- There is but one last time that a file was noted as looked at. -/
theorem last_mark_unique {before' after' : List Event} {g : Fingerprint}
    (heq : before ++ .marked key f :: after = before' ++ .marked key g :: after')
    (hlast : ∀ e ∈ after, ∀ g, e ≠ .marked key g) (hlast' : ∀ e ∈ after', ∀ g, e ≠ .marked key g) :
    f = g ∧ after = after' := by
  rcases List.append_eq_append_iff.1 heq with ⟨between, -, hrest⟩ | ⟨between, -, hrest⟩
  all_goals
    rw [List.cons_eq_append_iff] at hrest
    obtain ⟨-, hrest⟩ | ⟨later, -, rfl⟩ := hrest
  · simpa using hrest.symm
  · exact absurd rfl (hlast (.marked key g) (by simp) g)
  · simpa [eq_comm] using hrest
  · exact absurd rfl (hlast' (.marked key f) (by simp) f)

namespace History

/-- A key has a row if a record of it was noticed. -/
theorem isSome_iff (h : History events s) :
    (s.get? key).isSome ↔ ∃ e ∈ events, e.Introduces key := by
  induction h with
  | empty => simp [get?_empty]
  | step _ hstep ih => simp [hstep.isSome_iff, ih, or_and_right, exists_or]

/-- A file counts as looked at exactly if it was noted as looked at while it had a row, and everything that
was seen of it since then agrees. -/
theorem scanned_iff (h : History events s) :
    s.get? key = some ⟨f, .scanned⟩ ↔ ∃ before after, events = before ++ .marked key f :: after ∧
      (∃ e ∈ before, e.Introduces key) ∧ ∀ e ∈ after, e.Upholds key f := by
  induction h with
  | empty => simp [get?_empty]
  | @step events e s s' hbefore hstep ih =>
    rw [hstep.scanned_iff, ih, hbefore.isSome_iff]
    constructor
    · rintro (⟨rfl, hrow⟩ | ⟨⟨before, after, rfl, hrow, hupheld⟩, hlast⟩)
      · exact ⟨events, [], rfl, hrow, by simp⟩
      · exact ⟨before, after ++ [e], by simp, hrow, by simpa [or_imp, forall_and] using ⟨hupheld, hlast⟩⟩
    · rintro ⟨before, after, heq, hrow, hupheld⟩
      rcases append_singleton_eq_iff.1 heq with ⟨-, rfl, rfl⟩ | ⟨after', rfl, rfl⟩
      · exact .inl ⟨rfl, hrow⟩
      · obtain ⟨hupheld, hlast⟩ := List.forall_mem_append.1 hupheld
        exact .inr ⟨⟨before, after', rfl, hrow, hupheld⟩, hlast e (List.mem_singleton_self e)⟩

/-- Once something was seen of a file that does not agree with the fingerprint that was noted, the file is to
be looked at, until it is noted as looked at again. -/
theorem pending_of_refuted (h : History (before ++ .marked key f :: after) s)
    (hlast : ∀ e ∈ after, ∀ g, e ≠ .marked key g) (hrefuted : ∃ e ∈ after, e.Refutes key f)
    (hrow : s.get? key = some row) : row.state = .pending := by
  obtain ⟨g, state⟩ := row
  cases state with
  | pending => rfl
  | scanned =>
    obtain ⟨before', after', heq, -, hupheld⟩ := h.scanned_iff.1 hrow
    obtain ⟨rfl, rfl⟩ := last_mark_unique heq hlast fun e he g hmark => by
      subst hmark
      exact hupheld _ he rfl
    obtain ⟨e, he, hrefutes⟩ := hrefuted
    exact absurd (hupheld e he) hrefutes.not_upholds

/-- A file counts as looked at exactly if it was noted as looked at while it had a row, with the fingerprint
of the row, and everything that was seen of it since then agrees. In particular, a file that changes little
by little is to be looked at as soon as it is seen to differ from the fingerprint that was noted last. No
event takes a row away, and noticing a record or noting a file as looked at leaves the rows of other keys as
they are. -/
theorem scanned_exact (h : History events s) (key : StoreKey) :
    (∀ f, s.get? key = some ⟨f, .scanned⟩ ↔ ∃ before after,
      events = before ++ .marked key f :: after ∧
      (∃ r, .absorbed r ∈ before ∧ r.kind = .regular ∧ r.storeKey = key) ∧
      ∀ e ∈ after, e.Upholds key f) ∧
    (∀ before f after, events = before ++ .marked key f :: after →
      (∀ e ∈ after, ∀ g, e ≠ .marked key g) → (∃ e ∈ after, e.Refutes key f) →
      ∀ row, s.get? key = some row → row.state = .pending) ∧
    (∀ e s', Step s e s' → (s.get? key).isSome → (s'.get? key).isSome) ∧
    (∀ r, ¬(r.kind = .regular ∧ r.storeKey = key) → (s.absorb r).2.get? key = s.get? key) ∧
    ∀ k f, k ≠ key → (s.markScanned k f).2.get? key = s.get? key := by
  refine ⟨fun f => ?_, ?_, fun e s' hstep hrow => hstep.isSome_iff.2 (.inl hrow), fun r hother => ?_,
    fun k f hother => ?_⟩
  · simp only [h.scanned_iff, Event.Introduces]
    simp
  · rintro before f after rfl hlast hrefuted row hrow
    exact h.pending_of_refuted hlast hrefuted hrow
  · exact get?_absorb_of_ne fun hregular heq => hother ⟨hregular, heq⟩
  · rw [get?_markScanned, if_neg hother]

end History

/-- A file that is modified so many hundred-thousandths of a second after its first modification. -/
def driftedBy (n : Nat) : Fingerprint :=
  ⟨0, .ofFloat (1700000000 + Float.ofNat n / 100000), .zero⟩

/-- A record of that file. -/
def driftingRecord (n : Nat) : InodeRecord :=
  .ofObject ⟨101, 0o100644, driftedBy n⟩ (Disk.tokenOf 1)

def driftingKey : StoreKey := .ofToken 101 (Disk.tokenOf 1)

/-- The file is noticed and noted as looked at. Then it is noticed once more, a little later. -/
def driftingEvents : List Event :=
  [.absorbed (driftingRecord 0), .marked driftingKey (driftedBy 0), .absorbed (driftingRecord 6)]

/-- Each time the file has changed by less than is told apart. It counts as looked at after the first time,
but not after the second. -/
theorem scanned_exact_drifting : ∃ s s' : Store, History driftingEvents s ∧
    History (driftingEvents ++ [.absorbed (driftingRecord 12)]) s' ∧
    (driftedBy 6).divergesFrom (driftedBy 12) = false ∧
    s.get? driftingKey = some ⟨driftedBy 0, .scanned⟩ ∧
    (s'.get? driftingKey).map StoreRow.state = some .pending := by
  have hfirst : History driftingEvents _ :=
    ((History.empty.step (.absorb _ _)).step (.mark _ _ _)).step (.absorb _ _)
  have hsecond := hfirst.step (.absorb _ (driftingRecord 12))
  have hscanned := (((hfirst.scanned_exact driftingKey).1 (driftedBy 0)).2
    ⟨[.absorbed (driftingRecord 0)], [.absorbed (driftingRecord 6)], rfl,
      ⟨driftingRecord 0, List.mem_singleton_self _, by decide, rfl⟩,
      List.forall_mem_singleton.2 fun _ _ => by decide +kernel⟩)
  refine ⟨_, _, hfirst, hsecond, by decide +kernel, hscanned, ?_⟩
  have hrow := (hfirst.scanned_exact driftingKey).2.2.1 _ _ (.absorb _ (driftingRecord 12))
    (Option.isSome_of_eq_some hscanned)
  obtain ⟨row, hrow⟩ := Option.isSome_iff_exists.1 hrow
  have hpending := (hsecond.scanned_exact driftingKey).2.1 [.absorbed (driftingRecord 0)] (driftedBy 0)
    [.absorbed (driftingRecord 6), .absorbed (driftingRecord 12)] rfl (by simp)
    ⟨.absorbed (driftingRecord 12), by simp, .absorbed (by decide) rfl (by decide +kernel)⟩ row hrow
  rw [hrow, Option.map_some, hpending]

end Store

end TreeWatch

import TreeWatch.Proofs.Fingerprint
import TreeWatch.Store.Verify

/-!
# Rows of the store

What becomes of the row of one key when records are noticed, and when a store is checked.

## Main definitions

- `StoreRow.noticed` : the row of a file of which a fingerprint has been noticed
- `Fingerprint.RefutedBy` : what was found tells that the file may have changed
- `StoreRow.checked` : what a row becomes when it is checked

## Main results

- `Store.get?_absorbAll` : noticing records that agree is the same as noticing one
- `StoreRow.state_noticed_checked` : what still counts as looked at, when a row has been checked and
  then the same fingerprint has been noticed
-/

namespace TreeWatch

/-- The key under which the store remembers the object of a record. -/
def InodeRecord.storeKey (r : InodeRecord) : StoreKey := .ofToken r.ino r.token

/-- What was found tells that a file is not, or may not be, what it was when it had the fingerprint. -/
inductive Fingerprint.RefutedBy (f : Fingerprint) : Except IdentityError Attributes → Prop where
  | stale : f.RefutedBy (.error .stale)
  | vanished {e : SyscallError} : e.isVanished → f.RefutedBy (.error (.call e))
  | diverges {a : Attributes} : a.fingerprint.divergesFrom f → f.RefutedBy (.ok a)

theorem Fingerprint.refutedBy_iff {f : Fingerprint} {found : Except IdentityError Attributes} :
    f.RefutedBy found ↔ found = .error .stale ∨ (∃ e, found = .error (.call e) ∧ e.isVanished) ∨
      ∃ a, found = .ok a ∧ a.fingerprint.divergesFrom f := by
  constructor
  · rintro (_ | h | h)
    · exact .inl rfl
    · exact .inr (.inl ⟨_, rfl, h⟩)
    · exact .inr (.inr ⟨_, rfl, h⟩)
  · rintro (rfl | ⟨e, rfl, h⟩ | ⟨a, rfl, h⟩)
    · exact .stale
    · exact .vanished h
    · exact .diverges h

namespace StoreRow

variable {old? : Option StoreRow} {row : StoreRow} {f : Fingerprint} {a : Attributes}

/-- The row of a file of which a fingerprint has been noticed. Unless the two agree, the file is to be
looked at. -/
def noticed (old? : Option StoreRow) (f : Fingerprint) : StoreRow :=
  match old? with
  | none => ⟨f, .pending⟩
  | some old => if old.fingerprint.divergesFrom f then ⟨f, .pending⟩ else old

theorem divergesFrom_noticed : (noticed old? f).fingerprint.divergesFrom f = false := by
  unfold noticed
  split
  · exact Fingerprint.divergesFrom_self f
  · split
    · exact Fingerprint.divergesFrom_self f
    · next hagree => exact Bool.eq_false_iff.2 hagree

/-- Noticing a fingerprint once more changes nothing. -/
theorem noticed_noticed : noticed (some (noticed old? f)) f = noticed old? f := by
  have hagree : (noticed old? f).fingerprint.divergesFrom f = false := divergesFrom_noticed
  generalize noticed old? f = row at hagree ⊢
  simp [noticed, hagree]

/-- Noticing lets a file count as looked at only if it did and the fingerprints agree. -/
theorem noticed_eq_scanned_iff {g : Fingerprint} :
    noticed old? g = ⟨f, .scanned⟩ ↔ old? = some ⟨f, .scanned⟩ ∧ f.divergesFrom g = false := by
  cases old? with
  | none => simp [noticed]
  | some old =>
    simp only [noticed, Option.some.injEq]
    split
    · next hdiverges =>
      refine ⟨nofun, ?_⟩
      rintro ⟨rfl, hagree⟩
      rw [hagree] at hdiverges
      cases hdiverges
    · next hagree =>
      refine ⟨?_, And.left⟩
      rintro rfl
      exact ⟨rfl, Bool.eq_false_iff.2 hagree⟩

/-- What a row becomes when it is checked, from what its token leads to. A file that cannot be examined
goes on as it was, unless it is gone. -/
def checked (row : StoreRow) (current : Except IdentityError Attributes) : StoreRow :=
  if row.state = .scanned then
    match current with
    | .ok a => if a.fingerprint.divergesFrom row.fingerprint then ⟨a.fingerprint, .pending⟩ else row
    | .error .stale => { row with state := .pending }
    | .error (.call e) => if e.isVanished then { row with state := .pending } else row
    | .error (.tooLarge _) => row
  else row

theorem checked_of_not_scanned {found : Except IdentityError Attributes} (h : row.state ≠ .scanned) :
    row.checked found = row :=
  if_neg h

theorem checked_of_not_refuted {found : Except IdentityError Attributes}
    (h : ¬row.fingerprint.RefutedBy found) : row.checked found = row := by
  unfold checked
  split
  · split
    · exact if_neg fun hdiverges => h (.diverges hdiverges)
    · exact absurd .stale h
    · exact if_neg fun hvanished => h (.vanished hvanished)
    · rfl
  · rfl

theorem checked_of_diverges {a : Attributes} (hstate : row.state = .scanned)
    (h : a.fingerprint.divergesFrom row.fingerprint) : row.checked (.ok a) = ⟨a.fingerprint, .pending⟩ := by
  rw [checked, if_pos hstate]
  exact if_pos h

/-- The fingerprint changes only if another one has been found. -/
theorem fingerprint_checked {found : Except IdentityError Attributes}
    (h : ∀ a, found = .ok a → a.fingerprint.divergesFrom row.fingerprint = false) :
    (row.checked found).fingerprint = row.fingerprint := by
  unfold checked
  split
  · split
    · next a => simp [h a rfl]
    · rfl
    · split <;> rfl
    · rfl
  · rfl

/-- A row that counts as looked at no longer does just when what was found refutes its fingerprint. -/
theorem state_checked_iff {found : Except IdentityError Attributes} (hstate : row.state = .scanned) :
    (row.checked found).state = .pending ↔ row.fingerprint.RefutedBy found := by
  constructor
  · intro hpending
    by_contra hupheld
    rw [checked_of_not_refuted hupheld, hstate] at hpending
    cases hpending
  · intro hrefuted
    unfold checked
    rw [if_pos hstate]
    cases hrefuted with
    | stale => rfl
    | vanished h => simp [h]
    | diverges h => simp [h]

/-- A row that still counts as looked at after it has been checked is as it was. -/
theorem eq_of_state_checked {current : Except IdentityError Attributes}
    (h : (row.checked current).state = .scanned) : row.checked current = row := by
  unfold checked at h ⊢
  split at h
  · next hstate =>
    rw [if_pos hstate]
    split at h
    · split at h
      · cases h
      · next hagree => rw [if_neg hagree]
    · cases h
    · split at h
      · cases h
      · next hthere => rw [if_neg hthere]
    · rfl
  · next hstate => rw [if_neg hstate]

/-- A check lets a file count as looked at only if it did and its fingerprint is not refuted. -/
theorem checked_eq_scanned_iff {found : Except IdentityError Attributes} :
    row.checked found = ⟨f, .scanned⟩ ↔ row = ⟨f, .scanned⟩ ∧ ¬f.RefutedBy found := by
  constructor
  · intro hchecked
    have hsame : row.checked found = row := eq_of_state_checked (congrArg state hchecked)
    have hrow : row = ⟨f, .scanned⟩ := hsame.symm.trans hchecked
    subst hrow
    refine ⟨rfl, fun hrefuted => ?_⟩
    have hpending : (StoreRow.checked ⟨f, .scanned⟩ found).state = .pending :=
      (state_checked_iff rfl).2 hrefuted
    rw [hchecked] at hpending
    cases hpending
  · rintro ⟨rfl, hupheld⟩
    exact checked_of_not_refuted hupheld

/-- Checking a row once more changes nothing. -/
theorem checked_checked (row : StoreRow) (found : Except IdentityError Attributes) :
    (row.checked found).checked found = row.checked found := by
  by_cases hscanned : (row.checked found).state = .scanned
  · rw [eq_of_state_checked hscanned]
    exact eq_of_state_checked hscanned
  · exact checked_of_not_scanned hscanned

/-- The file counts as looked at only if it did before, with the fingerprint that it has now. -/
theorem state_noticed_checked (old? : Option StoreRow) (a : Attributes) :
    (noticed (old?.map (·.checked (.ok a))) a.fingerprint).state = .scanned ↔
      ∃ old, old? = some old ∧ old.state = .scanned ∧
        old.fingerprint.divergesFrom a.fingerprint = false := by
  cases old? with
  | none => simp [noticed]
  | some old =>
    simp only [Option.map_some, noticed, Option.some.injEq, exists_eq_left']
    constructor
    · intro hscanned
      split at hscanned
      · cases hscanned
      · next hagree =>
        have hsame : old.checked (.ok a) = old := eq_of_state_checked hscanned
        rw [hsame] at hscanned hagree
        exact ⟨hscanned, Bool.eq_false_iff.2 hagree⟩
    · rintro ⟨hscanned, hagree⟩
      have hcurrent : a.fingerprint.divergesFrom old.fingerprint = false :=
        (Fingerprint.divergesFrom_comm _ _).trans hagree
      have hchecked : old.checked (.ok a) = old := by simp [checked, hscanned, hcurrent]
      rw [hchecked, hagree]
      exact hscanned

end StoreRow

namespace Store

variable {s : Store} {k : StoreKey} {r : InodeRecord}

/-! ### Noticing records -/

theorem get?_insert (key : StoreKey) (row : StoreRow) :
    (Store.mk (s.rows.insert key row)).get? k = if k = key then some row else s.get? k :=
  SortedMap.get?_insert ..

theorem get?_absorb_of_eq (hregular : r.kind = .regular) (hkey : r.storeKey = k) :
    (s.absorb r).2.get? k = some (StoreRow.noticed (s.get? k) r.fingerprint) := by
  subst hkey
  have hrow : s.rows.get? (.ofToken r.ino r.token) = s.get? r.storeKey := rfl
  simp only [absorb, hregular, if_true, hrow]
  cases hold : s.get? r.storeKey with
  | none => exact (get?_insert ..).trans (if_pos rfl)
  | some row =>
    simp only [StoreRow.noticed]
    split
    · exact (get?_insert ..).trans (if_pos rfl)
    · exact hold

theorem get?_absorb_of_ne (h : r.kind = .regular → r.storeKey ≠ k) :
    (s.absorb r).2.get? k = s.get? k := by
  unfold absorb
  split
  · next hregular =>
    have hne : k ≠ .ofToken r.ino r.token := fun heq => h hregular heq.symm
    simp only
    split
    · exact (get?_insert ..).trans (if_neg hne)
    · split
      · exact (get?_insert ..).trans (if_neg hne)
      · rfl
  · rfl

theorem get?_absorbAll_of_forall_ne {records : List InodeRecord}
    (h : ∀ r ∈ records, r.kind = .regular → r.storeKey ≠ k) :
    (s.absorbAll records).2.get? k = s.get? k := by
  induction records generalizing s with
  | nil => rfl
  | cons r rest ih =>
    have hrest := ih (s := (s.absorb r).2) fun r' hr' => h r' (.tail _ hr')
    exact hrest.trans (get?_absorb_of_ne (h r (.head _)))

/-- If the records of a key agree in their fingerprint, noticing all of them is noticing one. -/
theorem get?_absorbAll {records : List InodeRecord} {f : Fingerprint}
    (hsome : ∃ r ∈ records, r.kind = .regular ∧ r.storeKey = k)
    (hagree : ∀ r ∈ records, r.kind = .regular → r.storeKey = k → r.fingerprint = f) :
    (s.absorbAll records).2.get? k = some (StoreRow.noticed (s.get? k) f) := by
  induction records generalizing s with
  | nil =>
    obtain ⟨r, hr, -⟩ := hsome
    cases hr
  | cons r rest ih =>
    have hagree' : ∀ r' ∈ rest, r'.kind = .regular → r'.storeKey = k → r'.fingerprint = f :=
      fun r' hr' => hagree r' (.tail _ hr')
    change ((s.absorb r).2.absorbAll rest).2.get? k = _
    by_cases hlater : ∃ r' ∈ rest, r'.kind = .regular ∧ r'.storeKey = k
    · rw [ih hlater hagree']
      by_cases hfirst : r.kind = .regular ∧ r.storeKey = k
      · obtain ⟨hregular, hkey⟩ := hfirst
        rw [get?_absorb_of_eq hregular hkey, hagree r (.head _) hregular hkey,
          StoreRow.noticed_noticed]
      · rw [get?_absorb_of_ne fun hregular hkey => hfirst ⟨hregular, hkey⟩]
    · have hnone : ∀ r' ∈ rest, r'.kind = .regular → r'.storeKey ≠ k :=
        fun r' hr' hregular hkey => hlater ⟨r', hr', hregular, hkey⟩
      obtain ⟨r', hr', hregular, hkey⟩ := hsome
      obtain rfl : r' = r :=
        (List.mem_cons.1 hr').resolve_right fun hmem => hnone r' hmem hregular hkey
      rw [get?_absorbAll_of_forall_ne hnone, get?_absorb_of_eq hregular hkey,
        hagree r' (.head _) hregular hkey]

/-! ### Replacing rows -/

theorem get?_updateRows {rows : List (StoreKey × StoreRow)} (hdistinct : (Assoc.keys rows).Nodup) :
    (Tracker.updateRows s rows).get? k = (Assoc.get? k rows).or (s.get? k) := by
  induction rows generalizing s with
  | nil => rfl
  | cons p rest ih =>
    obtain ⟨key, row⟩ := p
    obtain ⟨hnew, hdistinct⟩ := List.nodup_cons.1 hdistinct
    have hrest : (Tracker.updateRows ⟨s.rows.insert key row⟩ rest).get? k =
        (Assoc.get? k rest).or ((Store.mk (s.rows.insert key row)).get? k) := ih hdistinct
    rw [show Tracker.updateRows s ((key, row) :: rest) =
      Tracker.updateRows ⟨s.rows.insert key row⟩ rest from rfl, hrest, get?_insert, Assoc.get?_cons]
    by_cases hkey : k = key
    · subst hkey
      have hnone : Assoc.get? k rest = none := by
        rw [← Option.not_isSome_iff_eq_none, Assoc.get?_isSome_iff]
        exact hnew
      simp [hnone]
    · rw [if_neg hkey, if_neg (Ne.symm hkey)]

/-- The order in which the rows are changed and put back makes no difference. -/
theorem updateRows_map {order : List (StoreKey × StoreRow)} (horder : order.Perm s.rows.toList)
    (f : StoreKey → StoreRow → StoreRow) :
    Tracker.updateRows s (order.map fun p => (p.1, f p.1 p.2)) = ⟨s.rows.mapValues f⟩ := by
  have hdistinct : (Assoc.keys order).Nodup := (horder.map _).nodup_iff.2 s.rows.distinct
  have hkeys : Assoc.keys (order.map fun p => (p.1, f p.1 p.2)) = Assoc.keys order := by
    simp [Assoc.keys]
  refine congrArg Store.mk (SortedMap.eq_of_get?_eq fun k => ?_)
  refine (get?_updateRows (k := k) (hkeys.symm ▸ hdistinct)).trans ?_
  have hlook : Assoc.get? k order = s.get? k :=
    Option.ext fun row => by
      rw [Assoc.get?_eq_some_iff hdistinct, horder.mem_iff, get?, SortedMap.get?_eq_some_iff]
  rw [SortedMap.get?_mapValues, Assoc.get?_map, hlook]
  change ((s.get? k).map (f k)).or (s.get? k) = (s.get? k).map (f k)
  cases s.get? k <;> rfl

end Store

end TreeWatch

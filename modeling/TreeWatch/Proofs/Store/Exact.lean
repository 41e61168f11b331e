import TreeWatch.Proofs.Disk.Operation
import TreeWatch.Proofs.Store.Verify

/-!
# Checking a store is exact

While the files are steady, checking a store puts back just the rows whose files are gone or have changed,
in whatever order the rows are checked, and checking the store once more changes nothing.

## Main results

- `Store.checked_checked` : checking twice is checking once
- `Tracker.verify_exact` : what becomes of the rows, and how many no longer count as looked at
-/

namespace TreeWatch

namespace Store

variable {s : Store} {current : StoreKey → Except IdentityError Attributes} {key : StoreKey}
  {row : StoreRow}

theorem get?_checked_of_get? (h : s.get? key = some row) :
    (s.checked current).get? key = some (row.checked (current key)) := by
  rw [get?_checked, h, Option.map_some]

/-- Checking a store once more changes nothing. -/
theorem checked_checked : (s.checked current).checked current = s.checked current := by
  refine congrArg Store.mk (SortedMap.eq_of_get?_eq fun k => ?_)
  have htwice : ((s.checked current).checked current).get? k = (s.checked current).get? k := by
    rw [get?_checked, get?_checked, Option.map_map]
    exact congrArg (Option.map · (s.get? k)) (funext fun row => row.checked_checked (current k))
  exact htwice

/-- No row of a checked store is put back when it is checked once more. -/
theorem flipped_checked : (s.checked current).flipped current = 0 := by
  refine List.countP_eq_zero.2 fun p hp => ?_
  obtain ⟨q, -, rfl⟩ := List.mem_map.1 hp
  simp only [StoreRow.checked_checked, decide_eq_true_eq]
  rintro ⟨hscanned, hpending⟩
  rw [hscanned] at hpending
  cases hpending

/-- The rows that are put back, told by the store that comes out. -/
theorem flipped_eq : s.flipped current = s.rows.toList.countP fun p =>
    p.2.state = .scanned ∧ ((s.checked current).get? p.1).map StoreRow.state = some .pending := by
  refine List.countP_congr fun p hp => ?_
  have hrow : s.get? p.1 = some p.2 := SortedMap.get?_eq_some_iff.2 hp
  rw [get?_checked_of_get? hrow]
  simp

end Store

namespace Tracker

variable {σ H ε : Type} {fs : Filesystem σ H} {states : σ → Prop}
  {current : StoreKey → Except IdentityError Attributes}

/-- A token that is too long is never opened. -/
theorem current_of_too_long (h : fs.SteadyWithin states current) {files : σ} (hfiles : states files)
    {key : StoreKey} (hlong : maxTokenSize < key.handle.length) :
    current key = .error (.tooLarge key.handle.length) := by
  have htoken : key.token = .error (.tooLarge key.handle.length) := dif_neg (Nat.not_le.2 hlong)
  have hanswer := (h key files hfiles).1
  rw [fs.run_examine, htoken] at hanswer
  exact hanswer.symm

/-- While the files are steady, every order of the rows gives the same count and the same store. It has the
same keys, and the rows that did not count as looked at. A row that did is put back just when its token is
stale, its object has vanished or has another fingerprint than the row, and takes over that fingerprint in
the last case. Rows whose token is too long or fails to open otherwise stay. The count is that of the rows
that were put back. Checking the store once more puts nothing back and changes nothing. -/
theorem verify_exact (hsteady : fs.SteadyWithin states current) {files : σ} (hfiles : states files)
    (s : Store) :
    (verify fs s : Track σ ε (Nat × Store)) = verifyInOrder fs s.rows.toList s ∧
    ∃ (count : Nat) (s' : Store),
      (∀ (order : List (StoreKey × StoreRow)) (w : Tracker σ), order.Perm s.rows.toList →
        states w.files → Gives (verifyInOrder fs order s : Track σ ε (Nat × Store)) w (count, s')
          fun w' => states w'.files ∧ Logged { w with files := w'.files } w') ∧
      (∀ key, (s'.get? key).isSome = (s.get? key).isSome) ∧
      (∀ key row, s.get? key = some row → row.state = .pending → s'.get? key = some row) ∧
      (∀ key row, s.get? key = some row → row.state = .scanned → ∃ row', s'.get? key = some row' ∧
        (row'.state = .pending ↔ current key = .error .stale ∨
          (∃ e, current key = .error (.call e) ∧ e.isVanished) ∨
          ∃ a, current key = .ok a ∧ a.fingerprint.divergesFrom row.fingerprint) ∧
        (∀ a, current key = .ok a → a.fingerprint.divergesFrom row.fingerprint →
          row'.fingerprint = a.fingerprint) ∧
        ((¬∃ a, current key = .ok a ∧ a.fingerprint.divergesFrom row.fingerprint) →
          row'.fingerprint = row.fingerprint)) ∧
      (∀ key row, s.get? key = some row → (maxTokenSize < key.handle.length ∨
        ∃ e, current key = .error (.call e) ∧ ¬e.isVanished) → s'.get? key = some row) ∧
      (count = s.rows.toList.countP fun p =>
        p.2.state = .scanned ∧ (s'.get? p.1).map StoreRow.state = some .pending) ∧
      ∀ (order : List (StoreKey × StoreRow)) (w : Tracker σ), order.Perm s'.rows.toList →
        states w.files → Gives (verifyInOrder fs order s' : Track σ ε (Nat × Store)) w (0, s')
          fun w' => states w'.files ∧ Logged { w with files := w'.files } w' := by
  refine ⟨verify_eq fs s, _, s.checked current,
    fun order w horder hw => gives_verifyInOrder_of_steady hsteady horder hw, fun key => ?_,
    fun key row hrow hpending => ?_, fun key row hrow hscanned => ?_, fun key row hrow hleft => ?_,
    Store.flipped_eq, fun order w horder hw => ?_⟩
  · rw [Store.get?_checked, Option.isSome_map]
  · rw [Store.get?_checked_of_get? hrow, StoreRow.checked_of_not_scanned]
    rw [hpending]
    nofun
  · refine ⟨_, Store.get?_checked_of_get? hrow, ?_, fun a ha hdiverges => ?_, fun hsame => ?_⟩
    · rw [StoreRow.state_checked_iff hscanned, Fingerprint.refutedBy_iff]
    · rw [ha, StoreRow.checked_of_diverges hscanned hdiverges]
    · refine StoreRow.fingerprint_checked fun a ha => Bool.eq_false_iff.2 fun hdiverges => ?_
      exact hsame ⟨a, ha, hdiverges⟩
  · rw [Store.get?_checked_of_get? hrow, StoreRow.checked_of_not_refuted]
    rw [Fingerprint.refutedBy_iff]
    rcases hleft with hlong | ⟨e, he, hthere⟩
    · rw [current_of_too_long hsteady hfiles hlong]
      simp
    · rw [he]
      simp [hthere]
  · have hagain := gives_verifyInOrder_of_steady (ε := ε) hsteady horder hw
    rwa [Store.flipped_checked, Store.checked_checked] at hagain

/-- A disk on which a file was written after a second one was removed. -/
def writtenAndRemoved : Disk :=
  (((Disk.empty.perform (.create (.ofString "/f"))).perform (.create (.ofString "/g"))).perform
    (.remove (.ofString "/g"))).perform (.write (.ofString "/f") 1)

def keyOfF : StoreKey := .ofToken 101 (Disk.tokenOf 1)

def keyOfG : StoreKey := .ofToken 102 (Disk.tokenOf 2)

/-- A key with a token that is too long. -/
def longKey : StoreKey := ⟨103, 1, List.replicate 129 0⟩

/-- The store in which all three were looked at when they were empty. -/
def lookedAtEmpty : Store where
  rows := {
    toList := [keyOfF, keyOfG, longKey].map fun key => (key, ⟨.zero, .scanned⟩)
    sorted := by decide +kernel }

/-- Two of the files have changed, so two rows are put back. -/
theorem verify_exact_writtenAndRemoved : ∃ s' : Store,
    Gives (verify Disk.filesystem lookedAtEmpty : Track Disk Empty (Nat × Store))
        { files := writtenAndRemoved, ledger := { tree := {} } } (2, s') (fun _ => True) ∧
      [keyOfF, keyOfG, longKey].map (fun key => (s'.get? key).map StoreRow.state) =
        [some .pending, some .pending, some .scanned] := by
  obtain ⟨hverify, count, s', hgives, -, -, hrow, hleft, rfl, -⟩ :=
    verify_exact (ε := Empty) (Disk.plain writtenAndRemoved).steadyWithin rfl lookedAtEmpty
  have hrows : ∀ key ∈ [keyOfF, keyOfG, longKey],
      lookedAtEmpty.get? key = some ⟨.zero, .scanned⟩ := by decide +kernel
  have hput : ∀ key ∈ [keyOfF, keyOfG], Fingerprint.zero.RefutedBy (writtenAndRemoved.current key) →
      (s'.get? key).map StoreRow.state = some .pending := by
    intro key hkey hrefuted
    obtain ⟨row', hrow', hstate, -⟩ := hrow key _ (hrows key (List.mem_append_left [longKey] hkey)) rfl
    rw [hrow', Option.map_some, hstate.2 (Fingerprint.refutedBy_iff.1 hrefuted)]
  have hwritten : ∃ a, writtenAndRemoved.current keyOfF = .ok a ∧ a.fingerprint.size = 1 := by
    have hsize : (writtenAndRemoved.current keyOfF).map (·.fingerprint.size) = .ok 1 := by
      decide +kernel
    generalize writtenAndRemoved.current keyOfF = found at hsize ⊢
    cases found with
    | error e => cases hsize
    | ok a => exact ⟨a, rfl, Except.ok.inj hsize⟩
  have hremoved : writtenAndRemoved.current keyOfG = .error .stale := by decide +kernel
  have hstates : [keyOfF, keyOfG, longKey].map (fun key => (s'.get? key).map StoreRow.state) =
      [some .pending, some .pending, some .scanned] := by
    obtain ⟨a, ha, hsize⟩ := hwritten
    have hdiverges : a.fingerprint.divergesFrom .zero := by
      simp [Fingerprint.divergesFrom, hsize, Fingerprint.zero]
    simp [hput keyOfF (by simp) (ha ▸ .diverges hdiverges), hput keyOfG (by simp) (hremoved ▸ .stale),
      hleft longKey _ (hrows longKey (by simp)) (.inl (by decide +kernel))]
  have hcount : (lookedAtEmpty.rows.toList.countP fun p =>
      p.2.state = .scanned ∧ (s'.get? p.1).map StoreRow.state = some .pending) = 2 := by
    have hcounted := congrArg (List.countP (· = some ScanState.pending)) hstates
    rw [List.countP_map] at hcounted
    rw [lookedAtEmpty, List.countP_map]
    simpa [Function.comp_def] using hcounted
  refine ⟨s', ?_, hstates⟩
  rw [hverify, ← hcount]
  exact (hgives _ _ (.refl _) rfl).mono fun _ _ => trivial

end Tracker

end TreeWatch

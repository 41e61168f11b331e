import TreeWatch.Proofs.Agreement.Listing

/-!
# Fast scans and strict scans

As long as no number of a present object leads to the record of another one, it makes no difference
whether a scan is strict: the same names are bound and unbound, and the trees differ in fingerprints
only.

## Main definitions

- `Disk.Acyclic` : no directory lies below itself

## Main results

- `Tracker.scansTogether_scanWithin` : a scan that is not strict goes together with a strict one
- `Tracker.fast_scan_agrees` : the two do the same
-/

namespace TreeWatch

namespace Tracker

open View

variable {σ : Type} {fs : Filesystem σ Serial} {d : Disk} {present : Serial → Prop}
  {w w' : Tracker σ} {s : Serial} {p : InodeId} {scanBelow scanBelow' : ScanBelow σ Serial}
  {depth : Nat}

theorem together_scanRecord (hd : d.Distinguishes present)
    (hbelow : ScansTogether fs d present depth scanBelow scanBelow')
    (h : InStep fs d present w w') (hs : present s) (hdir : d.isDirectory s)
    (hshallow : ∀ c, d.Subdirectory s c → d.Shallow depth c) (hp : w.tree.view.Marks d p s)
    (recursive : Bool) :
    Together fs d present (scanRecord fs false scanBelow s p recursive)
      (scanRecord fs true scanBelow' s p recursive) w w' fun a b _ => a.Matches b := by
  unfold scanRecord
  refine .attempt_step (h.plain.run_list s) (h.plain'.run_list s) rfl ?_
  cases hlist : d.list s with
  | ok listing => exact together_applyListing hd hbelow h hs hdir hshallow hp hlist recursive
  | error e =>
    simp only
    split
    · refine .step (run_look _ _) (run_look _ _) rfl (.step (run_note _ _) (run_note _ _) rfl ?_)
      refine (together_orphanIfUnlinked (h.noted _ _) p).bind (fun _ => .pure _) ?_
      exact fun _ _ _ _ hstep _ _ => .pure hstep (.refl _)
    · exact .throw _ h

theorem together_scanDirectory (hd : d.Distinguishes present)
    (hbelow : ScansTogether fs d present depth scanBelow scanBelow')
    (h : InStep fs d present w w') (hs : present s) (hdir : d.isDirectory s)
    (hshallow : d.Shallow (depth + 1) s) (recursive : Bool) :
    Together fs d present (scanDirectory fs false scanBelow s recursive)
      (scanDirectory fs true scanBelow' s recursive) w w' fun a b _ => a.Matches b := by
  unfold scanDirectory
  refine .releasing ?_ fun _ _ _ _ hmatch => hmatch
  by_cases hsize : d.Oversized s
  · refine .attempt_step (h.plain.run_resolve_of_oversized hsize)
      (h.plain'.run_resolve_of_oversized hsize) rfl ?_
    exact .step (run_note _ _) (run_note _ _) rfl (.pure (h.noted _ _) (.refl _))
  refine (together_resolve hd h hs hsize).bind
    (editsOnly_afterResolve fs.vouches_trivial false hbelow.tame s recursive) ?_
  rintro _ _ w₁ w₁' hstep - ⟨i, rfl, rfl, hi⟩
  exact together_scanRecord hd hbelow hstep hs hdir hshallow hi recursive

theorem run_scanDirectory_of_oversized {strict : Bool} (hplain : fs.Plain w.files d)
    (hsize : d.Oversized s) (recursive : Bool) :
    (scanDirectory fs strict scanBelow s recursive).run w = (.ok .oneSkipped, { w with
      leases := w.leases.giveBack
      ledger := w.ledger.note (.directoryTokenTooLarge Disk.oversizedTokenSize) }) := by
  unfold scanDirectory
  rw [run_releasing, run_bind, run_attempt, hplain.run_resolve_of_oversized hsize]
  rfl

/-- A scan that is not strict goes together with a strict one. -/
theorem scansTogether_scanWithin (hd : d.Distinguishes present) (depth : Nat) :
    ScansTogether fs d present depth (scanWithin fs false depth) (scanWithin fs true depth) := by
  induction depth with
  | zero =>
    refine ⟨fun c recursive => editsOnly_scanWithin fs.vouches_trivial false 0 c recursive, ?_, ?_⟩
    · exact fun _ _ _ hshallow => hshallow.elim
    · exact fun _ _ _ _ hshallow => hshallow.elim
  | succ depth ih =>
    refine ⟨fun c recursive => editsOnly_scanWithin fs.vouches_trivial false _ c recursive, ?_, ?_⟩
    · intro c recursive w w' hc hdir h hshallow
      exact together_scanDirectory hd ih h hc hdir hshallow recursive
    · intro c recursive w hsize hplain _
      exact ⟨_, run_scanDirectory_of_oversized hplain hsize recursive, rfl, rfl, rfl, rfl, rfl⟩

theorem together_scan (hd : d.Distinguishes present) (h : InStep fs d present w w')
    (hs : present s) (hdir : d.isDirectory s) (hshallow : d.Shallow (d.nodes.length + 1) s)
    (recursive : Bool) :
    Together fs d present (scan fs false s recursive) (scan fs true s recursive) w w'
      fun a b _ => a.Matches b := by
  unfold scan
  refine .step (run_look _ _) (run_look _ _) rfl ?_
  rw [h.files]
  have hdeep : d.nodes.length + 1 ≤ fs.nesting w.files + 1 := Nat.succ_le_succ h.plain.nesting
  exact (scansTogether_scanWithin hd _).together hs hdir h (hshallow.mono hdeep)

/-- A scan does the same whether it is strict or not, unless an inode number of an object that has a
name or is open leads to the record of another object. Both give results or both fail in the same way;
the same names are bound and unbound, and told of in the same order; the trees differ in fingerprints
only. -/
theorem fast_scan_agrees {w : Tracker ScriptedDisk} {handles : List Serial} {s : Serial}
    (hclean : w.files.Clean) (hregular : w.files.disk.Regular) (hacyclic : w.files.disk.Acyclic)
    (hapart : w.files.disk.Apart handles) (hs : s ∈ handles) (hdir : w.files.disk.isDirectory s)
    (hformed : w.tree.Formed)
    (hcurrent : ∀ i r o, w.tree.record? i = some r → w.files.disk.Named o ∨ o ∈ handles →
      r.ino = w.files.disk.inoAt o → r.token = Disk.tokenOf o)
    (recursive : Bool)
    (fits : ((scan ScriptedDisk.filesystem false s recursive).run w).2.tree.Fits) :
    let fast := (scan ScriptedDisk.filesystem false s recursive).run w
    let strict := (scan ScriptedDisk.filesystem true s recursive).run w
    Matches ScanSummary.Matches fast.1 strict.1 ∧
      strict.2.ledger.journal = fast.2.ledger.journal ∧ strict.2.tree.blank = fast.2.tree.blank := by
  have hd := hapart.distinguishes hregular
  have hstep : InStep ScriptedDisk.filesystem w.files.disk
      (fun o => w.files.disk.Named o ∨ o ∈ handles) w w := by
    refine ⟨⟨rfl, rfl, rfl, rfl, rfl⟩, hclean.plain, hformed, ?_⟩
    intro i x o hx ho hino
    obtain ⟨r, hr, rfl⟩ := Tree.identity?_eq_some_iff.1 hx
    exact hcurrent i r o hr ho hino
  have hshallow := Disk.shallow_of_acyclic hdir fun c _ => hacyclic c
  obtain ⟨hend, -, hmatch⟩ := together_scan hd hstep (.inr hs) hdir hshallow recursive fits
  exact ⟨hmatch, hend.journal, hend.blank⟩

/-- A tracker that has scanned a disk with a directory `d`, which contains a file and lists a phantom, and
a directory `big` with a token that is too large. The file has got a second name since, and a directory
has come. -/
def outdated : Tracker ScriptedDisk :=
  let start : Tracker ScriptedDisk := { files := {}, ledger := { tree := {} } }
  let seen := Call.scanRoot.after ScriptedDisk.filesystem false
    (start.operate [.mkdir (.ofString "/d"), .create (.ofString "/d/f"),
      .addPhantom (.ofString "/d") (.ofString "ghost") 77, .mkdir (.ofString "/big"),
      .markOversized (.ofString "/big")])
  seen.operate [.link (.ofString "/d/f") (.ofString "/g"), .mkdir (.ofString "/d/e"),
    .create (.ofString "/big/h")]

theorem watched_outdated : Watched outdated := by
  have hstart : Watched { files := {}, ledger := { tree := {} } } := by
    refine .start ⟨rfl, fun _ _ h => ?_⟩
    cases h
  exact Watched.operate (Reached.call false .scanRoot (Watched.operate hstart _)) _

theorem clean_outdated : outdated.files.Clean where
  faults := by decide +kernel
  overrides := by
    have hnone : outdated.files.overrides.toList = [] := by decide +kernel
    exact SortedMap.ext hnone
  listings := by
    have hnone : outdated.files.listings.toList = [] := by decide +kernel
    exact SortedMap.ext hnone
  aliases := by decide +kernel

theorem acyclic_outdated : outdated.files.disk.Acyclic := by
  have hdown : ∀ s ∈ List.range outdated.files.disk.nodes.length,
      ∀ c ∈ ((outdated.files.disk.node? s).map fun n => n.childMap.values).getD [], s < c := by
    decide +kernel
  intro c hcycle
  have hlt : ∀ {s c}, Relation.TransGen outdated.files.disk.Subdirectory s c → s < c := by
    intro s c h
    refine Relation.TransGen.trans_induction_on h ?_ fun _ _ h h' => Nat.lt_trans h h'
    rintro s c ⟨⟨name, hname⟩, -⟩
    obtain ⟨n, hn, hget⟩ := Option.bind_eq_some_iff.1 hname
    refine hdown s (List.mem_range.2 (List.getElem?_eq_some_iff.1 hn).1) c ?_
    rw [hn]
    exact SortedMap.mem_values_iff.2 ⟨name, hget⟩
  exact Nat.lt_irrefl c (hlt hcycle)

/-- Fast and strict scan bind the same two names. -/
theorem fast_scan_agrees_outdated :
    ∃ a b w₁ w₂, (scan ScriptedDisk.filesystem false Disk.rootSerial true).run outdated = (.ok a, w₁) ∧
      (scan ScriptedDisk.filesystem true Disk.rootSerial true).run outdated = (.ok b, w₂) ∧
      a.fastPath = 2 ∧ a.linked = 2 ∧ a.Matches b ∧ w₂.ledger.journal = w₁.ledger.journal ∧
      w₂.tree.blank = w₁.tree.blank := by
  have hregular := watched_outdated.regular
  have hapart : outdated.files.disk.Apart [Disk.rootSerial] :=
    hregular.apart (by decide +kernel) fun s hs => .inl (List.mem_singleton.1 hs)
  have hwell : outdated.tree.Fits := by decide +kernel
  have hsound := (watched_outdated.ready clean_outdated hwell).sound
  have hcurrent : ∀ p ∈ outdated.tree.inodes.toList,
      ∀ o ∈ List.range outdated.files.disk.nodes.length,
        p.2.ino = outdated.files.disk.inoAt o → p.2.token = Disk.tokenOf o := by decide +kernel
  have hrun : ((scan ScriptedDisk.filesystem false Disk.rootSerial true).run outdated).1 =
      .ok { directories := 3, fastPath := 2, skipped := 2, linked := 2 } := by decide +kernel
  obtain ⟨hmatch, hjournal, hblank⟩ := fast_scan_agrees clean_outdated hregular acyclic_outdated
    hapart (List.mem_singleton_self _) (by decide +kernel) (hsound.formed rfl rfl rfl)
    (fun i r o hr ho => hcurrent _ ((Arena.mem_toList hwell.inodes).2 hr) o (by
      obtain ⟨n, hn⟩ := (hapart.distinguishes hregular).exists_node ho
      exact List.mem_range.2 (List.getElem?_eq_some_iff.1 hn).1)) true (by decide +kernel)
  generalize (scan ScriptedDisk.filesystem false Disk.rootSerial true).run outdated = fast at *
  generalize (scan ScriptedDisk.filesystem true Disk.rootSerial true).run outdated = strict at *
  obtain ⟨r, w₁⟩ := fast
  obtain ⟨r', w₂⟩ := strict
  cases hrun
  cases r' with
  | error e => exact hmatch.elim
  | ok b => exact ⟨_, b, w₁, w₂, rfl, rfl, rfl, rfl, hmatch, hjournal, hblank⟩

end Tracker

end TreeWatch

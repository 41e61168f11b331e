import TreeWatch.Proofs.Garbage.Circle
import TreeWatch.Proofs.Garbage.Sweep
import TreeWatch.Proofs.Mirror.Convergence

/-!
# What is left after resynchronising

Rescanning the mount and reclaiming leaves a record that is not below the root in two cases only: names
that are known no more lead in a circle, or a call that failed has left a stray.

## Main definitions

- `Tracker.Littered` : the states of a run, with the strays that failed calls have left
- `Tracker.tangled` : a run in which two directories come to be known as inside each other
- `Tracker.halfScanned` : a run in which a call fails between finding a record and binding it

## Main results

- `Tracker.Littered.rescanRoots_attached` : all other records are below the root
- `Tracker.not_forall_attached` : two records that bind each other are never reclaimed
- `Tracker.stray_recordOfA` : nor is what a failed call has left
-/

namespace TreeWatch

/-! ### The grace window -/

namespace Tree

variable {made : Attributes → IdentityToken → Prop} {t t' : Tree}

theorem Edit.grace_eq (h : Edit made t t') : t'.grace = t.grace := by
  cases h with
  | insert => rfl
  | @replace l clock old _ _ =>
    show (l.invalidate clock old).tree.grace = l.tree.grace
    rw [Ledger.tree_invalidate, Ledger.grace_destroy]
  | refresh => rfl
  | bind hadd =>
    obtain ⟨-, -, -, rfl⟩ := addEntry_eq_ok hadd
    rfl
  | unbind hremove => exact grace_removeEntry hremove
  | destroy => exact Ledger.grace_destroy ..
  | @wait i now =>
    unfold orphanIfUnlinked
    split
    · split <;> rfl
    · rfl
  | root => rfl

/-- The grace window is set for good. -/
theorem Edits.grace_eq (h : Edits made t t') : t'.grace = t.grace := by
  induction h with
  | refl => rfl
  | tail _ hlast ih => exact hlast.grace_eq.trans ih

end Tree

/-! ### The root of the disk -/

/-- The root has its number as long as the disk keeps its objects. -/
theorem ScriptedDisk.rootNumbered {d : Disk} {n : Node}
    (hroot : d.node? Disk.rootSerial = some n) :
    ScriptedDisk.filesystem.RootNumbered (Over d) n.ino := by
  intro files files' object a _ hopen hover ha
  have hobject : object = Disk.rootSerial := by
    obtain ⟨faults, ⟨x, hrun⟩ | hrun⟩ := run_withFaults (fun _ => { point := .openRoot })
      (failCall .openDirectory) (answer fun _ => .ok Disk.rootSerial) files
    · change ((withFaults _ _ _).run files).1 = _ at hopen
      rw [hrun] at hopen
      cases hopen
    · change ((withFaults _ _ _).run files).1 = _ at hopen
      rw [hrun] at hopen
      cases hopen
      rfl
  subst hobject
  obtain ⟨faults, ⟨x, hrun⟩ | hrun⟩ := run_withFaults
    (fun d => { point := .attributes, ino := some (d.disk.inoAt Disk.rootSerial) }) (failCall .stat)
    (answer (·.attributes Disk.rootSerial)) files'
  · change ((withFaults _ _ _).run files').1 = _ at ha
    rw [hrun] at ha
    cases ha
  · change ((withFaults _ _ _).run files').1 = _ at ha
    rw [hrun] at ha
    have hover' : Over d { files' with faults } := ⟨hover.disk, hover.modes⟩
    obtain ⟨n', hn', hino, -⟩ := hover'.attributes_eq_ok ha
    rw [hroot] at hn'
    cases hn'
    exact hino

namespace Tracker

open Relation (TransGen ReflTransGen)

variable {σ H : Type}

/-! ### Strays of a run -/

/-- The call gives no result. -/
def Call.Fails (fs : Filesystem σ H) (strict : Bool) (c : Call H) (w : Tracker σ) : Prop :=
  match c with
  | .baseline => ∃ e, ((Tracker.baseline fs strict).run w).1 = .error e
  | .rescanRoots => ∃ e, ((Tracker.rescanRoots fs strict).run w).1 = .error e
  | .processBatch batch => ∃ e, ((Tracker.processBatch fs strict batch).run w).1 = .error e
  | .scan directory recursive => ∃ e, ((Tracker.scan fs strict directory recursive).run w).1 = .error e
  | .scanRoot => ∃ e, ((Tracker.scanRoot fs strict).run w).1 = .error e

/-- The states that come up in a run, as in `Reached`, each with the records that were stray when some
call had failed. -/
inductive Littered (fs : Filesystem σ H) (starts : σ → Prop) (moves : σ → σ → Prop) :
    (InodeId → Prop) → Tracker σ → Prop
  | start {files : σ} {leases : Leases} {clock : Clock} {grace : Nat} :
    starts files → Littered fs starts moves nothing ⟨files, leases, clock, { tree := { grace } }⟩
  | call {left : InodeId → Prop} {w : Tracker σ} (strict : Bool) (c : Call H) :
    Littered fs starts moves left w →
      Littered fs starts moves
        (fun i => left i ∨ (c.Fails fs strict w ∧ (c.after fs strict w).tree.Stray i))
        (c.after fs strict w)
  | elsewhere {left : InodeId → Prop} {w : Tracker σ} {files : σ} {leases : Leases} {clock : Clock} :
    Littered fs starts moves left w → moves w.files files →
      Littered fs starts moves left { w with files, leases, clock }

variable {fs : Filesystem σ H} {starts : σ → Prop} {moves : σ → σ → Prop} {left : InodeId → Prop}
  {w : Tracker σ}

theorem Littered.reached (h : Littered fs starts moves left w) : Reached fs starts moves w := by
  induction h with
  | start hstart => exact .start hstart
  | call strict c _ ih => exact .call strict c ih
  | elsewhere _ hmove ih => exact .elsewhere ih hmove

/-- Whatever comes up in a run comes up with the strays that have been left. -/
theorem Reached.littered (h : Reached fs starts moves w) : ∃ left, Littered fs starts moves left w := by
  induction h with
  | start hstart => exact ⟨_, .start hstart⟩
  | call strict c _ ih => exact ih.imp' _ fun _ h => .call strict c h
  | elsewhere _ hmove ih => exact ih.imp' _ fun _ h => .elsewhere h hmove

section

variable {world : σ → Prop} {made : Attributes → IdentityToken → Prop} {number : UInt64} {α ε : Type}

theorem Sweeps.after {x : Track σ ε α} (hx : Sweeps world made number x nothing fun _ => nothing)
    (hw : Standing world number w) (fits : (x.run w).2.tree.Fits) :
    Standing world number (x.run w).2 ∧
      ∀ i, (x.run w).2.tree.Stray i → w.tree.Stray i ∨ ∃ e, (x.run w).1 = .error e := by
  refine ⟨hx.standing hw fits, fun i hi => ?_⟩
  cases hrun : (x.run w).1 with
  | error e => exact .inr ⟨e, rfl⟩
  | ok a => exact .inl ((hx.strays w a hw fits hrun i hi).resolve_left id).1

/-- A call that does not fail leaves no new strays. -/
theorem Call.after_standing (hfs : fs.Vouches world { made }) (hnumber : fs.RootNumbered world number)
    (strict : Bool) (c : Call H) (hw : Standing world number w)
    (fits : (c.after fs strict w).tree.Fits) :
    Standing world number (c.after fs strict w) ∧
      ∀ i, (c.after fs strict w).tree.Stray i → w.tree.Stray i ∨ c.Fails fs strict w := by
  cases c with
  | baseline => exact (sweeps_baseline hfs strict hnumber).after hw fits
  | rescanRoots => exact (sweeps_rescanRoots hfs strict hnumber).after hw fits
  | processBatch batch => exact (sweeps_processBatch hfs strict hnumber batch).after hw fits
  | scan directory recursive => exact (sweeps_scan hfs strict directory recursive).after hw fits
  | scanRoot => exact (sweeps_scanRoot hfs strict hnumber).after hw fits

end

variable {w : Tracker ScriptedDisk}

/-- All strays have been left by calls that failed. -/
theorem Littered.standing
    (h : Littered ScriptedDisk.filesystem (ScriptedDisk.Over .empty) ScriptedDisk.Moves left w)
    (fits : w.tree.Fits) :
    (∃ n, w.files.disk.node? Disk.rootSerial = some n ∧ n.ino = Disk.rootIno) ∧
      Standing (ScriptedDisk.Over w.files.disk) Disk.rootIno w ∧ ∀ i, w.tree.Stray i → left i := by
  induction h with
  | start hstart =>
    refine ⟨hstart.disk ▸ ⟨_, rfl, rfl⟩, ⟨⟨rfl, hstart.modes⟩, Tree.sound_empty _, ?_⟩, ?_⟩
    · intro r hr
      cases hr
    · intro i hi
      exact absurd rfl hi.live
  | @call left w strict c hlittered ih =>
    obtain ⟨⟨n, hn, hino⟩, hw, hleft⟩ := ih ((c.grows strict w).fits fits)
    have hnumber := hino ▸ ScriptedDisk.rootNumbered hn
    obtain ⟨hstanding, hstrays⟩ :=
      c.after_standing (ScriptedDisk.vouches w.files.disk) hnumber strict hw fits
    have hdisk : (c.after ScriptedDisk.filesystem strict w).files.disk = w.files.disk :=
      hstanding.files.disk
    refine ⟨⟨n, hdisk ▸ hn, hino⟩, hdisk ▸ hstanding, fun i hi => ?_⟩
    exact (hstrays i hi).imp (hleft i) fun hfails => ⟨hfails, hi⟩
  | @elsewhere left w files leases clock hlittered hmove ih =>
    obtain ⟨⟨n, hn, hino⟩, hw, hleft⟩ := ih fits
    refine ⟨?_, ⟨⟨rfl, hmove.modes⟩, hw.sound, hw.root⟩, hleft⟩
    rcases hmove.disk with hsame | ⟨op, hop⟩
    · exact ⟨n, hsame ▸ hn, hino⟩
    · obtain ⟨n', hn', hino', -⟩ := Disk.Operation.keeps hop _ n hn
      exact ⟨n', hn', hino'.trans hino⟩

/-! ### Resynchronising -/

theorem rescanRoots_eq_ok {fs : Filesystem σ H} {strict : Bool} {w w' : Tracker σ}
    {summary : ScanSummary} (hrun : (rescanRoots fs strict).run w = (.ok summary, w')) :
    ∃ w₁, (scanRoot fs strict).run w = (.ok summary, w₁) ∧
      w'.tree = (w₁.ledger.reclaimNow w₁.clock).2.tree := by
  unfold rescanRoots at hrun
  rw [run_bind] at hrun
  generalize (scanRoot fs strict).run w = outcome at hrun ⊢
  obtain ⟨r, w₁⟩ := outcome
  cases r with
  | error e => cases hrun
  | ok s =>
    cases hrun
    exact ⟨w₁, rfl, rfl⟩

/-- Without a grace window, all that is left by resynchronising is below the root, but for what is on a
circle of names or below one, and what is below a stray that some failed call has left. -/
theorem Littered.rescanRoots_attached {strict : Bool} {summary : ScanSummary}
    {w' : Tracker ScriptedDisk}
    (h : Littered ScriptedDisk.filesystem (ScriptedDisk.Over .empty) ScriptedDisk.Moves left w)
    (hgrace : w.tree.grace = 0)
    (hrun : (rescanRoots ScriptedDisk.filesystem strict).run w = (.ok summary, w'))
    (fits : w'.tree.Fits) {i : InodeId} (hlive : w'.tree.identity? i ≠ none) :
    w'.tree.Attached i ∨ w'.tree.Circled i ∨
      ∃ j, left j ∧ w'.tree.Stray j ∧ ReflTransGen w'.tree.Inside j i := by
  have hafter : Call.rescanRoots.after ScriptedDisk.filesystem strict w = w' := congrArg Prod.snd hrun
  have hstrays := (hafter ▸ Littered.call strict .rescanRoots h).standing fits
  have hsound := hstrays.2.1.sound
  have hw := h.standing ((hafter ▸ Call.rescanRoots.grows strict w).fits fits)
  have hwaits : ∀ j, w'.tree.isOrphan j = false := by
    obtain ⟨w₁, hscan, htree⟩ := rescanRoots_eq_ok hrun
    have hreclaim : Tree.Edits (fun _ _ => True) w₁.tree w'.tree :=
      htree ▸ Ledger.edits_reclaim _ w₁.ledger.tick _ _
    have hedits := (editsOnly_scanRoot (ScriptedDisk.vouches w.files.disk) strict w hw.2.1.files).tree
    rw [hscan] at hedits
    intro j
    rw [htree]
    exact Ledger.isOrphan_reclaim (l := w₁.ledger.tick)
      (hedits.sound hw.2.1.sound (hreclaim.grows.fits fits)) (hedits.grace_eq.trans hgrace)
  rcases hsound.attached_or_circled hlive with hroot | hcircled | ⟨j, hj, hbelow⟩
  · exact .inl hroot
  · exact .inr (.inl hcircled)
  · have hstray : w'.tree.Stray j := hj.resolve_left (by rw [hwaits j]; exact Bool.false_ne_true)
    rcases hstrays.2.2 j hstray with hleft | ⟨⟨e, herror⟩, -⟩
    · exact .inr (.inr ⟨j, hleft, hstray, hbelow⟩)
    · rw [hrun] at herror
      cases herror

/-! ### A circle of names -/

/-- What happens to the disk is orderly, all objects that ever were have different inode numbers, and
modes are not replaced. -/
structure OrderlyMoves (files files' : ScriptedDisk) : Prop where
  disk : files'.disk = files.disk ∨
    ∃ op : Disk.Operation, op.Orderly files.disk ∧ op.apply files.disk = .ok files'.disk
  numbers : files'.disk.Unrepeated
  modes : ∀ ino o, files'.overrides.get? ino = some o → o.mode = none

theorem OrderlyMoves.plain {files files' : ScriptedDisk} (h : OrderlyMoves files files') :
    ScriptedDisk.Moves files files' :=
  ⟨h.disk.imp_right fun ⟨op, _, hop⟩ => ⟨op, hop⟩, h.modes⟩

/-- The states of a run in which nothing else happens. -/
abbrev OrderlyWatched : Tracker ScriptedDisk → Prop :=
  Reached ScriptedDisk.filesystem (ScriptedDisk.Over .empty) OrderlyMoves

theorem OrderlyWatched.watched (h : OrderlyWatched w) : Watched w := by
  induction h with
  | start hstart => exact .start hstart
  | call strict c _ ih => exact .call strict c ih
  | elsewhere _ hmove ih => exact .elsewhere ih hmove.plain

/-- All operations are orderly where they happen, and numbers are not repeated after them. -/
def OrderlyAll : Disk → List Disk.Operation → Prop
  | _, [] => True
  | d, op :: rest => op.Orderly d ∧ (d.perform op).Unrepeated ∧ OrderlyAll (d.perform op) rest

theorem OrderlyWatched.operate (h : OrderlyWatched w) {ops : List Disk.Operation}
    (hops : OrderlyAll w.files.disk ops) : OrderlyWatched (w.operate ops) := by
  induction ops generalizing w with
  | nil => exact h
  | cons op rest ih =>
    obtain ⟨horderly, hnumbers, hrest⟩ := hops
    have hmoves : OrderlyMoves w.files { w.files with disk := w.files.disk.perform op } :=
      ⟨(Disk.perform_cases w.files.disk op).imp_right fun hop => ⟨op, horderly, hop⟩, hnumbers,
        (Watched.over h.watched).1.modes⟩
    have hnext : OrderlyWatched { w with files := { w.files with disk := w.files.disk.perform op } } :=
      .elsewhere h hmoves
    exact ih hnext hrest

/-- A disk with a directory `a` and a directory `b` inside. -/
def nested : Disk :=
  (Disk.empty.perform (.mkdir (.ofString "/a"))).perform (.mkdir (.ofString "/a/b"))

/-- The same with `b` moved out of `a`. -/
def sideBySide : Disk := nested.perform (.rename (.ofString "/a/b") (.ofString "/b"))

/-- Makes a directory `a` with a directory `b` inside. -/
def makeNested : List Disk.Operation := [.mkdir (.ofString "/a"), .mkdir (.ofString "/a/b")]

/-- Moves `b` out of `a`, then `a` into `b`. -/
def swap : List Disk.Operation :=
  [.rename (.ofString "/a/b") (.ofString "/b"), .rename (.ofString "/a") (.ofString "/b/a")]

/-- A tracker that has seen `b` inside `a`. -/
def sawNested : Tracker ScriptedDisk :=
  Call.baseline.after ScriptedDisk.filesystem false
    (operate { files := {}, ledger := { tree := {} } } makeNested)

/-- A tracker that has been told of `b` alone after they have been swapped, so that their records bind
each other. Both directories have been deleted since. -/
def tangled : Tracker ScriptedDisk :=
  ((Call.processBatch [modified 2]).after ScriptedDisk.filesystem false
    (sawNested.operate swap)).operate [.remove (.ofString "/b/a"), .remove (.ofString "/b")]

/-- The tracker after it has been resynchronised. -/
def resynchronised : Tracker ScriptedDisk :=
  ((rescanRoots ScriptedDisk.filesystem false).run tangled).2

theorem orderlyWatched_tangled : OrderlyWatched tangled := by
  have hstart : OrderlyWatched { files := {}, ledger := { tree := {} } } := by
    refine .start ⟨rfl, fun _ _ h => ?_⟩
    cases h
  have hmade : OrderlyAll .empty makeNested :=
    ⟨trivial, by decide +kernel, trivial, by decide +kernel, trivial⟩
  have hsaw : OrderlyWatched sawNested := .call false .baseline (hstart.operate hmade)
  have hout : (Disk.Operation.rename (.ofString "/a/b") (.ofString "/b")).Orderly nested := by
    have hsource : nested.split (.ofString "/a/b") = .ok (1, .ofString "b") := by decide +kernel
    have htarget : nested.split (.ofString "/b") = .ok (0, .ofString "b") := by decide +kernel
    have hs : nested.child? 1 (.ofString "b") = some 2 := by decide +kernel
    exact Disk.Operation.orderly_rename hsource hs htarget (by decide) (by decide +kernel)
  have hinto : (Disk.Operation.rename (.ofString "/a") (.ofString "/b/a")).Orderly sideBySide := by
    have hsource : sideBySide.split (.ofString "/a") = .ok (0, .ofString "a") := by decide +kernel
    have htarget : sideBySide.split (.ofString "/b/a") = .ok (2, .ofString "a") := by
      decide +kernel
    have hs : sideBySide.child? 0 (.ofString "a") = some 1 := by decide +kernel
    exact Disk.Operation.orderly_rename hsource hs htarget (by decide) (by decide +kernel)
  have hswapped : OrderlyAll sawNested.files.disk swap := by
    have hdisk : sawNested.files.disk = nested := by decide +kernel
    rw [hdisk]
    exact ⟨hout, by decide +kernel, hinto, by decide +kernel, trivial⟩
  refine OrderlyWatched.operate (.call false _ (hsaw.operate hswapped)) ?_
  exact ⟨trivial, by decide +kernel, trivial, by decide +kernel, trivial⟩

theorem rescanRoots_tangled :
    (rescanRoots ScriptedDisk.filesystem false).run tangled =
      (.ok { directories := 1, unlinked := 1 }, resynchronised) :=
  Prod.ext (by decide +kernel) rfl

theorem fits_resynchronised : resynchronised.tree.Fits := by decide +kernel

/-- The record of `a`. -/
def recordOfA : InodeId := ⟨⟨1, 0⟩⟩

/-- Nothing is below the root any more but the root itself. -/
theorem not_attached_recordOfA : ¬resynchronised.tree.Attached recordOfA := by
  rintro ⟨r, hr, hway⟩
  have hroot : resynchronised.tree.root = some ⟨⟨0, 0⟩⟩ := by decide +kernel
  cases hroot.symm.trans hr
  rcases ReflTransGen.cases_head hway with heq | ⟨c, ⟨name, hc⟩, -⟩
  · cases heq
  · obtain ⟨e, he, -⟩ := Option.bind_eq_some_iff.1 hc
    obtain ⟨r, hr, hname⟩ := Option.bind_eq_some_iff.1 he
    have hmap : (resynchronised.tree.record? ⟨⟨0, 0⟩⟩).map (·.childList) = some [] := by
      decide +kernel
    rw [hr] at hmap
    have hempty : r.childList = [] := Option.some.inj hmap
    have hmem := (r.mem_childList name e).2 hname
    rw [hempty] at hmem
    cases hmem

/-- So not everything that is left by resynchronising is below the root. -/
theorem not_forall_attached :
    ¬∀ w, OrderlyWatched w → w.tree.grace = 0 → ∀ strict summary w',
      (rescanRoots ScriptedDisk.filesystem strict).run w = (.ok summary, w') → w'.tree.Fits →
        ∀ i, w'.tree.identity? i ≠ none → w'.tree.Attached i := by
  intro h
  exact not_attached_recordOfA (h tangled orderlyWatched_tangled (by decide +kernel) false _ _
    rescanRoots_tangled fits_resynchronised recordOfA (by decide +kernel))

theorem Littered.operate
    (h : Littered ScriptedDisk.filesystem (ScriptedDisk.Over .empty) ScriptedDisk.Moves left w)
    (ops : List Disk.Operation) :
    Littered ScriptedDisk.filesystem (ScriptedDisk.Over .empty) ScriptedDisk.Moves left
      (w.operate ops) := by
  induction ops generalizing w with
  | nil => exact h
  | cons op rest ih =>
    have hmoves : ScriptedDisk.Moves w.files
        { w.files with disk := w.files.disk.perform op } :=
      ⟨(Disk.perform_cases w.files.disk op).imp_right fun hop => ⟨op, hop⟩,
        (Watched.over h.reached).1.modes⟩
    have hnext : Littered ScriptedDisk.filesystem (ScriptedDisk.Over .empty) ScriptedDisk.Moves left
        { w with files := { w.files with disk := w.files.disk.perform op } } := .elsewhere h hmoves
    exact ih hnext

/-- No call of the run fails. -/
theorem littered_tangled :
    ∃ left, Littered ScriptedDisk.filesystem (ScriptedDisk.Over .empty) ScriptedDisk.Moves left
      tangled ∧ ∀ i, ¬left i := by
  have hstart : Littered ScriptedDisk.filesystem (ScriptedDisk.Over .empty) ScriptedDisk.Moves
      nothing { files := {}, ledger := { tree := {} } } := by
    refine .start ⟨rfl, fun _ _ h => ?_⟩
    cases h
  have hsaw := Littered.call false .baseline (hstart.operate makeNested)
  have hbatch := Littered.call false (.processBatch [modified 2]) (hsaw.operate swap)
  refine ⟨_, hbatch.operate _, ?_⟩
  have hbaseline : ((baseline ScriptedDisk.filesystem false).run
      (operate { files := {}, ledger := { tree := {} } } makeNested)).1.isOk := by decide +kernel
  have hprocess : ((processBatch ScriptedDisk.filesystem false [modified 2]).run
      (sawNested.operate swap)).1.isOk := by decide +kernel
  rintro i ((hnone | ⟨⟨e, herror⟩, -⟩) | ⟨⟨e, herror⟩, -⟩)
  · exact hnone
  · rw [herror] at hbaseline
    cases hbaseline
  · have hfails : ((processBatch ScriptedDisk.filesystem false [modified 2]).run
        (sawNested.operate swap)).1 = .error e := herror
    rw [hfails] at hprocess
    cases hprocess

/-- It is a circle that keeps the record. -/
theorem circled_recordOfA :
    resynchronised.tree.identity? recordOfA ≠ none ∧ resynchronised.tree.Circled recordOfA := by
  have hlive : resynchronised.tree.identity? recordOfA ≠ none := by decide +kernel
  obtain ⟨left, hlittered, hnone⟩ := littered_tangled
  rcases hlittered.rescanRoots_attached (by decide +kernel) rescanRoots_tangled fits_resynchronised
    hlive with hattached | hcircled | ⟨j, hleft, -⟩
  · exact absurd hattached not_attached_recordOfA
  · exact ⟨hlive, hcircled⟩
  · exact absurd hleft (hnone j)

/-! ### A stray -/

/-- Faults are armed, in the place of all that were armed before. -/
def arm (w : Tracker ScriptedDisk) (faults : List Fault) : Tracker ScriptedDisk :=
  { w with files := { w.files with faults } }

theorem OrderlyWatched.arm (h : OrderlyWatched w) (hnumbers : w.files.disk.Unrepeated)
    (faults : List Fault) : OrderlyWatched (w.arm faults) :=
  .elsewhere h ⟨.inl rfl, hnumbers, (Watched.over h.watched).1.modes⟩

/-- A tracker that has scanned an empty disk. -/
def sawNothing : Tracker ScriptedDisk :=
  Call.baseline.after ScriptedDisk.filesystem false { files := {}, ledger := { tree := {} } }

/-- A directory has been made since, and listing it will fail. -/
def unlisted : Tracker ScriptedDisk :=
  (sawNothing.operate [.mkdir (.ofString "/a")]).arm
    [{ point := .list, answer := .errno .inputOutput, ino := some 101 }]

/-- The scan of the directory has failed, and the directory has been deleted. -/
def halfScanned : Tracker ScriptedDisk :=
  ((Call.scan 1 false).after ScriptedDisk.filesystem false unlisted).operate [.remove (.ofString "/a")]

/-- The tracker after it has been resynchronised. -/
def strayKept : Tracker ScriptedDisk :=
  ((rescanRoots ScriptedDisk.filesystem false).run halfScanned).2

theorem orderlyWatched_halfScanned : OrderlyWatched halfScanned := by
  have hstart : OrderlyWatched { files := {}, ledger := { tree := {} } } := by
    refine .start ⟨rfl, fun _ _ h => ?_⟩
    cases h
  have hsaw : OrderlyWatched sawNothing := .call false .baseline hstart
  have hmade : OrderlyWatched (sawNothing.operate [.mkdir (.ofString "/a")]) :=
    hsaw.operate ⟨trivial, by decide +kernel, trivial⟩
  have hunlisted : OrderlyWatched unlisted := hmade.arm (by decide +kernel) _
  exact OrderlyWatched.operate (.call false (.scan 1 false) hunlisted)
    ⟨trivial, by decide +kernel, trivial⟩

/-- The record of a directory is kept for good if the call that found it failed before binding it: no
name leads to it, and it does not wait. -/
theorem stray_recordOfA :
    OrderlyWatched halfScanned ∧ halfScanned.tree.grace = 0 ∧
      (rescanRoots ScriptedDisk.filesystem false).run halfScanned = (.ok { directories := 1 }, strayKept) ∧
      strayKept.tree.Fits ∧ strayKept.tree.Stray recordOfA ∧ ¬strayKept.tree.Attached recordOfA ∧
      ¬strayKept.tree.Circled recordOfA ∧
      ∃ left, Littered ScriptedDisk.filesystem (ScriptedDisk.Over .empty) ScriptedDisk.Moves left
        halfScanned ∧ left recordOfA := by
  have hok : ((rescanRoots ScriptedDisk.filesystem false).run halfScanned).1 = .ok { directories := 1 } := by
    decide +kernel
  have hrun : (rescanRoots ScriptedDisk.filesystem false).run halfScanned =
      (.ok { directories := 1 }, strayKept) := by
    rw [strayKept, ← hok, Prod.mk.eta]
  have fits : strayKept.tree.Fits := by decide +kernel
  have hwatched : Watched halfScanned := orderlyWatched_halfScanned.watched
  have hsound : strayKept.tree.Sound := (Reached.call false .rescanRoots hwatched).sound fits
  have hrecord : ((strayKept.tree.record? recordOfA).map (·.isUnlinked)) = some true := by decide +kernel
  obtain ⟨r, hr, hunlinked⟩ := Option.map_eq_some_iff.1 hrecord
  have hidle : strayKept.tree.Idle recordOfA := hsound.idle_of_isUnlinked hr hunlinked (by decide +kernel)
  have hstray : strayKept.tree.Stray recordOfA := ⟨hidle, by decide +kernel, by decide +kernel⟩
  obtain ⟨left, hleft⟩ := Reached.littered hwatched
  refine ⟨orderlyWatched_halfScanned, by decide +kernel, hrun, fits, hstray, hidle.not_attached,
    hidle.not_circled, left, hleft, ?_⟩
  -- the call that has just succeeded has left nothing
  obtain ⟨-, -, hstrays⟩ := (Littered.call false .rescanRoots hleft).standing fits
  rcases hstrays recordOfA hstray with hold | ⟨⟨e, herror⟩, -⟩
  · exact hold
  · rw [hrun] at herror
    cases herror

end Tracker

end TreeWatch

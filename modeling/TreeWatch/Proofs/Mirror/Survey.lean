import TreeWatch.Proofs.Mirror.Batch
import TreeWatch.Proofs.Mirror.Listed

/-!
# Surveys

When notifications have been lost, the whole mount is scanned again, and records are reclaimed right after
that, in the middle of a batch. All that can be reached on the disk is bound by then, so it survives. A
record that goes was of an object that cannot be reached.

## Main definitions

- `View.Surveyed` : the tree shows all that can be reached on the disk
- `View.Astray` : the tree does so, and an object cannot be reached
- `Notification.Understood` : a notification of one of the kinds that are acted upon
- `Tracker.Upheld` : what a batch leaves of what was right about the tree
- `Tracker.Minded` : an object that, as a directory, is settled unless it cannot be reached

## Main results

- `Tree.Pruned.identity?_of_reachable` : reclaiming spares what can be reached
- `Tracker.does_handleAll_upheld` : notifications of both kinds leave right what was right
- `Tracker.records_handleAll` : what they list is settled when they have been handled
-/

namespace TreeWatch

namespace Tree

variable {t t' : Tree} {i : InodeId}

theorem Sound.live_of_reachable (h : t.Sound) (hroot : ∀ r, t.root = some r → t.isLive r)
    (hi : t.Reachable i) : t.isLive i := by
  obtain ⟨r, hr, hway⟩ := hi
  rcases Relation.ReflTransGen.cases_tail hway with rfl | ⟨p, -, name, hc⟩
  · exact hroot _ hr
  · exact isLive_iff_identity?.2 (h.live_of_child?_eq_some hc).2

/-! ### Reclaiming spares what can be reached -/

namespace Pruned

/-- Each record on the way from the root is bound by the one before it. -/
theorem identity?_of_reachable (h : Pruned t t') (ht : t.Sound) (hi : t.Reachable i) :
    t'.identity? i = t.identity? i := by
  obtain ⟨r, hroot, hway⟩ := hi
  induction hway with
  | refl => exact h.root_kept hroot
  | tail _ hlast ih =>
    obtain ⟨name, hname⟩ := hlast
    obtain ⟨hparent, -⟩ := ht.live_of_child?_eq_some hname
    rw [← ih] at hparent
    have hname' := ((h.unchanged hparent).2 name).trans hname
    exact (h.unchanged (h.sound.live_of_child?_eq_some hname').2).1

/-- What can be reached afterwards could be reached before. -/
theorem reachable_back (h : Pruned t t') (hi : t'.Reachable i) : t.Reachable i := by
  obtain ⟨r, hroot, hway⟩ := hi
  refine ⟨r, h.root_eq ▸ hroot, hway.lift id fun p c hpc => ?_⟩
  obtain ⟨name, hname⟩ := hpc
  exact ⟨name, h.child?_back hname⟩

end Pruned

end Tree

namespace View

variable {d : Disk} {present : Serial → Prop} {v v' : View} {s : Serial}

/-- The root has a record, and all that can be reached is shown as it is. -/
structure Surveyed (v : View) (d : Disk) : Prop where
  rooted : v.Rooted d
  settled : ∀ s, d.Below Disk.rootSerial s → v.Held d s → v.Settled d s

/-- The object cannot be reached, whereas all that can be reached is shown as it is. -/
def Astray (v : View) (d : Disk) (s : Serial) : Prop := v.Surveyed d ∧ ¬d.Reachable s

theorem Updates.surveyed (hd : d.Distinguishes present) (h : Updates d present v v') {t : Tree}
    (ht : t.view = v) (hv : v.Surveyed d) : v'.Surveyed d := by
  subst ht
  refine ⟨Updates.rooted hd h hv.rooted, fun s hs _ => ?_⟩
  have hreachable : d.Reachable s := hs.lift id fun _ _ hbc => hbc.1
  have hheld := Tree.Sound.held_of_reachable hv.rooted hv.settled hreachable
  exact Updates.settled hd h (hd.of_named hreachable.named) (hv.settled s hs hheld)

end View

namespace Tree

variable {t t' : Tree} {d : Disk} {i : InodeId} {s : Serial}

theorem Mirrors.reachable {recordOf : Serial → InodeId} (h : t.Mirrors d recordOf)
    (hs : d.Reachable s) : t.Reachable (recordOf s) := by
  refine ⟨_, h.root_eq, ?_⟩
  induction hs with
  | refl => exact .refl
  | tail hb hlast ih =>
    obtain ⟨name, hname⟩ := hlast
    refine ih.tail ⟨name, ?_⟩
    rw [h.child?_eq _ hb, hname, Option.map_some]

namespace Sound

/-- In a tree that shows all that can be reached, exactly this can be reached. -/
theorem reachable_iff (h : t.Sound) (hd : d.Regular) (hsurveyed : t.view.Surveyed d)
    (hi : t.view.Holds d i s) : t.Reachable i ↔ d.Reachable s := by
  obtain ⟨recordOf, hmirrors⟩ := h.exists_mirrors hd hsurveyed.rooted hsurveyed.settled
  constructor
  · intro hreachable
    obtain ⟨o, ho, rfl⟩ := hmirrors.surjective i hreachable
    exact hi.serial_eq hd (hmirrors.holds ho) ▸ ho
  · intro hs
    exact h.eq_of_holds hi (hmirrors.holds hs) ▸ hmirrors.reachable hs

end Sound

namespace Pruned

variable (h : Pruned t t') (ht : t.Sound) (hd : d.Regular) (hsurveyed : t.view.Surveyed d)
include h ht hsurveyed

theorem surveyed : t'.view.Surveyed d := by
  refine ⟨h.rooted hsurveyed.rooted, fun s hs hheld => ?_⟩
  obtain ⟨i, hi⟩ := id hheld
  exact h.settled ht hheld (hsurveyed.settled s hs ⟨i, h.holds_back hi⟩)

include hd

theorem holds_or_astray (hi : t.view.Holds d i s) :
    t'.view.Holds d i s ∨ t'.view.Astray d s := by
  by_cases hs : d.Reachable s
  · have hreachable := (ht.reachable_iff hd hsurveyed hi).2 hs
    exact .inl ((View.holds_congr (h.identity?_of_reachable ht hreachable)).2 hi)
  · exact .inr ⟨h.surveyed ht hsurveyed, hs⟩

theorem settled_or_astray (hs : t.view.Settled d s) :
    t'.view.Settled d s ∨ t'.view.Astray d s := by
  obtain ⟨p, hp, -⟩ := id hs
  exact (h.holds_or_astray ht hd hsurveyed hp).imp_left fun hp' => h.settled ht ⟨p, hp'⟩ hs

end Pruned

end Tree

/-- The notification tells that a directory has been modified or that notifications have been lost. It may
come without an object, and the object may be no directory. -/
structure Notification.Understood (n : Notification Serial) : Prop where
  version : n.version = recordVersion
  kind : n.kind = .directoryModified ∨ n.kind = .overflow

namespace Tracker

open View

variable {σ : Type} {fs : Filesystem σ Serial} {d : Disk} {present : Serial → Prop} {strict : Bool}
  {w w' w'' : Tracker σ} {s : Serial} {n : Notification Serial} {batch : List (Notification Serial)}

/-! ### What batches leave right -/

/-- Work has been done that leaves everything right about present objects, except perhaps about those
that cannot be reached. -/
structure Upheld (strict : Bool) (d : Disk) (present : Serial → Prop) (w w' : Tracker σ) : Prop where
  files : w'.files = w.files
  sound : w'.tree.Sound
  truthful : w'.tree.view.Truthful d
  calm : w'.tree.view.Calm strict d present
  surveyed : w.tree.view.Surveyed d → w'.tree.view.Surveyed d
  holds : ∀ {i s}, present s → w.tree.view.Holds d i s →
    w'.tree.view.Holds d i s ∨ w'.tree.view.Astray d s
  settled : ∀ {s}, present s → w.tree.view.Settled d s →
    w'.tree.view.Settled d s ∨ w'.tree.view.Astray d s

/-- The object is present. If it is a directory, it is settled unless it cannot be reached. -/
def Minded (d : Disk) (present : Serial → Prop) (s : Serial) (w : Tracker σ) : Prop :=
  present s ∧ (d.isDirectory s → w.tree.view.Settled d s ∨ w.tree.view.Astray d s)

namespace Upheld

theorem ready (h : Upheld strict d present w w') (hw : Ready fs d w) : Ready fs d w' :=
  ⟨h.files ▸ hw.plain, h.sound, h.truthful⟩

theorem astray (h : Upheld strict d present w w') (hs : w.tree.view.Astray d s) :
    w'.tree.view.Astray d s :=
  ⟨h.surveyed hs.1, hs.2⟩

theorem refl (hw : Ready fs d w) (hcalm : w.tree.view.Calm strict d present) :
    Upheld strict d present w w :=
  ⟨rfl, hw.sound, hw.truthful, hcalm, id, fun _ => .inl, fun _ => .inl⟩

theorem trans (h : Upheld strict d present w w') (h' : Upheld strict d present w' w'') :
    Upheld strict d present w w'' where
  files := h'.files.trans h.files
  sound := h'.sound
  truthful := h'.truthful
  calm := h'.calm
  surveyed := fun hw => h'.surveyed (h.surveyed hw)
  holds := fun hs hi => (h.holds hs hi).elim (h'.holds hs) fun hastray => .inr (h'.astray hastray)
  settled := fun hs hw => (h.settled hs hw).elim (h'.settled hs) fun hastray =>
    .inr (h'.astray hastray)

theorem minded (h : Upheld strict d present w w') (hs : Minded d present s w) :
    Minded d present s w' :=
  ⟨hs.1, fun hdir => (hs.2 hdir).elim (h.settled hs.1) fun hastray => .inr (h.astray hastray)⟩

/-- What is not in the tree may change further. -/
theorem of_tree_eq (h : Upheld strict d present w w') (hfiles : w''.files = w'.files)
    (htree : w''.tree = w'.tree) : Upheld strict d present w w'' := by
  obtain ⟨hfiles', hsound, htruthful, hcalm, hsurveyed, hholds, hsettled⟩ := h
  rw [← htree] at hsound htruthful hcalm hsurveyed hholds hsettled
  exact ⟨hfiles.trans hfiles', hsound, htruthful, hcalm, hsurveyed, hholds, hsettled⟩

end Upheld

theorem Worked.upheld (hd : d.Distinguishes present) (h : Worked d present w w') (hw : Ready fs d w)
    (hcalm : w.tree.view.Calm strict d present) : Upheld strict d present w w' where
  files := h.files
  sound := h.sound
  truthful := Updates.truthful h.updates hw.truthful
  calm := Updates.calm hd h.updates hcalm
  surveyed := Updates.surveyed hd h.updates rfl
  holds := fun hs hi => .inl (Updates.holds hd.regular h.updates hs hi)
  settled := fun hs hw => .inl (Updates.settled hd h.updates hs hw)

/-- Reclaiming after a survey. -/
theorem upheld_of_pruned (hd : d.Distinguishes present) (hw : Ready fs d w)
    (hcalm : w.tree.view.Calm strict d present) (hsurveyed : w.tree.view.Surveyed d)
    (hfiles : w'.files = w.files) (hpruned : Tree.Pruned w.tree w'.tree) :
    Upheld strict d present w w' where
  files := hfiles
  sound := hpruned.sound
  truthful := hpruned.truthful hw.truthful
  calm := ⟨hcalm.1, hcalm.2.imp_right fun hfresh i o s hi => hfresh i o s (hpruned.holds_back hi)⟩
  surveyed := hpruned.surveyed hw.sound
  holds := fun _ => hpruned.holds_or_astray hw.sound hd.regular hsurveyed
  settled := fun _ => hpruned.settled_or_astray hw.sound hd.regular hsurveyed

/-! ### Notifications -/

/-- What follows the rescan after lost notifications. -/
def afterRescan (n : Notification Serial) (outcome : Except ScanError ScanSummary) :
    Track σ WatchError ScanSummary := do
  releaseObject n
  match outcome with
  | .ok summary => pure summary
  | .error e => throw (.queueOverflow e)

theorem handle_of_overflow (hn : n.version = recordVersion) (hkind : n.kind = .overflow) :
    handle fs strict n = (do
      note .queueOverflowed
      let outcome ← attempt (rescanRoots fs strict)
      afterRescan n outcome) := by
  unfold handle
  rw [if_neg (not_not.2 hn), hkind]
  cases n.object <;> rfl

theorem handle_of_no_object (hn : n.version = recordVersion) (hkind : n.kind = .directoryModified)
    (hnone : n.object = none) :
    handle fs strict n = (do
      note (.ignored .directoryModified n.mask)
      releaseObject n
      pure {}) := by
  unfold handle
  rw [if_neg (not_not.2 hn), hkind, hnone]

theorem run_releaseObject {ε : Type} (n : Notification Serial) (w : Tracker σ) :
    ∃ leases, (releaseObject n : Track σ ε Unit).run w = (.ok (), { w with leases }) := by
  unfold releaseObject
  cases n.object with
  | none => exact ⟨w.leases, rfl⟩
  | some _ => exact ⟨w.leases.giveBack, rfl⟩

theorem tame_afterRescan (n : Notification Serial) (outcome : Except ScanError ScanSummary) :
    Tame (afterRescan n outcome : Track σ WatchError ScanSummary) := by
  refine .bind (editsOnly_releaseObject n) fun _ => ?_
  cases outcome with
  | ok _ => exact .pure _
  | error _ => exact .throw _

section notifications

variable (hd : d.Distinguishes present) (hacyclic : d.Acyclic)
include hd hacyclic

section one

variable (hw : Ready fs d w) (hcalm : w.tree.view.Calm strict d present)
include hw hcalm

/-- A scan of the whole mount is a survey. -/
theorem does_scanRoot_surveyed :
    Does (scanRoot fs strict) w True fun _ w' =>
      Upheld strict d present w w' ∧ w'.tree.view.Surveyed d := by
  have hpresent : present Disk.rootSerial := hd.of_named (.inl rfl)
  have hshallow := hacyclic.shallow hd.regular.isDirectory_root
  refine (does_scanRoot hd hw fun _ =>
    ⟨hcalm.1.listable, hcalm.1.not_oversized hpresent, hshallow⟩).mono ?_
  rintro _ w' ⟨hscan, hrooted⟩
  refine ⟨hscan.toWorked.upheld hd hw hcalm, hrooted, fun s hs _ => ?_⟩
  exact (hscan.below rfl hcalm s hs).settled hd (hd.of_below hpresent hs) hcalm

theorem does_rescanRoots_upheld :
    Does (rescanRoots fs strict) w True fun _ w' => Upheld strict d present w w' := by
  unfold rescanRoots
  refine .bind (does_scanRoot_surveyed hd hacyclic hw hcalm)
    (fun _ => .bind editsOnly_reclaimNow fun _ => .pure _) ?_
  rintro _ w₁ ⟨hupheld, hsurveyed⟩
  refine .bind (does_reclaimNow hupheld.sound) (fun _ => .pure _) ?_
  rintro _ w₂ ⟨hfiles, hpruned⟩
  exact .pure (hupheld.trans
    (upheld_of_pruned hd (hupheld.ready hw) hupheld.calm hsurveyed hfiles hpruned))

theorem records_rescanRoots :
    Records (rescanRoots fs.recording strict) (rescanRoots fs strict) w (Minded d present) := by
  refine (records_scanRoot hd hw hcalm (hacyclic.shallow hd.regular.isDirectory_root)).before
    (does_scanRoot_surveyed hd hacyclic hw hcalm) (fun _ => .bind editsOnly_reclaimNow fun _ => .pure _)
    (fun _ => .bind (.editGet _) fun _ => .pure _) ?_
  rintro _ w₁ ⟨hupheld, hsurveyed⟩
  refine .bind (does_reclaimNow hupheld.sound) (fun _ => .pure _) ?_
  rintro _ w₂ ⟨hfiles, hpruned⟩
  have hreclaimed := upheld_of_pruned hd (hupheld.ready hw) hupheld.calm hsurveyed hfiles hpruned
  exact .pure fun s hs => hreclaimed.minded ⟨hs.1, fun hdir => .inl (hs.2 hdir)⟩

theorem does_handle_of_overflow (hn : n.version = recordVersion) (hkind : n.kind = .overflow) :
    Does (handle fs strict n) w True fun _ w' => Upheld strict d present w w' := by
  have hnoted : Ready fs d { w with ledger := w.ledger.note .queueOverflowed } :=
    ⟨hw.plain, hw.sound, hw.truthful⟩
  rw [handle_of_overflow hn hkind]
  refine .step (run_note _ _) ?_
  refine .attempt_bind (does_rescanRoots_upheld hd hacyclic hnoted hcalm) (tame_afterRescan n) ?_
    fun _ _ hfalse => absurd trivial hfalse
  intro summary w₁ h
  obtain ⟨leases, hrelease⟩ := run_releaseObject (ε := WatchError) n w₁
  have hrescan : Upheld strict d present w w₁ :=
    ⟨h.files, h.sound, h.truthful, h.calm, h.surveyed, h.holds, h.settled⟩
  exact .step hrelease (.pure (hrescan.of_tree_eq rfl rfl))

theorem records_handle_of_overflow (hn : n.version = recordVersion) (hkind : n.kind = .overflow) :
    Records (handle fs.recording strict n) (handle fs strict n) w (Minded d present) := by
  have hnoted : Ready fs d { w with ledger := w.ledger.note .queueOverflowed } :=
    ⟨hw.plain, hw.sound, hw.truthful⟩
  rw [handle_of_overflow hn hkind, handle_of_overflow hn hkind]
  have hreleased : ∀ (summary : ScanSummary) (w₁ : Tracker σ),
      Does (afterRescan n (.ok summary)) w₁ True
        fun _ w₂ => ∀ s, Minded d present s w₁ → Minded d present s w₂ := by
    intro summary w₁
    obtain ⟨leases, hrelease⟩ := run_releaseObject (ε := WatchError) n w₁
    exact .step hrelease (.pure fun _ hs => hs)
  refine .step (.note _) (run_note _ _) ?_
  refine (records_rescanRoots hd hacyclic hnoted hcalm).attempt_bind
    (does_rescanRoots_upheld hd hacyclic hnoted hcalm) (tame_afterRescan n) ?_
    fun summary w₁ _ => hreleased summary w₁
  exact fun summary w₁ _ =>
    .of_aside (.bind (aside_releaseObject n) fun _ => .pure _) (hreleased summary w₁)

variable (hpresent : ∀ s, n.object = some s → present s)
include hpresent

theorem does_handle_upheld (hn : n.Understood) :
    Does (handle fs strict n) w True fun _ w' => Upheld strict d present w w' := by
  rcases hn.kind with hkind | hkind
  · cases hobject : n.object with
    | none =>
      rw [handle_of_no_object hn.version hkind hobject]
      refine .step (run_note _ _) ?_
      obtain ⟨leases, hrelease⟩ := run_releaseObject (ε := WatchError) n { w with ledger := _ }
      exact .step hrelease (.pure ((Upheld.refl hw hcalm).of_tree_eq rfl rfl))
    | some s =>
      rw [handle_of_tellsOf ⟨hn.version, hkind, hobject⟩]
      exact ((does_scan_of_present hd hw hcalm (hpresent s hobject) hacyclic.shallow false).wrapping).mono
        fun _ _ h => h.upheld hd hw hcalm
  · exact does_handle_of_overflow hd hacyclic hw hcalm hn.version hkind

theorem records_handle (hn : n.Understood) :
    Records (handle fs.recording strict n) (handle fs strict n) w (Minded d present) := by
  rcases hn.kind with hkind | hkind
  · cases hobject : n.object with
    | none =>
      have hdoes := does_handle_upheld hd hacyclic hw hcalm hpresent hn
      rw [handle_of_no_object hn.version hkind hobject] at hdoes ⊢
      rw [handle_of_no_object hn.version hkind hobject]
      exact .of_aside (.bind (.note _) fun _ => .bind (aside_releaseObject n) fun _ => .pure _) hdoes
    | some s =>
      have htells : n.TellsOf s := ⟨hn.version, hkind, hobject⟩
      rw [handle_of_tellsOf htells, handle_of_tellsOf htells]
      exact (records_scan hd hw hcalm (hpresent s hobject) hacyclic.shallow false).wrapping.mono
        fun _ _ h => ⟨h.1, fun hdir => .inl (h.2 hdir)⟩
  · exact records_handle_of_overflow hd hacyclic hw hcalm hn.version hkind

end one

variable (hpresent : ∀ n ∈ batch, ∀ s, n.object = some s → present s)
  (hbatch : ∀ n ∈ batch, n.Understood)
include hpresent hbatch

/-- Notifications of both kinds, one after another. None fails. -/
theorem does_handleAll_upheld (hw : Ready fs d w) (hcalm : w.tree.view.Calm strict d present) :
    Does (handleAll fs strict batch) w True fun _ w' => Upheld strict d present w w' := by
  induction batch generalizing w with
  | nil => exact .pure (.refl hw hcalm)
  | cons n rest ih =>
    obtain ⟨hfirst, hothers⟩ := List.forall_mem_cons.1 hpresent
    obtain ⟨hn, hrest⟩ := List.forall_mem_cons.1 hbatch
    refine .attempt_bind (does_handle_upheld hd hacyclic hw hcalm hfirst hn)
      (editsOnly_afterHandle strict (editsOnly_handleAll fs.vouches_trivial strict rest)) ?_
      fun _ _ hfalse => absurd trivial hfalse
    intro first w₁ h₁
    refine .bind (ih hothers hrest (h₁.ready hw) h₁.calm) (fun _ => .pure _) ?_
    exact fun others w₂ h₂ => .pure (h₁.trans h₂)

/-- All directories that they list are settled in the end, unless they cannot be reached. -/
theorem records_handleAll (hw : Ready fs d w) (hcalm : w.tree.view.Calm strict d present) :
    Records (handleAll fs.recording strict batch) (handleAll fs strict batch) w
      (Minded d present) := by
  induction batch generalizing w with
  | nil => exact .pure
  | cons n rest ih =>
    obtain ⟨hfirst, hothers⟩ := List.forall_mem_cons.1 hpresent
    obtain ⟨hn, hrest⟩ := List.forall_mem_cons.1 hbatch
    refine (records_handle hd hacyclic hw hcalm hfirst hn).attempt_bind
      (does_handle_upheld hd hacyclic hw hcalm hfirst hn)
      (editsOnly_afterHandle strict (editsOnly_handleAll fs.vouches_trivial strict rest)) ?_ ?_
      <;> intro first w₁ h₁
    · exact (ih hothers hrest (h₁.ready hw) h₁.calm).bind_pure _
    · refine .bind (does_handleAll_upheld hd hacyclic hothers hrest (h₁.ready hw) h₁.calm)
        (fun _ => .pure _) fun _ w₂ h₂ => .pure fun s hs => h₂.minded hs

end notifications

end Tracker

end TreeWatch

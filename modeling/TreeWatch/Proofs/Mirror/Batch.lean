import TreeWatch.Proofs.Mirror.Reclaim
import TreeWatch.Proofs.Mirror.Scan

/-!
# Batches of notifications

Notifications about modified directories are handled one after another, and then records are reclaimed.
Directories of which a batch tells are settled afterwards, and so are directories that are new to the
tree.

## Main definitions

- `Notification.TellsOf` : a notification that a directory has been modified
- `View.SettledBut` : directories are settled, except some that notifications tell of

## Main results

- `Tracker.does_handleAll` : what handling notifications achieves
- `Tracker.does_processBatch_pruned`, `Tracker.does_processBatch` : a batch settles the directories that
  it tells of
-/

namespace TreeWatch

/-- The notification tells that the directory has been modified. -/
structure Notification.TellsOf (n : Notification Serial) (s : Serial) : Prop where
  version : n.version = recordVersion
  kind : n.kind = .directoryModified
  object : n.object = some s

/-- Every directory that has a name and a record is settled, or it is one of the given. -/
def View.SettledBut (v : View) (d : Disk) (handles : List Serial) : Prop :=
  ∀ s, d.Named s → d.isDirectory s → v.Held d s → s ∈ handles ∨ v.Settled d s

namespace Tracker

open View

variable {σ : Type} {fs : Filesystem σ Serial} {d : Disk} {present : Serial → Prop} {strict : Bool}
  {w w' w'' : Tracker σ} {s : Serial} {handles rest : List Serial}
  {batch : List (Notification Serial)}

/-- What a tree must be like for a batch to be handled, apart from the names in it. -/
structure Abreast (d : Disk) (handles : List Serial) (w : Tracker σ) : Prop where
  sound : w.tree.Sound
  truthful : w.tree.view.Truthful d
  rooted : w.tree.view.Rooted d
  settled : w.tree.view.SettledBut d handles

/-- Directories have been scanned, and those that are new to the tree as well. -/
structure DidHandle (strict : Bool) (d : Disk) (present : Serial → Prop) (handles : List Serial)
    (w w' : Tracker σ) : Prop extends Worked d present w w' where
  explored : Explored strict d present w.tree.view w'.tree.view
  scanned : ∀ s ∈ handles, ¬d.Oversized s → Scanned strict d w.tree.view w'.tree.view s
  met : ∀ c, w'.tree.view.Held d c →
    d.Met present (fun x => w.tree.view.Held d x ∨ x ∈ handles ∧ ¬d.Oversized x) c

theorem handle_of_tellsOf {n : Notification Serial} (hn : n.TellsOf s) :
    handle fs strict n = wrapping .scan (scan fs strict s false) := by
  unfold handle
  rw [if_neg (not_not.2 hn.version), hn.kind, hn.object]

theorem does_handle (hd : d.Distinguishes present) (hw : Ready fs d w)
    (hlistable : d.Listable present) {n : Notification Serial} (hn : n.TellsOf s)
    (hs : present s) (hdir : d.isDirectory s) (hshallow : d.Shallow (d.nodes.length + 1) s) :
    Does (handle fs strict n) w True fun _ w' => DidHandle strict d present [s] w w' := by
  rw [handle_of_tellsOf hn]
  refine ((does_scan hd hw hs hdir false fun _ => ⟨hlistable, hshallow⟩).wrapping).mono ?_
  intro _ w' hscan
  refine ⟨hscan.toWorked, hscan.explored, fun s' hs' => ?_,
    fun c hc => (hscan.met c hc).trans fun x hx => .start (hx.imp_right fun h => ?_)⟩
  · obtain rfl := List.mem_singleton.1 hs'
    exact hscan.scanned
  · exact ⟨List.mem_singleton.2 h.1, h.1 ▸ h.2⟩

/-- Notifications, one after another. None fails. -/
theorem does_handleAll (hd : d.Distinguishes present) (hw : Ready fs d w)
    (hlistable : d.Listable present)
    (hbatch : List.Forall₂ Notification.TellsOf batch handles)
    (hhandles : ∀ s ∈ handles, present s ∧ d.isDirectory s ∧ d.Shallow (d.nodes.length + 1) s) :
    Does (handleAll fs strict batch) w True fun _ w' => DidHandle strict d present handles w w' := by
  induction hbatch generalizing w with
  | nil => exact .pure ⟨hw.worked, .refl, (fun s hs => by cases hs), fun _ hc => .start (.inl hc)⟩
  | @cons n s batch handles hn _ ih =>
    obtain ⟨hs, hdir, hshallow⟩ := hhandles s List.mem_cons_self
    refine .attempt_bind (does_handle hd hw hlistable hn hs hdir hshallow)
      (editsOnly_afterHandle strict (editsOnly_handleAll fs.vouches_trivial strict batch)) ?_
      fun _ _ hfalse => absurd trivial hfalse
    intro first w₁ hfirst
    have hw₁ := hw.after hfirst.toWorked
    refine .bind (ih hw₁ fun s' hs' => hhandles s' (List.mem_cons_of_mem s hs'))
      (fun _ => .pure _) ?_
    intro others w₂ hothers
    refine .pure ⟨hfirst.toWorked.trans hothers.toWorked, ?_, fun s' hs' => ?_,
      fun c hc => (hothers.met c hc).trans fun x hx => ?_⟩
    · exact hfirst.explored.trans hd hfirst.updates hothers.explored hothers.updates
    · intro hsize
      rcases List.mem_cons.1 hs' with rfl | hs'
      · exact (hfirst.scanned s' (List.mem_singleton_self s') hsize).mono hd hothers.updates hs
      · exact (hothers.scanned s' hs' hsize).of_later hd hfirst.updates
    · rcases hx with hmid | ⟨hmem, hsize⟩
      · refine (hfirst.met x hmid).trans fun y hy => .start (hy.imp_right fun ⟨hmem, hsize⟩ => ?_)
        exact ⟨List.mem_cons.2 (.inl (List.mem_singleton.1 hmem)), hsize⟩
      · exact .start (.inr ⟨List.mem_cons_of_mem s hmem, hsize⟩)

/-- Handled directories need no more attention, and new ones never do. -/
theorem DidHandle.settledBut (hd : d.Distinguishes present)
    (hcalm : w.tree.view.Calm strict d present)
    (hsettled : w.tree.view.SettledBut d (handles ++ rest))
    (h : DidHandle strict d present handles w w') : w'.tree.view.SettledBut d rest := by
  intro s hs hdir hheld
  have hpresent : present s := hd.of_named hs
  rcases h.explored s hpresent hdir hheld with hold | hscanned
  · rcases hsettled s hs hdir hold with hmem | hbefore
    · rcases List.mem_append.1 hmem with hhandled | hrest
      · have hscanned := h.scanned s hhandled (hcalm.1.not_oversized hpresent)
        exact .inr (hscanned.settled hd hpresent hcalm)
      · exact .inl hrest
    · exact .inr (Updates.settled hd h.updates hpresent hbefore)
  · exact .inr (hscanned.settled hd hpresent hcalm)

/-- Reclaiming keeps all that matters. -/
theorem Abreast.of_pruned (h : Abreast d handles w) (hpruned : Tree.Pruned w.tree w'.tree) :
    Abreast d handles w' where
  sound := hpruned.sound
  truthful := hpruned.truthful h.truthful
  rooted := hpruned.rooted h.rooted
  settled := by
    intro s hs hdir hheld
    obtain ⟨i, hi⟩ := hheld
    rcases h.settled s hs hdir ⟨i, hpruned.holds_back hi⟩ with hmem | hbefore
    · exact .inl hmem
    · exact .inr (hpruned.settled h.sound ⟨i, hi⟩ hbefore)

/-- A batch succeeds if directories can be listed. Reclaiming comes last. -/
theorem does_processBatch_pruned (hd : d.Distinguishes present) (hw : Ready fs d w)
    (hlistable : d.Listable present) (hbatch : List.Forall₂ Notification.TellsOf batch handles)
    (hhandles : ∀ s ∈ handles, present s ∧ d.isDirectory s ∧ d.Shallow (d.nodes.length + 1) s) :
    Does (processBatch fs strict batch) w True fun _ w' =>
      ∃ w₁, DidHandle strict d present handles w w₁ ∧ w'.files = w.files ∧
        Tree.Pruned w₁.tree w'.tree := by
  rw [processBatch_eq]
  refine .bind (does_handleAll hd hw hlistable hbatch hhandles) editsOnly_afterBatch ?_
  intro summary w₁ hhandled
  refine (Does.afterBatch (does_reclaimNow hhandled.sound) (fun _ _ h => h) summary).mono ?_
  exact fun _ w₂ ⟨hfiles, hpruned⟩ => ⟨w₁, hhandled, hfiles.trans hhandled.files, hpruned⟩

/-- A batch succeeds, and the directories that it tells of need no more attention. -/
theorem does_processBatch (hd : d.Distinguishes present) (hplain : fs.Plain w.files d)
    (hw : Abreast d (handles ++ rest) w) (hcalm : w.tree.view.Calm strict d present)
    (hbatch : List.Forall₂ Notification.TellsOf batch handles)
    (hhandles : ∀ s ∈ handles, present s ∧ d.isDirectory s ∧ d.Shallow (d.nodes.length + 1) s) :
    Does (processBatch fs strict batch) w True fun _ w' =>
      w'.files = w.files ∧ Abreast d rest w' := by
  have hready : Ready fs d w := ⟨hplain, hw.sound, hw.truthful⟩
  refine (does_processBatch_pruned hd hready hcalm.1.listable hbatch hhandles).mono ?_
  rintro _ w' ⟨w₁, hhandled, hfiles, hpruned⟩
  have habreast : Abreast d rest w₁ :=
    ⟨hhandled.sound, Updates.truthful hhandled.updates hw.truthful,
      Updates.rooted hd hhandled.updates hw.rooted, hhandled.settledBut hd hcalm hw.settled⟩
  -- reclaiming may take records of directories that no name leads to yet
  exact ⟨hfiles, habreast.of_pruned hpruned⟩

end Tracker

end TreeWatch

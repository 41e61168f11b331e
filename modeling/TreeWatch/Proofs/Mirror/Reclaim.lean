import TreeWatch.Proofs.Mirror.Directory
import TreeWatch.Proofs.Tree.Destroy

/-!
# Reclaiming

Reclaiming destroys records that nothing binds. What it leaves is as it was before, names included, and
so it undoes nothing that a scan has put right.

## Main definitions

- `Tree.Idle` : nothing binds a record, and it is not the root
- `Tree.Pruned` : records have gone that nothing bound

## Main results

- `Ledger.pruned_reclaim` : reclaiming prunes
- `Tree.Pruned.settled`, `Tree.Pruned.rooted` : what is in order and left stays in order
-/

namespace TreeWatch

namespace Tree

/-- No name leads to the record, and it is not the root. -/
structure Idle (t : Tree) (i : InodeId) : Prop where
  root_ne : t.root ≠ some i
  child?_ne : ∀ p name, t.child? p name ≠ some i

/-- Records have gone that nothing bound; the others and the names inside them are as before. -/
structure Pruned (t t' : Tree) : Prop where
  sound : t'.Sound
  unchanged : ∀ {i}, t'.identity? i ≠ none →
    t'.identity? i = t.identity? i ∧ ∀ name, t'.child? i name = t.child? i name
  root_eq : t'.root = t.root
  root_kept : ∀ {i}, t.root = some i → t'.identity? i = t.identity? i

variable {t t' t'' : Tree} {i : InodeId}

/-- A record that a name leads to is linked. -/
theorem Sound.not_isUnlinked_of_child? (h : t.Sound) {p : InodeId} {name : Bytes} {r : InodeRecord}
    (hc : t.child? p name = some i) (hr : t.record? i = some r) : ¬r.isUnlinked := by
  obtain ⟨e, he⟩ := h.child?_eq_some_iff.1 hc
  have hlink : r.links.contains e := (h.link_iff hr e).2 ⟨_, he, rfl⟩
  exact fun hunlinked => (r.isUnlinked_iff.1 hunlinked) e hlink

/-- What has no links is idle, unless it is the root. -/
theorem Sound.idle_of_isUnlinked (h : t.Sound) {r : InodeRecord} (hr : t.record? i = some r)
    (hunlinked : r.isUnlinked) (hroot : t.root ≠ some i) : t.Idle i :=
  ⟨hroot, fun _ _ hc => h.not_isUnlinked_of_child? hc hr hunlinked⟩

/-- Waiting records are idle. -/
theorem Sound.idle (h : t.Sound) (hi : t.isOrphan i) : t.Idle i := by
  obtain ⟨hroot, r, hr, hunlinked⟩ := h.waiting hi
  exact h.idle_of_isUnlinked hr hunlinked hroot

theorem Sound.live_of_child?_eq_some (h : t.Sound) {p : InodeId} {name : Bytes}
    (hc : t.child? p name = some i) : t.identity? p ≠ none ∧ t.identity? i ≠ none := by
  obtain ⟨⟨r, hr, -⟩, r', hr'⟩ := h.live_of_child? hc
  constructor
  · rw [Ne, identity?_eq_none_iff, hr]
    exact Option.some_ne_none r
  · rw [Ne, identity?_eq_none_iff, hr']
    exact Option.some_ne_none r'

namespace Pruned

theorem refl (h : t.Sound) : Pruned t t :=
  ⟨h, fun _ => ⟨rfl, fun _ => rfl⟩, rfl, fun _ => rfl⟩

theorem trans (h : Pruned t t') (h' : Pruned t' t'') : Pruned t t'' where
  sound := h'.sound
  unchanged := by
    intro i hi
    obtain ⟨hlast, hnames'⟩ := h'.unchanged hi
    rw [hlast] at hi
    obtain ⟨hfirst, hnames⟩ := h.unchanged hi
    exact ⟨hlast.trans hfirst, fun name => (hnames' name).trans (hnames name)⟩
  root_eq := h'.root_eq.trans h.root_eq
  root_kept := fun hi => (h'.root_kept (h.root_eq.trans hi)).trans (h.root_kept hi)

theorem child?_back (h : Pruned t t') {p : InodeId} {name : Bytes} (hc : t'.child? p name = some i) :
    t.child? p name = some i := by
  have hlive := (h.sound.live_of_child?_eq_some hc).1
  rwa [(h.unchanged hlive).2] at hc

/-- What is idle stays idle. -/
theorem idle (h : Pruned t t') (hi : t.Idle i) : t'.Idle i where
  root_ne := h.root_eq ▸ hi.root_ne
  child?_ne p name hc := hi.child?_ne p name (h.child?_back hc)

end Pruned

end Tree

namespace Ledger

variable {l : Ledger} {clock : Clock} {deadline : Instant} {i : InodeId}

theorem pruned_destroy (h : l.tree.Sound) (hi : l.tree.Idle i) :
    Tree.Pruned l.tree (l.destroy clock i).2.tree := by
  cases hr : l.tree.record? i with
  | none =>
    have hsound := sound_destroy clock i h
    rw [destroy_of_none clock i hr] at hsound ⊢
    exact ⟨hsound, fun _ => ⟨rfl, fun _ => rfl⟩, rfl, fun _ => rfl⟩
  | some r =>
    have hdestroyed := destroyed_destroy clock i h hr
    refine ⟨hdestroyed.sound, fun {j} hj => ?_, ?_, fun {j} hroot => ?_⟩
    · have hne : j ≠ i := by
        rintro rfl
        rw [hdestroyed.identity?_eq, if_pos rfl] at hj
        exact hj rfl
      refine ⟨by rw [hdestroyed.identity?_eq, if_neg hne], fun name => ?_⟩
      have hview := hdestroyed.view_eq h
      have hchild := congrFun (congrFun (congrArg View.child hview) j) name
      rw [View.child_destroy, if_neg hne] at hchild
      rw [Tree.view_child, Tree.view_child] at hchild
      rw [hchild]
      -- no name leads to the record that goes
      cases hc : l.tree.child? j name with
      | none => rfl
      | some c =>
        have hci : c ≠ i := by
          rintro rfl
          exact hi.child?_ne j name hc
        simp [hci]
    · rw [hdestroyed.root_eq, if_neg hi.root_ne]
    · have hne : j ≠ i := by
        rintro rfl
        exact hi.root_ne hroot
      rw [hdestroyed.identity?_eq, if_neg hne]

theorem pruned_destroyAll (h : l.tree.Sound) (inodes : List InodeId)
    (hidle : ∀ i ∈ inodes, l.tree.Idle i) :
    Tree.Pruned l.tree (l.destroyAll clock inodes).2.tree := by
  induction inodes generalizing l with
  | nil => exact .refl h
  | cons i rest ih =>
    have hfirst : Tree.Pruned l.tree (l.destroy clock i).2.tree :=
      pruned_destroy h (hidle i List.mem_cons_self)
    refine hfirst.trans (ih hfirst.sound fun j hj => ?_)
    exact hfirst.idle (hidle j (List.mem_cons_of_mem i hj))

theorem isOrphan_of_mem_expired {t : Tree} (hi : i ∈ expired t deadline) : t.isOrphan i := by
  obtain ⟨⟨j, since⟩, hmem, rfl⟩ := List.mem_map.1 hi
  have hget : t.orphans.get? j = some since :=
    (Assoc.get?_eq_some_iff t.orphans.distinct).2 (List.mem_filter.1 hmem).1
  rw [Tree.isOrphan, OrderedMap.contains, hget]
  rfl

theorem idle_of_mem_expired (h : l.tree.Sound) (hi : i ∈ expired l.tree deadline) :
    l.tree.Idle i :=
  h.idle (isOrphan_of_mem_expired hi)

/-- Where nothing waits, there is nothing to reclaim. -/
theorem reclaim_of_not_isOrphan (h : ∀ i, ¬l.tree.isOrphan i) : l.reclaim clock deadline = (0, l) := by
  have hnone : expired l.tree deadline = [] :=
    List.eq_nil_iff_forall_not_mem.2 fun i hi => h i (isOrphan_of_mem_expired hi)
  have hround : l.destroyAll clock (expired l.tree deadline) = (0, l) := by
    rw [hnone]
    rfl
  rw [reclaim, dif_pos (congrArg Prod.fst hround), hround]

theorem reclaimNow_of_not_isOrphan (h : ∀ i, ¬l.tree.isOrphan i) : l.reclaimNow clock = (0, l.tick) :=
  reclaim_of_not_isOrphan h

theorem pruned_reclaim (h : l.tree.Sound) :
    Tree.Pruned l.tree (l.reclaim clock deadline).2.tree := by
  induction l using Ledger.reclaim.induct clock deadline with
  | case1 l round hlast =>
    rw [Ledger.reclaim, dif_pos hlast]
    exact pruned_destroyAll h _ fun i hi => idle_of_mem_expired h hi
  | case2 l round hlast hless ih =>
    rw [Ledger.reclaim, dif_neg hlast]
    have hround : Tree.Pruned l.tree round.2.tree :=
      pruned_destroyAll h _ fun i hi => idle_of_mem_expired h hi
    exact hround.trans (ih hround.sound)

end Ledger

/-! ### What is left stays in order -/

namespace Tree.Pruned

variable {t t' : Tree} {d : Disk} {i : InodeId} {s : Serial}

theorem holds (h : Pruned t t') (hi : t.view.Holds d i s) (hlive : t'.identity? i ≠ none) :
    t'.view.Holds d i s :=
  (View.holds_congr (h.unchanged hlive).1).2 hi

theorem holds_back (h : Pruned t t') (hi : t'.view.Holds d i s) : t.view.Holds d i s :=
  (View.holds_congr (h.unchanged hi.live).1).1 hi

theorem truthful (h : Pruned t t') (ht : t.view.Truthful d) : t'.view.Truthful d := by
  intro i x hi
  have hlive : t'.identity? i ≠ none := by
    intro hnone
    rw [Tree.view_identity, hnone] at hi
    cases hi
  have hold : t.identity? i = some x := (h.unchanged hlive).1 ▸ hi
  obtain ⟨s, hs⟩ := ht i x hold
  exact ⟨s, h.holds hs hlive⟩

theorem rooted (h : Pruned t t') (ht : t.view.Rooted d) : t'.view.Rooted d := by
  obtain ⟨r, hroot, hr⟩ := ht
  have hkept := h.root_kept hroot
  exact ⟨r, h.root_eq.trans hroot, (View.holds_congr hkept).2 hr⟩

/-- A right name in a record that is left stays right: it leads to a record that is bound. -/
theorem agrees (h : Pruned t t') {name : Bytes} (hi : t'.view.Holds d i s)
    (hname : t.view.Agrees d i s name) : t'.view.Agrees d i s name := by
  have hsame : t'.child? i name = t.child? i name := (h.unchanged hi.live).2 name
  cases hdisk : d.child? s name with
  | none =>
    rw [View.agrees_of_none hdisk]
    exact hsame.trans ((View.agrees_of_none hdisk).1 hname)
  | some c =>
    rw [View.agrees_of_some hdisk]
    obtain ⟨j, hj, hjc⟩ := (View.agrees_of_some hdisk).1 hname
    have hj' : t'.child? i name = some j := hsame.trans hj
    exact ⟨j, hj', h.holds hjc (h.sound.live_of_child?_eq_some hj').2⟩

/-- A directory that is left is settled if it was so before. -/
theorem settled (h : Pruned t t') (ht : t.Sound) (hheld : t'.view.Held d s)
    (hs : t.view.Settled d s) : t'.view.Settled d s := by
  obtain ⟨i, hi⟩ := hheld
  obtain ⟨p, hp, hnames⟩ := hs
  obtain rfl := ht.eq_of_holds (h.holds_back hi) hp
  exact ⟨i, hi, fun name => h.agrees hi (hnames name)⟩

theorem current (h : Pruned t t') (ht : t.Sound) (hi : t'.view.Holds d i s)
    (hs : ∃ j, t.view.Current d j s) : t'.view.Current d i s := by
  obtain ⟨j, a, ha, hj⟩ := hs
  have hcurrent : t.view.Current d j s := ⟨a, ha, hj⟩
  obtain rfl := ht.eq_of_holds (h.holds_back hi) hcurrent.holds
  exact ⟨a, ha, ((h.unchanged hi.live).1).trans hj⟩

end Tree.Pruned

namespace Tracker

variable {σ ε : Type} {w : Tracker σ} {good : Prop}

theorem does_reclaimNow (hsound : w.tree.Sound) :
    Does (reclaimNow : Track σ ε Nat) w good fun _ w' =>
      w'.files = w.files ∧ Tree.Pruned w.tree w'.tree := by
  intro _
  rw [reclaimNow, run_editGet]
  exact ⟨rfl, Ledger.pruned_reclaim (l := w.ledger.tick) hsound⟩

end Tracker

end TreeWatch

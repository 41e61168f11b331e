import TreeWatch.Proofs.Garbage.Circle
import TreeWatch.Proofs.Mirror.Survey
import TreeWatch.Proofs.Tree.Thinned

/-!
# Reclaiming as garbage collection

Where every record that nothing binds waits, and no record is above itself, reclaiming without a grace
window leaves exactly what can be reached from the root, and leaves it as it was.

## Main definitions

- `Ledger.Rounds` : records are destroyed round by round until none has waited long enough
- `Ledger.Collected` : what cannot be reached has gone, and nothing else has changed

## Main results

- `Ledger.rounds_reclaim` : there is a last round
- `Ledger.reclaim_collects` : what the rounds leave

## Design notes

A record is destroyed when it has no entries, so an object with several names goes with the last directory
that binds it. What is left cannot be told from counting entries where records bind each other in a circle.
-/

namespace TreeWatch

open Relation (ReflTransGen TransGen)

namespace Ledger

open TreeWatch.Tree

variable {l l' l'' : Ledger} {n n' : Nat} {clock : Clock} {deadline : Instant} {i : InodeId} {e : EntryId}
  {b : DirectoryEntry}

/-- Records are destroyed round by round, in each round all whose grace window has passed at `deadline`,
until there are none of them. The number of records is counted. -/
inductive Rounds (clock : Clock) (deadline : Instant) : Ledger → Nat → Ledger → Prop
  | done {l : Ledger} : expired l.tree deadline = [] → Rounds clock deadline l 0 l
  | round {l l' : Ledger} {n : Nat} : expired l.tree deadline ≠ [] →
    Rounds clock deadline (l.destroyAll clock (expired l.tree deadline)).2 n l' →
      Rounds clock deadline l ((l.destroyAll clock (expired l.tree deadline)).1 + n) l'

/-- Some round is the last. -/
theorem rounds_reclaim (h : l.tree.Sound) (clock : Clock) (deadline : Instant) :
    Rounds clock deadline l (l.reclaim clock deadline).1 (l.reclaim clock deadline).2 := by
  induction l using Ledger.reclaim.induct clock deadline with
  | case1 l round hlast =>
    have hnone := expired_eq_nil_of_round h hlast
    have hround : round = (0, l) := congrArg (l.destroyAll clock) hnone
    rw [Ledger.reclaim, dif_pos hlast]
    show Rounds clock deadline l round.1 round.2
    rw [hround]
    exact .done hnone
  | case2 l round hlast hless ih =>
    rw [Ledger.reclaim, dif_neg hlast]
    refine .round (fun hnone => hlast ?_) (ih (sound_destroyAll h _))
    exact congrArg Prod.fst (congrArg (l.destroyAll clock) hnone)

/-! ### How many records go -/

/-- The number of records that have gone. -/
def Counts (n : Nat) (l l' : Ledger) : Prop :=
  ∃ gone : Finset InodeId, (∀ i, i ∈ gone ↔ l.tree.isLive i ∧ ¬l'.tree.isLive i) ∧ gone.card = n

theorem Counts.of_eq (h : ∀ i, l'.tree.isLive i = l.tree.isLive i) : Counts 0 l l' := by
  refine ⟨∅, fun i => ?_, rfl⟩
  rw [h]
  simp

theorem Counts.trans (h : Counts n l l') (h' : Counts n' l' l'') (hback : ∀ i, l'.tree.isLive i → l.tree.isLive i)
    (hback' : ∀ i, l''.tree.isLive i → l'.tree.isLive i) : Counts (n + n') l l'' := by
  obtain ⟨gone, hgone, rfl⟩ := h
  obtain ⟨gone', hgone', rfl⟩ := h'
  refine ⟨gone ∪ gone', fun i => ?_, Finset.card_union_of_disjoint ?_⟩
  · rw [Finset.mem_union, hgone, hgone']
    by_cases hmid : l'.tree.isLive i
    · simp [hmid, hback i hmid]
    · have hlast : ¬l''.tree.isLive i := mt (hback' i) hmid
      simp [hmid, hlast]
  · refine Finset.disjoint_left.2 fun i hi hi' => ?_
    exact ((hgone i).1 hi).2 ((hgone' i).1 hi').1

theorem counts_destroy (h : l.tree.Sound) (clock : Clock) (i : InodeId) :
    Counts (if (l.destroy clock i).1 then 1 else 0) l (l.destroy clock i).2 := by
  cases hr : l.tree.record? i with
  | none =>
    rw [destroy_of_none clock i hr]
    exact .of_eq fun _ => rfl
  | some r =>
    rw [fst_destroy h hr]
    refine ⟨{i}, fun j => ?_, rfl⟩
    rw [Finset.mem_singleton, isLive_destroy]
    constructor
    · rintro rfl
      exact ⟨isLive_iff.2 ⟨r, hr⟩, fun hboth => hboth.1 rfl⟩
    · exact fun ⟨hlive, hgone⟩ => by_contra fun hne => hgone ⟨hne, hlive⟩

theorem counts_destroyAll (h : l.tree.Sound) (clock : Clock) (inodes : List InodeId) :
    Counts (l.destroyAll clock inodes).1 l (l.destroyAll clock inodes).2 := by
  induction inodes generalizing l with
  | nil => exact .of_eq fun _ => rfl
  | cons i rest ih =>
    have hsound := sound_destroy clock i h
    have hfirst : Trimmed clock l (l.destroy clock i).2 := trimmed_destroy (h.formed rfl rfl rfl) i
    have hrest : Trimmed clock (l.destroy clock i).2 ((l.destroy clock i).2.destroyAll clock rest).2 :=
      trimmed_destroyAll hfirst.formed rest
    exact (counts_destroy h clock i).trans (ih hsound) (fun _ => hfirst.live_back)
      fun _ => hrest.live_back

theorem counts_reclaim (h : l.tree.Sound) (clock : Clock) (deadline : Instant) :
    Counts (l.reclaim clock deadline).1 l (l.reclaim clock deadline).2 := by
  induction l using Ledger.reclaim.induct clock deadline with
  | case1 l round hlast =>
    rw [Ledger.reclaim, dif_pos hlast]
    exact counts_destroyAll h clock _
  | case2 l round hlast hless ih =>
    rw [Ledger.reclaim, dif_neg hlast]
    have hsound : round.2.tree.Sound := sound_destroyAll h _
    have hround : Trimmed clock l round.2 := trimmed_destroyAll (h.formed rfl rfl rfl) _
    have hlater : Trimmed clock round.2 (round.2.reclaim clock deadline).2 :=
      trimmed_reclaim hround.formed deadline
    exact (counts_destroyAll h clock _).trans (ih hsound) (fun _ => hround.live_back)
      fun _ => hlater.live_back

/-! ### What is left -/

/-- Exactly what cannot be reached from the root has gone, and the rest is as it was. -/
structure Collected (l : Ledger) (n : Nat) (l' : Ledger) : Prop where
  live_iff : ∀ i, l'.tree.isLive i ↔ l.tree.Reachable i
  /-- A record has lost only entries by which it was bound: it has the same names inside, in the same
  order. -/
  record?_eq : ∀ i, l.tree.Reachable i → l'.tree.record? i =
    (l.tree.record? i).map fun r => { r with links := SortedSet.filter r.links l'.tree.holds }
  entryOf?_eq_some_iff : ∀ e b,
    l'.tree.entryOf? e = some b ↔ l.tree.entryOf? e = some b ∧ l.tree.Reachable b.parent
  lookupIno_eq_some_iff : ∀ ino i,
    l'.tree.lookupIno ino = some i ↔ l.tree.lookupIno ino = some i ∧ l.tree.Reachable i
  root_eq : l'.tree.root = l.tree.root
  orphans_eq : l'.tree.orphans = .empty
  counts : Counts n l l'
  reported : Reported l l'

/-- What is left can be reached if nothing leads in a circle and nothing unbound is left over. -/
theorem reachable_of_live {t : Tree} (h : t.Sound) (hacyclic : ∀ i, ¬TransGen t.Inside i i)
    (hnone : ∀ i, ¬t.isOrphan i ∧ ¬t.Stray i) (hi : t.isLive i) : t.Reachable i := by
  rcases h.attached_or_circled (isLive_iff_identity?.1 hi) with hreach | ⟨j, hj, -⟩ | ⟨j, hj, -⟩
  · exact hreach
  · exact absurd hj (hacyclic j)
  · exact absurd hj (not_or.2 (hnone j))

/-- An entry stays with the directory that it is inside. -/
theorem entryOf?_of_pruned {t t' : Tree} (h : t.Sound) (hpruned : t.Pruned t')
    (hback : ∀ {e b}, t'.entryOf? e = some b → t.entryOf? e = some b) (hb : t.entryOf? e = some b)
    (hparent : t'.isLive b.parent) : t'.entryOf? e = some b := by
  have hchild : t.child? b.parent b.name = some b.child := h.child?_eq_some_iff.2 ⟨e, hb⟩
  rw [← (hpruned.unchanged (isLive_iff_identity?.1 hparent)).2] at hchild
  obtain ⟨e', he'⟩ := hpruned.sound.child?_eq_some_iff.1 hchild
  obtain rfl := h.eq_of_name_eq (hback he') hb rfl rfl
  exact he'

/-- A record has its number as long as it is there. -/
theorem lookupIno_of_pruned {t t' : Tree} (h : t.Sound) (hpruned : t.Pruned t') (ino : UInt64)
    (i : InodeId) : t'.lookupIno ino = some i ↔ t.lookupIno ino = some i ∧ t'.isLive i := by
  rw [hpruned.sound.lookupIno_eq_some_iff, h.lookupIno_eq_some_iff, isLive_iff_identity?]
  constructor
  · rintro ⟨x, hx, hino⟩
    have hleft : t'.identity? i ≠ none := Option.ne_none_iff_exists'.2 ⟨x, hx⟩
    exact ⟨⟨x, (hpruned.unchanged hleft).1.symm.trans hx, hino⟩, hleft⟩
  · rintro ⟨⟨x, hx, hino⟩, hleft⟩
    exact ⟨x, (hpruned.unchanged hleft).1.trans hx, hino⟩

/-- Taking away entries does not make a circle. -/
theorem not_circled_of_pruned {t t' : Tree} (h : t.Sound) (hpruned : t.Pruned t')
    (hback : ∀ {e b}, t'.entryOf? e = some b → t.entryOf? e = some b)
    (hacyclic : ∀ i, ¬TransGen t.Inside i i) (i : InodeId) : ¬TransGen t'.Inside i i := by
  refine fun hi => hacyclic i (TransGen.mono (fun p c hpc => ?_) _ _ hi)
  obtain ⟨name, hname⟩ := hpc
  obtain ⟨e, he⟩ := hpruned.sound.child?_eq_some_iff.1 hname
  exact ⟨name, h.child?_eq_some_iff.2 ⟨e, hback he⟩⟩

/-- Reclaiming leaves no stray if all records that nothing binds waited. -/
theorem not_stray_reclaim (h : l.tree.Sound)
    (hwaiting : ∀ i, l.tree.root ≠ some i → (∃ r, l.tree.record? i = some r ∧ r.isUnlinked) →
      l.tree.isOrphan i) (i : InodeId) : ¬(l.reclaim clock deadline).2.tree.Stray i := by
  intro hi
  have hbefore := stray_reclaim h hi
  have hwaits := hwaiting i hbefore.root_ne (h.exists_unlinked hbefore)
  rw [hbefore.not_waiting] at hwaits
  cases hwaits

theorem orphans_eq_empty {t : Tree} (h : ∀ i, t.isOrphan i = false) : t.orphans = .empty := by
  refine OrderedMap.ext (List.eq_nil_iff_forall_not_mem.2 fun q hq => ?_)
  have hwaits := h q.1
  rw [isOrphan, OrderedMap.contains, OrderedMap.get?_eq_some_iff.2 hq] at hwaits
  cases hwaits

/-- What is left of a tree is what could be reached, if nothing that is left leads in a circle or is left
over. -/
theorem live_iff_reachable {t t' : Tree} (h : t.Sound) (hpruned : t.Pruned t')
    (hroot : ∀ r, t.root = some r → t.isLive r) (hacyclic : ∀ i, ¬TransGen t'.Inside i i)
    (hnone : ∀ i, ¬t'.isOrphan i ∧ ¬t'.Stray i) (i : InodeId) : t'.isLive i ↔ t.Reachable i := by
  constructor
  · exact fun hi => hpruned.reachable_back (reachable_of_live hpruned.sound hacyclic hnone hi)
  · intro hi
    rw [isLive_iff_identity?, hpruned.identity?_of_reachable h hi, ← isLive_iff_identity?]
    exact h.live_of_reachable hroot hi

/-- Records and entries have gone, and those are left that could be reached. -/
theorem collected_of_pruned (h : l.tree.Sound) (hpruned : l.tree.Pruned l'.tree)
    (htrimmed : Trimmed clock l l') (hlive : ∀ i, l'.tree.isLive i ↔ l.tree.Reachable i)
    (horphan : ∀ i, l'.tree.isOrphan i = false) (hcounts : Counts n l l') : Collected l n l' := by
  have hentry : ∀ e b, l'.tree.entryOf? e = some b ↔
      l.tree.entryOf? e = some b ∧ l.tree.Reachable b.parent := by
    intro e b
    rw [← hlive]
    constructor
    · exact fun he => ⟨htrimmed.entry he, isLive_iff.2 (hpruned.sound.parent_live he)⟩
    · exact fun ⟨he, hparent⟩ => entryOf?_of_pruned h hpruned htrimmed.entry he hparent
  refine ⟨hlive, fun i hi => ?_, hentry, fun ino i => ?_, hpruned.root_eq, orphans_eq_empty horphan,
    hcounts, htrimmed.reported⟩
  · obtain ⟨r', hr'⟩ := isLive_iff.1 ((hlive i).2 hi)
    obtain ⟨r, hr, rfl⟩ := htrimmed.record hr'
    rw [hr', hr, Option.map_some, InodeRecord.restrict_of_children]
    intro name e he
    obtain ⟨b, hb, rfl, -⟩ := (h.child_iff hr name e).1 he
    exact holds_iff.2 ⟨b, (hentry e b).2 ⟨hb, hi⟩⟩
  · rw [lookupIno_of_pruned h hpruned, hlive]

/-- Reclaiming comes to an end. It has collected then what cannot be reached from the root, if the records
that wait are exactly those that nothing binds, but for the root, and no record is above itself. -/
theorem reclaim_collects (h : l.tree.Formed) (hroot : ∃ i, l.tree.root = some i ∧ l.tree.isLive i)
    (hwaiting : ∀ i, l.tree.isOrphan i ↔
      l.tree.root ≠ some i ∧ ∃ r, l.tree.record? i = some r ∧ r.isUnlinked)
    (hacyclic : ∀ i, ¬TransGen l.tree.Inside i i) (hgrace : l.tree.grace = 0)
    (clock : Clock) (deadline : Instant) :
    Rounds clock deadline l (l.reclaim clock deadline).1 (l.reclaim clock deadline).2 ∧
      Collected l (l.reclaim clock deadline).1 (l.reclaim clock deadline).2 := by
  have hsound : l.tree.Sound :=
    { toConsistent := h.toConsistent
      inodes_wellFormed := h.inodes_wellFormed
      entries_wellFormed := h.entries_wellFormed
      waiting := fun hi => (hwaiting _).1 hi }
  have hpruned : l.tree.Pruned (l.reclaim clock deadline).2.tree := pruned_reclaim hsound
  have htrimmed : Trimmed clock l (l.reclaim clock deadline).2 := trimmed_reclaim h deadline
  have horphan : ∀ i, (l.reclaim clock deadline).2.tree.isOrphan i = false :=
    fun i => isOrphan_reclaim hsound hgrace
  have hstray : ∀ i, ¬(l.reclaim clock deadline).2.tree.Stray i :=
    not_stray_reclaim hsound fun i hne hr => (hwaiting i).2 ⟨hne, hr⟩
  have hlive : ∀ i, (l.reclaim clock deadline).2.tree.isLive i ↔ l.tree.Reachable i := by
    refine live_iff_reachable hsound hpruned (fun r hr => ?_)
      (not_circled_of_pruned hsound hpruned htrimmed.entry hacyclic) fun i => ⟨?_, hstray i⟩
    · obtain ⟨r', hr', hlive⟩ := hroot
      rw [hr] at hr'
      cases hr'
      exact hlive
    · rw [horphan]
      exact Bool.false_ne_true
  exact ⟨rounds_reclaim hsound clock deadline,
    collected_of_pruned hsound hpruned htrimmed hlive horphan (counts_reclaim hsound clock deadline)⟩

end Ledger

/-! ### A directory that has lost its name -/

/-- Nothing leads in a circle if every entry leads from a lower place to a higher one. -/
theorem Tree.Consistent.not_circled {t : Tree} (h : t.Consistent) (fits : t.Fits)
    (place : InodeId → Nat) (hplace : ∀ p ∈ t.entries.toList, place p.2.parent < place p.2.child)
    (i : InodeId) : ¬TransGen t.Inside i i := by
  have hinside : ∀ {p c}, t.Inside p c → place p < place c := by
    rintro p c ⟨name, hname⟩
    obtain ⟨e, he⟩ := h.child?_eq_some_iff.1 hname
    exact hplace (e.index, ⟨p, c, name⟩) ((Arena.mem_toList fits.entries).2 he)
  have hway : ∀ {j}, TransGen t.Inside i j → place i < place j := by
    intro j hj
    induction hj with
    | single hlast => exact hinside hlast
    | tail _ hlast ih => exact ih.trans (hinside hlast)
  exact fun hi => Nat.lt_irrefl _ (hway hi)

namespace Tracker

/-- A directory with another one inside, in which there is a file that has a name outside as well. -/
def planted : Disk :=
  [Disk.Operation.mkdir (.ofString "/a"), .mkdir (.ofString "/a/b"), .create (.ofString "/a/b/f"),
    .link (.ofString "/a/b/f") (.ofString "/g"), .create (.ofString "/a/h")].foldl Disk.perform .empty

/-- The same without the directories. -/
def felled : Disk :=
  [Disk.Operation.remove (.ofString "/a/b/f"), .remove (.ofString "/a/b"), .remove (.ofString "/a/h"),
    .remove (.ofString "/a")].foldl Disk.perform planted

/-- A tracker that has seen all this and has scanned the root alone since. -/
def sawRoot : Tracker Disk :=
  (Call.scan Disk.rootSerial false).after Disk.filesystem false
    { (Call.rescanRoots.after Disk.filesystem false ⟨planted, {}, fun _ => 0, { tree := {} }⟩) with
      files := felled
      clock := fun _ => 1 }

theorem sound_sawRoot : sawRoot.tree.Sound := by
  have hreached : ReachedAnyhow Disk.filesystem sawRoot :=
    .call false _ (.elsewhere (.call false .rescanRoots (.start trivial)) trivial)
  exact hreached.sound (by decide +kernel)

/-- Only the directory waits. It is reclaimed with the directory inside and the file `h`, and the file `f`
keeps its other name. -/
theorem reclaim_collects_sawRoot :
    sawRoot.tree.Formed ∧ (∃ i, sawRoot.tree.root = some i ∧ sawRoot.tree.isLive i) ∧
      (∀ i, sawRoot.tree.isOrphan i ↔
        sawRoot.tree.root ≠ some i ∧ ∃ r, sawRoot.tree.record? i = some r ∧ r.isUnlinked) ∧
      (∀ i, ¬TransGen sawRoot.tree.Inside i i) ∧ sawRoot.tree.grace = 0 ∧
      Ledger.Rounds (fun n => n) 2 sawRoot.ledger 3 (sawRoot.ledger.reclaim (fun n => n) 2).2 ∧
      Ledger.Collected sawRoot.ledger 3 (sawRoot.ledger.reclaim (fun n => n) 2).2 := by
  have fits : sawRoot.tree.Fits := by decide +kernel
  have hformed : sawRoot.tree.Formed := sound_sawRoot.formed rfl rfl rfl
  have hroot : sawRoot.tree.root = some ⟨⟨0, 0⟩⟩ ∧ sawRoot.tree.isLive ⟨⟨0, 0⟩⟩ := by decide +kernel
  have hunlinked : ∀ p ∈ sawRoot.tree.inodes.toList, p.2.isUnlinked →
      sawRoot.tree.root ≠ some ⟨p.1⟩ → sawRoot.tree.isOrphan ⟨p.1⟩ := by decide +kernel
  have hwaiting : ∀ i, sawRoot.tree.isOrphan i ↔
      sawRoot.tree.root ≠ some i ∧ ∃ r, sawRoot.tree.record? i = some r ∧ r.isUnlinked := by
    refine fun i => ⟨sound_sawRoot.waiting, ?_⟩
    rintro ⟨hne, r, hr, hbound⟩
    exact hunlinked (i.index, r) ((Arena.mem_toList fits.inodes).2 hr) hbound hne
  have hacyclic : ∀ i, ¬TransGen sawRoot.tree.Inside i i :=
    hformed.not_circled fits (fun i => i.index.slot.toNat) (by decide +kernel)
  have hgrace : sawRoot.tree.grace = 0 := by decide +kernel
  have hcount : (sawRoot.ledger.reclaim (fun n => n) 2).1 = 3 := by decide +kernel
  have hcollects := Ledger.reclaim_collects hformed ⟨_, hroot⟩ hwaiting hacyclic hgrace
    (fun n => n) 2
  rw [hcount] at hcollects
  exact ⟨hformed, ⟨_, hroot⟩, hwaiting, hacyclic, hgrace, hcollects⟩

end Tracker

end TreeWatch

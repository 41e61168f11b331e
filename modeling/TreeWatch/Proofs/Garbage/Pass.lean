import TreeWatch.Proofs.Garbage.Queue
import TreeWatch.Proofs.Tree.Thinned

/-!
# Reclaim passes, moment by moment

The clock is looked at once when a reclaim pass begins, and again each time that an entry goes. The pass is
taken apart here: entries and records go one after another. What was not due when the pass began does not
go, unless there is no grace window.

## Main definitions

- `Ledger.Losing` : the moments of a ledger while entries and records go
- `Ledger.Pass` : the moments of a reclaim pass

## Main results

- `Ledger.loses_destroy`, `Ledger.loses_reclaim` : destroying records is a sequence of losses
- `Ledger.due_of_reclaimed` : what goes in a pass was due, or lost its last entry in the pass
- `Ledger.exists_pass` : the moments of a pass
-/

namespace TreeWatch

namespace Tree

variable {t : Tree} {i : InodeId}

/-- What is not in the tree need not be forgotten. -/
theorem Sound.erase_orphans (h : t.Sound) (hi : t.record? i = none) : t.orphans.erase i = t.orphans := by
  refine OrderedMap.ext (List.filter_eq_self.2 fun p hp => decide_eq_true ?_)
  rintro rfl
  obtain ⟨-, r, hr, -⟩ := h.waiting (isOrphan_of_waitsSince? (OrderedMap.get?_eq_some_iff.2 hp))
  cases hi.symm.trans hr

end Tree

namespace Ledger

open TreeWatch.Tree Relation

variable {clock : Clock} {l l' : Ledger} {i : InodeId} {deadline : Instant}

/-! ### Changes taken apart -/

theorem loses_detach (l : Ledger) (clock : Clock) (i : InodeId) (e : EntryId) :
    Loses clock l (detach clock i l e) := by
  unfold detach
  split
  · next hremove => exact .unbind hremove
  · exact .note _

theorem loses_foldl_detach (l : Ledger) (clock : Clock) (i : InodeId) (entries : List EntryId) :
    ReflTransGen (Loses clock) l (entries.foldl (detach clock i) l) := by
  induction entries generalizing l with
  | nil => exact .refl
  | cons e rest ih => exact .head (loses_detach l clock i e) (ih _)

/-- The entries of the record go first, and then the record. -/
theorem loses_destroy (h : l.tree.Sound) (clock : Clock) (i : InodeId) :
    ReflTransGen (Loses clock) l (l.destroy clock i).2 := by
  cases hr : l.tree.record? i with
  | none =>
    rw [destroy_of_none clock i hr, h.erase_orphans hr]
  | some r =>
    have hlive := isLive_foldl_detach clock i l (r.links.elements ++ r.childList.map Prod.snd) i
    obtain ⟨r', hr'⟩ := isLive_iff.1 (hlive.trans (isLive_iff.2 ⟨r, hr⟩))
    rw [snd_destroy clock i hr]
    refine (loses_foldl_detach l clock i _).tail (.drop hr' fun e b hb => ?_)
    exact ((entryOf?_foldl_detach_doomed clock i h hr e b).1 hb).2

theorem loses_invalidate (h : l.tree.Sound) (clock : Clock) (i : InodeId) :
    ReflTransGen (Loses clock) l (l.invalidate clock i) := by
  have hdestroyed := loses_destroy h clock i
  unfold invalidate
  generalize l.destroy clock i = outcome at hdestroyed ⊢
  obtain ⟨destroyed, l'⟩ := outcome
  cases destroyed
  · exact hdestroyed
  · exact hdestroyed.tail (.note _)

theorem loses_destroyAll (h : l.tree.Sound) (clock : Clock) (inodes : List InodeId) :
    ReflTransGen (Loses clock) l (l.destroyAll clock inodes).2 := by
  induction inodes generalizing l with
  | nil => exact .refl
  | cons i rest ih => exact (loses_destroy h clock i).trans (ih (sound_destroy clock i h))

theorem loses_reclaim (h : l.tree.Sound) (clock : Clock) (deadline : Instant) :
    ReflTransGen (Loses clock) l (l.reclaim clock deadline).2 := by
  have hkept : (l.reclaim clock deadline).2.tree.Sound ∧
      ReflTransGen (Loses clock) l (l.reclaim clock deadline).2 :=
    keep_reclaim (P := fun l' => l'.tree.Sound ∧ ReflTransGen (Loses clock) l l')
      (fun l' i hl' => ⟨sound_destroy clock i hl'.1, hl'.2.trans (loses_destroy hl'.1 clock i)⟩)
      deadline ⟨h, .refl⟩
  exact hkept.2

/-! ### What is lost -/

/-- No record goes that is bound. -/
theorem Loses.loose_of_gone (h : Loses clock l l') (hsound : l.tree.Sound) (hi : l.tree.isLive i)
    (hgone : ¬l'.tree.isLive i) : l.tree.Loose i := by
  refine ⟨isLive_iff_identity?.1 hi, ?_⟩
  rw [isLive_iff_identity?] at hi hgone
  cases h with
  | note event => exact absurd hi hgone
  | unbind hremove =>
    obtain ⟨t, o, htree, rfl⟩ := removeEntry_eq_ok hremove
    exact absurd hi ((hsound.removeEntry htree).identity?_eq i ▸ hgone)
  | @drop j r hr hends =>
    rintro ⟨e, b, hb, rfl⟩
    refine hgone ?_
    rwa [identity?, record?_dropRecord, if_neg (hends e b hb).2]

/-- An entry goes only at a reading of the clock. -/
theorem Loses.reads_of_unbound (h : Loses clock l l') (hbound : l.tree.Bound i) (hnot : ¬l'.tree.Bound i) :
    l'.reads = l.reads + 1 := by
  cases h with
  | note event => exact absurd hbound hnot
  | unbind hremove =>
    obtain ⟨t, o, -, rfl⟩ := removeEntry_eq_ok hremove
    rfl
  | drop _ _ =>
    refine absurd ?_ hnot
    simpa only [Tree.Bound, entryOf?_dropRecord] using hbound

theorem Loses.reads_le (h : Loses clock l l') : l.reads ≤ l'.reads :=
  Step.reads_le (.lose h)

theorem reads_le_of_loses (h : ReflTransGen (Loses clock) l l') : l.reads ≤ l'.reads := by
  induction h with
  | refl => exact Nat.le_refl _
  | tail _ hlast ih => exact Nat.le_trans ih hlast.reads_le

/-- Losses one after another shed entries and records. All readings of the clock are among the `times`. -/
theorem shed_of_loses (h : ReflTransGen (Loses clock) l l') (hsound : l.tree.Sound) {times : Set Instant}
    (htimes : ∀ k, l.reads ≤ k → clock k ∈ times) : Shed times l.tree l'.tree := by
  induction h with
  | refl => exact .refl hsound
  | tail hfirst hlast ih =>
    obtain ⟨times', hshed, hread⟩ := hlast.exists_shed ih.sound
    refine ih.trans (hshed.mono fun s hs => ?_)
    rw [(hread s hs).1]
    exact htimes _ (reads_le_of_loses hfirst)

/-- Losses one after another, whenever they were. -/
theorem shed_of_loses_univ (h : ReflTransGen (Loses clock) l l') (hsound : l.tree.Sound) :
    Shed Set.univ l.tree l'.tree :=
  shed_of_loses h hsound fun _ _ => trivial

theorem live_of_loses (h : ReflTransGen (Loses clock) l l') (hsound : l.tree.Sound)
    (hi : l'.tree.isLive i) : l.tree.isLive i :=
  isLive_iff_identity?.2 ((shed_of_loses_univ h hsound).live_back (isLive_iff_identity?.1 hi))

/-! ### What goes in a pass -/

theorem isLive_destroyAll (l : Ledger) (clock : Clock) (inodes : List InodeId) (i : InodeId) :
    (l.destroyAll clock inodes).2.tree.isLive i ↔ i ∉ inodes ∧ l.tree.isLive i := by
  induction inodes generalizing l with
  | nil => simp [destroyAll]
  | cons j rest ih =>
    rw [destroyAll, ih, isLive_destroy, List.mem_cons, not_or, and_left_comm, and_assoc, and_left_comm]

/-- What goes had waited long enough at the `deadline`. If there is no grace window, it may have lost its
last entry since. -/
theorem due_of_reclaimed (h : l.tree.Sound) (hlater : ∀ k, l.reads ≤ k → deadline ≤ clock k)
    (hi : l.tree.isLive i) (hgone : ¬(l.reclaim clock deadline).2.tree.isLive i) :
    (∃ s, l.tree.waitsSince? i = some s ∧ l.tree.grace ≤ Instant.since deadline s) ∨
      l.tree.grace = 0 ∧ l.tree.Bound i := by
  have hexpired : ∀ {l : Ledger}, l.tree.isLive i →
      ¬(l.destroyAll clock (expired l.tree deadline)).2.tree.isLive i → i ∈ expired l.tree deadline := by
    intro l hi hgone
    rw [isLive_destroyAll, not_and] at hgone
    exact by_contra fun hnot => hgone hnot hi
  induction l using Ledger.reclaim.induct clock deadline with
  | case1 l round hlast =>
    rw [Ledger.reclaim, dif_pos hlast] at hgone
    exact .inl (mem_expired.1 (hexpired hi hgone))
  | case2 l round hlast hless ih =>
    rw [Ledger.reclaim, dif_neg hlast] at hgone
    by_cases hround : round.2.tree.isLive i
    · have hloses := loses_destroyAll h clock (expired l.tree deadline)
      have hshed : Shed {s | deadline ≤ s} l.tree round.2.tree := shed_of_loses hloses h hlater
      have hreads : l.reads ≤ round.2.reads := reads_le_of_loses hloses
      -- what has begun to wait in this round did so after the deadline
      rcases ih hshed.sound (fun k hk => hlater k (Nat.le_trans hreads hk)) hround hgone with
        ⟨s, hs, hlong⟩ | ⟨hzero, hbound⟩
      · rw [hshed.grace_eq] at hlong
        rcases hshed.began hs with hold | ⟨hlate, hbound⟩
        · exact .inl ⟨s, hold, hlong⟩
        · have hsince : Instant.since deadline s = 0 := Int.toNat_of_nonpos (Int.sub_nonpos_of_le hlate)
          rw [hsince] at hlong
          exact .inr ⟨Nat.le_zero.1 hlong, hbound⟩
      · exact .inr ⟨hshed.grace_eq ▸ hzero, hshed.bound_back hbound⟩
    · exact .inl (mem_expired.1 (hexpired hi hround))

/-- Records go only where one makes way at once, and in reclaim passes. Whatever else is done is one
step. -/
theorem Edit.step_or (h : Edit {} clock l l') (hsound : l.tree.Sound) (fits : l'.tree.Fits) :
    (Step clock l l' ∧ ∀ i, l.tree.isLive i → l'.tree.isLive i) ∨
      (∃ old attributes token, l.tree.lookupIno attributes.ino = some old ∧
        l' = ((l.invalidate clock old).insertRecord attributes token).2) ∨
      l' = (l.reclaimNow clock).2 := by
  cases h with
  | note event => exact .inl ⟨.lose (.note event), fun _ => id⟩
  | insert _ hino =>
    refine .inl ⟨.insert hino, fun i hi => ?_⟩
    rw [tree_insertRecord] at fits ⊢
    exact (isLive_insertRecord hsound.inodes_wellFormed fits).2 (.inr hi)
  | replace _ hold _ => exact .inr (.inl ⟨_, _, _, hold, rfl⟩)
  | refresh => exact .inl ⟨.refresh, fun i => (isLive_modifyRecord _ _).2⟩
  | bind _ hadd =>
    refine .inl ⟨.bind hadd, fun i hi => ?_⟩
    obtain ⟨t, o, htree, rfl⟩ := addEntry_eq_ok hadd
    obtain ⟨-, -, -, rfl⟩ := Tree.addEntry_eq_ok htree
    rw [Tree.isLive_iff] at hi ⊢
    exact exists_record?_withEntry_iff.2 hi
  | unbind hremove =>
    refine .inl ⟨.lose (.unbind hremove), fun i hi => ?_⟩
    obtain ⟨t, o, htree, rfl⟩ := removeEntry_eq_ok hremove
    rw [isLive_iff_identity?] at hi ⊢
    rwa [(hsound.removeEntry htree).identity?_eq]
  | @wait j =>
    refine .inl ⟨.wait, fun i hi => ?_⟩
    rw [isLive_iff_identity?] at hi ⊢
    rwa [← view_identity, show (l.orphanIfUnlinked j clock).tree.view = l.tree.view from
      view_orphanIfUnlinked ..]
  | root _ => exact .inl ⟨.root, fun _ => id⟩
  | reclaim => exact .inr (.inr rfl)

/-! ### Moments -/

/-- The moments of a ledger while entries and records go, the latest first. -/
inductive Losing (clock : Clock) (l : Ledger) : List Ledger → Prop
  | start : Losing clock l [l]
  | lose {m m' : Ledger} {during : List Ledger} :
    Losing clock l (m :: during) → Loses clock m m' → Losing clock l (m' :: m :: during)

/-- The moments of a reclaim pass, the latest first. The clock has just been looked at when it begins. -/
structure Pass (clock : Clock) (l : Ledger) (during : List Ledger) : Prop where
  losing : Losing clock l.tick during
  last : during.head? = some (l.reclaimNow clock).2

theorem exists_losing (h : ReflTransGen (Loses clock) l l') :
    ∃ during, Losing clock l (l' :: during) := by
  induction h with
  | refl => exact ⟨[], .start⟩
  | tail _ hlast ih =>
    obtain ⟨during, hlosing⟩ := ih
    exact ⟨_, hlosing.lose hlast⟩

/-- Every pass can be told moment by moment. -/
theorem exists_pass (h : l.tree.Sound) (clock : Clock) :
    ∃ during, Pass clock l during := by
  obtain ⟨during, hlosing⟩ := exists_losing (loses_reclaim (l := l.tick) h clock (clock l.reads))
  exact ⟨_, hlosing, rfl⟩

theorem Pass.head?_append {during : List Ledger} (h : Pass clock l during) (past : List Ledger) :
    (during ++ past).head? = some (l.reclaimNow clock).2 := by
  rw [List.head?_append, h.last, Option.some_or]

theorem Losing.loses {during : List Ledger} (h : Losing clock l (l' :: during)) :
    ReflTransGen (Loses clock) l l' := by
  generalize hall : l' :: during = all at h
  induction h generalizing l' during with
  | start =>
    cases hall
    exact .refl
  | lose _ hlast ih =>
    cases hall
    exact (ih rfl).tail hlast

/-- Of two moments one after the other the first can be reached from the beginning, and the end from the
second. -/
theorem Losing.split {later before : List Ledger} {m prev last : Ledger}
    (h : Losing clock l (later ++ m :: prev :: before))
    (hlast : (later ++ m :: prev :: before).head? = some last) :
    Losing clock l (prev :: before) ∧ Loses clock prev m ∧ ReflTransGen (Loses clock) m last := by
  induction later generalizing last with
  | nil =>
    cases hlast
    cases h with
    | lose hbefore hloses => exact ⟨hbefore, hloses, .refl⟩
  | cons x later ih =>
    cases hlast
    have hsome : ∃ y all, later ++ m :: prev :: before = y :: all := by
      cases later <;> exact ⟨_, _, rfl⟩
    obtain ⟨y, all, hall⟩ := hsome
    rw [List.cons_append, hall] at h
    cases h with
    | lose hbefore hloses =>
      obtain ⟨hprev, hm, hrest⟩ := ih (hall ▸ hbefore) (congrArg List.head? hall)
      exact ⟨hprev, hm, hrest.tail hloses⟩

end Ledger

end TreeWatch

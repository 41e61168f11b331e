import TreeWatch.Proofs.Mirror.Reclaim

/-!
# Stray records

A record that nothing binds, that is not the root and that does not wait is never reclaimed. Finding the
record of an object makes such records, and so the caller has to bind them or let them wait. No other
change of a sound tree makes one.

## Main definitions

- `Tree.Stray` : a record that will not be reclaimed though nothing binds it

## Main results

- `Tree.Sound.stray_insertRecord`, `Tree.Sound.stray_addEntry` and so on : one lemma per change
- `Ledger.stray_reclaim`, `Ledger.isOrphan_reclaim` : reclaiming makes no stray records, and without a
  grace window nothing waits afterwards
-/

namespace TreeWatch

namespace Tree

/-- Nothing binds the record, it is not the root, and it does not wait. -/
structure Stray (t : Tree) (i : InodeId) : Prop extends t.Idle i where
  live : t.identity? i ≠ none
  not_waiting : t.isOrphan i = false

variable {t t' : Tree} {i j : InodeId}

/-- What nothing binds waits, unless it is stray. -/
theorem Idle.waits (hi : t.Idle i) (hlive : t.isLive i) (hstray : ¬t.Stray i) : t.isOrphan i := by
  by_contra hwaits
  exact hstray ⟨hi, isLive_iff_identity?.1 hlive, Bool.eq_false_iff.2 hwaits⟩

theorem isOrphan_startWaiting (t : Tree) (i j : InodeId) (now : Instant) :
    (t.startWaiting i now).isOrphan j = (decide (j = i) || t.isOrphan j) := by
  unfold isOrphan OrderedMap.contains startWaiting
  rw [OrderedMap.get?_insert]
  by_cases h : j = i <;> simp [h]

theorem isOrphan_erase (t : Tree) (i j : InodeId) :
    ({ t with orphans := t.orphans.erase i } : Tree).isOrphan j =
      (decide (j ≠ i) && t.isOrphan j) := by
  unfold isOrphan OrderedMap.contains
  rw [OrderedMap.get?_erase]
  by_cases h : j = i <;> simp [h]

/-- A record of a sound tree that nothing binds has no links. -/
theorem Sound.isUnlinked_of_idle (h : t.Sound) (hi : t.Idle i) {r : InodeRecord}
    (hr : t.record? i = some r) : r.isUnlinked := by
  rw [r.isUnlinked_iff]
  intro e he
  obtain ⟨⟨p, c, name⟩, hb, rfl⟩ := (h.link_iff hr e).1 he
  exact hi.child?_ne p name (h.child?_eq_some_iff.2 ⟨e, hb⟩)

/-- A stray of a changed tree was one before if the change took nothing away that kept it from being
one. -/
theorem Stray.before (hs : t'.Stray i) (hroot : t.root = some i → t'.root = some i)
    (hnames : ∀ p name, t.child? p name = some i → t'.child? p name = some i)
    (hlive : t'.identity? i ≠ none → t.identity? i ≠ none)
    (hwaits : t.isOrphan i → t'.isOrphan i) : t.Stray i where
  root_ne := mt hroot hs.root_ne
  child?_ne := fun p name => mt (hnames p name) (hs.child?_ne p name)
  live := hlive hs.live
  not_waiting := by
    have hwaiting := mt hwaits (by rw [hs.not_waiting]; exact Bool.false_ne_true)
    rwa [Bool.not_eq_true] at hwaiting

theorem Sound.stray_insertRecord (h : t.Sound) {attributes : Attributes} {token : IdentityToken}
    (hino : t.lookupIno attributes.ino = none) (fits : (t.insertRecord attributes token).2.Fits)
    (hs : (t.insertRecord attributes token).2.Stray i) :
    t.Stray i ∨ i = (t.insertRecord attributes token).1 := by
  have hview := h.view_insertRecord hino fits
  have hchild : (t.insertRecord attributes token).2.child? = t.child? := congrArg View.child hview
  refine (Classical.em _).symm.imp_left fun hne => hs.before id ?_ ?_ id
  · exact fun p name hc => hchild ▸ hc
  · intro hlive
    have hidentity := congrFun (congrArg View.identity hview) i
    rw [View.identity_insert, if_neg hne, view_identity, view_identity] at hidentity
    rwa [hidentity] at hlive

theorem Sound.stray_refreshFingerprint (h : t.Sound) {fingerprint : Fingerprint}
    (hs : (t.refreshFingerprint j fingerprint).Stray i) : t.Stray i := by
  have hview := h.view_refreshFingerprint j fingerprint
  have hchild : (t.refreshFingerprint j fingerprint).child? = t.child? := congrArg View.child hview
  refine hs.before id (fun p name hc => hchild ▸ hc) (fun hlive hnone => hlive ?_) id
  have hidentity := congrFun (congrArg View.identity hview) i
  rw [View.identity_refresh, view_identity, view_identity, hnone] at hidentity
  exact hidentity

/-- What has got a name is no stray. -/
theorem Sound.stray_addEntry (h : t.Sound) {p c : InodeId} {name : Bytes} {e : EntryId}
    {o : Observation} (hadd : t.addEntry p name c = .ok (e, t', o)) (fits : t'.Fits)
    (hs : t'.Stray i) : t.Stray i ∧ i ≠ c := by
  obtain ⟨⟨r, hchild⟩, ⟨r', hparent, hdir, hfree⟩, -, rfl⟩ := addEntry_eq_ok hadd
  have hview := h.view_withEntry hchild hparent hdir hfree fits
  have hnames : ∀ p' name', (t.withEntry p name c).child? p' name' =
      if p' = p ∧ name' = name then some c else t.child? p' name' :=
    fun p' name' => congrFun (congrFun (congrArg View.child hview) p') name'
  have hne : i ≠ c := by
    rintro rfl
    exact hs.child?_ne p name (by rw [hnames, if_pos ⟨rfl, rfl⟩])
  refine ⟨hs.before id (fun p' name' hc => ?_) (fun hlive => ?_) (fun hwaiting => ?_), hne⟩
  · -- the name that is bound was free
    rw [hnames, if_neg, hc]
    rintro ⟨rfl, rfl⟩
    rw [(h.childEntryOf?_eq_none_iff hparent).1 hfree] at hc
    cases hc
  · rwa [identity?_withEntry] at hlive
  · have hkept : (t.withEntry p name c).isOrphan i =
        ({ t with orphans := t.orphans.erase c } : Tree).isOrphan i := rfl
    rw [hkept, isOrphan_erase, hwaiting, decide_eq_true hne]
    rfl

theorem Stray.of_startWaiting {now : Instant} (hs : (t.startWaiting j now).Stray i) :
    t.Stray i ∧ i ≠ j := by
  refine ⟨hs.before id (fun _ _ => id) id fun hwaiting => ?_, ?_⟩
  · rw [isOrphan_startWaiting, hwaiting, Bool.or_true]
  · rintro rfl
    have hwaiting := hs.not_waiting
    rw [isOrphan_startWaiting, decide_eq_true rfl] at hwaiting
    cases hwaiting

/-- A stray is a record without links. -/
theorem Sound.exists_unlinked (h : t.Sound) (hs : t.Stray i) :
    ∃ r, t.record? i = some r ∧ r.isUnlinked := by
  obtain ⟨x, hx⟩ := Option.ne_none_iff_exists'.1 hs.live
  obtain ⟨r, hr, -⟩ := identity?_eq_some_iff.1 hx
  exact ⟨r, hr, h.isUnlinked_of_idle hs.toIdle hr⟩

theorem Sound.stray_waitIfUnlinked (h : t.Sound) {now : Instant}
    (hs : (t.waitIfUnlinked j now).Stray i) : t.Stray i ∧ i ≠ j := by
  rcases waitIfUnlinked_cases (t := t) j now with heq | ⟨heq, -⟩
  · rw [heq] at hs
    refine ⟨hs, ?_⟩
    rintro rfl
    -- it would have begun to wait
    obtain ⟨r, hr, hunlinked⟩ := h.exists_unlinked hs
    have hwaits : t.waitIfUnlinked i now = t.startWaiting i now := by
      unfold Tree.waitIfUnlinked
      rw [hr]
      exact if_pos ⟨hunlinked, hs.root_ne⟩
    rw [← heq, hwaits] at hs
    exact hs.of_startWaiting.2 rfl
  · rw [heq] at hs
    exact hs.of_startWaiting

theorem Sound.stray_orphanIfUnlinked (h : t.Sound) {now : Instant}
    (hs : (t.orphanIfUnlinked j now).2.Stray i) : t.Stray i ∧ i ≠ j := by
  unfold Tree.orphanIfUnlinked at hs
  split at hs
  · next r hr =>
    split at hs
    · exact hs.of_startWaiting
    · next hstays =>
      refine ⟨hs, ?_⟩
      rintro rfl
      have hunlinked := h.isUnlinked_of_idle hs.toIdle hr
      simp [hunlinked, hs.root_ne, hs.not_waiting] at hstays
  · next hnone =>
    refine ⟨hs, ?_⟩
    rintro rfl
    exact hs.live (identity?_eq_none_iff.2 hnone)

/-- What loses its last name waits. -/
theorem Sound.stray_removeEntry (h : t.Sound) {now : Instant} {e : EntryId} {o : Observation}
    (hremove : t.removeEntry now e = .ok (t', o)) (hs : t'.Stray i) : t.Stray i := by
  obtain ⟨b, entries, hentry, rfl⟩ := removeEntry_eq_ok hremove
  have hb : t.entryOf? e = some b := Arena.get?_of_remove hentry
  have hsound := h.withoutEntry hentry
  obtain ⟨hs, hne⟩ := hsound.stray_waitIfUnlinked hs
  refine hs.before id (fun p name hc => ?_) (fun hlive => ?_) id
  · obtain ⟨e', he'⟩ := h.child?_eq_some_iff.1 hc
    refine hsound.child?_eq_some_iff.2 ⟨e', ?_⟩
    rw [entryOf?_withoutEntry hentry, if_neg, he']
    rintro rfl
    cases hb.symm.trans he'
    exact hne rfl
  · rwa [identity?_withoutEntry] at hlive

theorem grace_removeEntry {now : Instant} {e : EntryId} {o : Observation}
    (hremove : t.removeEntry now e = .ok (t', o)) : t'.grace = t.grace := by
  obtain ⟨b, entries, -, rfl⟩ := removeEntry_eq_ok hremove
  rcases waitIfUnlinked_cases (t := t.withoutEntry e b entries) b.child now with heq | ⟨heq, -⟩
  · rw [heq]
    rfl
  · rw [heq]
    rfl

theorem grace_dropRecord (t : Tree) (j : InodeId) : (t.dropRecord j).2.grace = t.grace := by
  unfold dropRecord
  simp only
  split <;> rfl

theorem stray_dropRecord (hs : (t.dropRecord j).2.Stray i)
    (halone : ∀ p name, t.child? p name = some i → (t.dropRecord j).2.child? p name = some i) :
    t.Stray i := by
  have hrecord : i ≠ j ∧ (t.dropRecord j).2.record? i = t.record? i := by
    have hlive := hs.live
    rw [Ne, identity?_eq_none_iff, record?_dropRecord] at hlive
    rw [record?_dropRecord]
    split at hlive
    · exact absurd rfl hlive
    · next hne => exact ⟨hne, if_neg hne⟩
  obtain ⟨hne, hrecord⟩ := hrecord
  refine hs.before (fun hroot => ?_) halone (fun hlive => ?_) (fun hwaiting => ?_)
  · rw [root_dropRecord, if_neg, hroot]
    rw [hroot]
    exact fun hsame => hne (Option.some.inj hsame)
  · rwa [identity?, hrecord] at hlive
  · have hkept : (t.dropRecord j).2.isOrphan i =
        ({ t with orphans := t.orphans.erase j } : Tree).isOrphan i := by
      rw [isOrphan, orphans_dropRecord]
      rfl
    rw [hkept, isOrphan_erase, hwaiting, decide_eq_true hne]
    rfl

end Tree

namespace Ledger

variable {l : Ledger} {i j : InodeId} {clock : Clock} {deadline : Instant}

theorem stray_foldl_detach (h : l.tree.Sound) (entries : List EntryId)
    (hs : (entries.foldl (detach clock j) l).tree.Stray i) : l.tree.Stray i := by
  induction entries generalizing l with
  | nil => exact hs
  | cons e rest ih =>
    have hfirst := ih (detached_detach clock j h e).sound hs
    unfold detach removeEntry at hfirst
    cases hremove : l.tree.removeEntry (clock l.reads) e with
    | error x =>
      rw [hremove] at hfirst
      exact hfirst
    | ok q =>
      obtain ⟨t, o⟩ := q
      rw [hremove] at hfirst
      exact h.stray_removeEntry hremove hfirst

/-- What is left alone by the destruction of the record that bound it waits. -/
theorem stray_destroy (h : l.tree.Sound) (hs : (l.destroy clock j).2.tree.Stray i) :
    l.tree.Stray i := by
  cases hr : l.tree.record? j with
  | none =>
    rw [destroy_of_none clock j hr] at hs
    refine hs.before id (fun _ _ => id) id fun hwaiting => ?_
    have hne : i ≠ j := by
      rintro rfl
      exact hs.live (Tree.identity?_eq_none_iff.2 hr)
    rw [Tree.isOrphan_erase l.tree j i, hwaiting, decide_eq_true hne]
    rfl
  | some r =>
    have hdestroyed := destroyed_destroy clock j h hr
    have hdetached := detached_foldl_detach clock j h
      (r.links.elements ++ r.childList.map Prod.snd)
    rw [tree_destroy clock j hr] at hs hdestroyed
    refine stray_foldl_detach h _ (Tree.stray_dropRecord hs fun p name hc => ?_)
    obtain ⟨e, he⟩ := hdetached.sound.child?_eq_some_iff.1 hc
    exact hdestroyed.sound.child?_eq_some_iff.2 ⟨e, by rw [Tree.entryOf?_dropRecord, he]⟩

theorem stray_destroyAll (h : l.tree.Sound) (inodes : List InodeId)
    (hs : (l.destroyAll clock inodes).2.tree.Stray i) : l.tree.Stray i := by
  induction inodes generalizing l with
  | nil => exact hs
  | cons j rest ih => exact stray_destroy h (ih (sound_destroy clock j h) hs)

theorem sound_destroyAll (h : l.tree.Sound) (inodes : List InodeId) :
    (l.destroyAll clock inodes).2.tree.Sound := by
  induction inodes generalizing l with
  | nil => exact h
  | cons j rest ih => exact ih (sound_destroy clock j h)

theorem stray_reclaim (h : l.tree.Sound) (hs : (l.reclaim clock deadline).2.tree.Stray i) :
    l.tree.Stray i := by
  induction l using Ledger.reclaim.induct clock deadline with
  | case1 l round hlast =>
    rw [Ledger.reclaim, dif_pos hlast] at hs
    exact stray_destroyAll h _ hs
  | case2 l round hlast hless ih =>
    rw [Ledger.reclaim, dif_neg hlast] at hs
    exact stray_destroyAll h _ (ih (sound_destroyAll h _) hs)

/-! ### Without a grace window -/

theorem grace_detach (l : Ledger) (e : EntryId) : (detach clock j l e).tree.grace = l.tree.grace := by
  unfold detach removeEntry
  cases hremove : l.tree.removeEntry (clock l.reads) e with
  | error x => rfl
  | ok q => exact Tree.grace_removeEntry hremove

theorem grace_destroy (l : Ledger) (j : InodeId) :
    (l.destroy clock j).2.tree.grace = l.tree.grace := by
  cases hr : l.tree.record? j with
  | none => rw [destroy_of_none clock j hr]
  | some r =>
    have hfold : ∀ (entries : List EntryId) (l : Ledger),
        (entries.foldl (detach clock j) l).tree.grace = l.tree.grace := by
      intro entries
      induction entries with
      | nil => exact fun _ => rfl
      | cons e rest ih => exact fun l => (ih _).trans (grace_detach l e)
    rw [tree_destroy clock j hr, Tree.grace_dropRecord, hfold]

theorem grace_destroyAll (l : Ledger) (inodes : List InodeId) :
    (l.destroyAll clock inodes).2.tree.grace = l.tree.grace := by
  induction inodes generalizing l with
  | nil => rfl
  | cons j rest ih => exact (ih _).trans (grace_destroy l j)

/-- Without a grace window the records to be reclaimed are all that wait. -/
theorem expired_of_grace_eq_zero {t : Tree} (h : t.grace = 0) (deadline : Instant) :
    expired t deadline = t.orphans.toList.map Prod.fst := by
  unfold expired
  rw [List.filter_eq_self.2 fun p _ => by simp [h]]

theorem fst_destroy (h : l.tree.Sound) {r : InodeRecord} (hr : l.tree.record? j = some r) :
    (l.destroy clock j).1 = true := by
  have hdetached := detached_foldl_detach clock j h (r.links.elements ++ r.childList.map Prod.snd)
  have hidentity := hdetached.identity?_eq j
  rw [Tree.identity?_eq_some_iff.2 ⟨r, hr, rfl⟩] at hidentity
  obtain ⟨r', hr', -⟩ := Tree.identity?_eq_some_iff.1 hidentity
  obtain ⟨inodes, hremove⟩ := Tree.exists_remove_of_some hr'
  simp only [destroy, hr, Tree.dropRecord_of_some hremove]

/-- Without a grace window no record waits after records have been reclaimed. -/
theorem isOrphan_reclaim (h : l.tree.Sound) (hgrace : l.tree.grace = 0) :
    (l.reclaim clock deadline).2.tree.isOrphan i = false := by
  induction l using Ledger.reclaim.induct clock deadline with
  | case1 l round hlast =>
    rw [Ledger.reclaim, dif_pos hlast]
    have hround : round = l.destroyAll clock (l.tree.orphans.toList.map Prod.fst) :=
      congrArg (l.destroyAll clock) (expired_of_grace_eq_zero hgrace deadline)
    have hnone : l.tree.orphans = .empty := by
      refine OrderedMap.ext (List.eq_nil_iff_forall_not_mem.2 fun q hq => ?_)
      obtain ⟨q, rest, horphans⟩ := List.exists_cons_of_ne_nil (List.ne_nil_of_mem hq)
      -- a waiting record is in the tree, so it would have been destroyed
      have hwaits : l.tree.isOrphan q.1 := by
        have hget := OrderedMap.get?_eq_some_iff.2 (horphans ▸ List.mem_cons_self)
        rw [Tree.isOrphan, OrderedMap.contains, hget]
        rfl
      obtain ⟨-, r, hr, -⟩ := h.waiting hwaits
      rw [hround, horphans, List.map_cons, destroyAll] at hlast
      simp only [fst_destroy h hr, if_true] at hlast
      omega
    rw [hnone] at hround
    show round.2.tree.isOrphan i = false
    rw [hround]
    show l.tree.orphans.contains i = false
    rw [hnone]
    rfl
  | case2 l round hlast hless ih =>
    rw [Ledger.reclaim, dif_neg hlast]
    exact ih (sound_destroyAll h _) ((grace_destroyAll l _).trans hgrace)

end Ledger

end TreeWatch

import TreeWatch.Proofs.Garbage.Stray
import TreeWatch.Proofs.Tree.Ledger

/-!
# What waits, and since when

A record begins to wait when its last entry goes, or when it is met without any. It goes on waiting
since the same time until it is bound again, made the root or destroyed. Changes are taken apart here
until each of them reads the clock at most once, and that is the time since which a record waits.

## Main definitions

- `Tree.Bound`, `Tree.Loose` : whether an entry binds a record that is in the tree
- `Tree.waitsSince?` : the time since which a record waits
- `Tree.Shed` : what it does to waiting records that entries and records go
- `Ledger.Loses` : an entry or a record goes
- `Ledger.Step` : any change that is not taken apart any further
- `Ledger.Requeued` : what a step does to waiting records

## Main results

- `Ledger.Step.sound` : sound trees stay sound at every step
- `Ledger.Step.requeued` : what every step does to waiting records
- `Ledger.lt_grace_of_reclaim` : reclaiming leaves nothing that has waited long enough

## Design notes

Destroying a record is one change in `Ledger.Edit` and many steps here: entries go one after another,
and each time the clock is read anew.
-/

namespace TreeWatch

/-- The slot vacated last is used next, under another generation. -/
theorem Arena.fst_insert_of_remove {α : Type} {a b : Arena α} {i : Index} {value value' : α}
    (h : a.remove i = some (value, b)) : (b.insert value').1 = ⟨i.slot, i.generation + 1⟩ := by
  have hold := get?_of_remove h
  have hinside : i.slot.toNat < a.slots.size :=
    (Array.getElem?_eq_some_iff.1 (get?_eq_some_iff.1 hold)).1
  simp only [Arena.remove, hold, Option.map_some, Option.some.injEq, Prod.mk.injEq] at h
  obtain ⟨-, rfl⟩ := h
  simp [Arena.insert, hinside]

namespace Tree

/-- Some entry binds the record. -/
def Bound (t : Tree) (i : InodeId) : Prop := ∃ e b, t.entryOf? e = some b ∧ b.child = i

/-- The record is in the tree, and no entry binds it. -/
structure Loose (t : Tree) (i : InodeId) : Prop where
  live : t.identity? i ≠ none
  unbound : ¬t.Bound i

/-- The time since which a record waits. -/
def waitsSince? (t : Tree) (i : InodeId) : Option Instant := t.orphans.get? i

/-- Entries and records have gone. Records that were bound by such entries only have begun to wait, at
one of the `times`. -/
structure Shed (times : Set Instant) (t t' : Tree) : Prop where
  sound : t'.Sound
  grace_eq : t'.grace = t.grace
  bound_back : ∀ {i}, t'.Bound i → t.Bound i
  live_back : ∀ {i}, t'.identity? i ≠ none → t.identity? i ≠ none
  root_kept : ∀ {i}, t.root = some i → t'.root = some i ∨ t'.identity? i = none
  began : ∀ {i s}, t'.waitsSince? i = some s → t.waitsSince? i = some s ∨ s ∈ times ∧ t.Bound i
  kept : ∀ {i s}, t.waitsSince? i = some s → t'.waitsSince? i = some s ∨ t'.identity? i = none
  lost : ∀ {i}, t.Bound i → t'.Loose i → t'.root ≠ some i → ∃ s ∈ times, t'.waitsSince? i = some s

variable {t t' t'' : Tree} {i j : InodeId} {s now : Instant} {times : Set Instant}

/-! ### Waiting records -/

theorem isOrphan_of_waitsSince? (h : t.waitsSince? i = some s) : t.isOrphan i := by
  rw [isOrphan, OrderedMap.contains, Option.isSome_iff_exists]
  exact ⟨s, h⟩

/-- No entry binds what has no links. -/
theorem Sound.bound_iff (h : t.Sound) {r : InodeRecord} (hr : t.record? i = some r) :
    t.Bound i ↔ ¬r.isUnlinked := by
  rw [r.isUnlinked_iff, not_forall]
  constructor
  · rintro ⟨e, b, hb, hchild⟩
    exact ⟨e, not_not.2 ((h.link_iff hr e).2 ⟨b, hb, hchild⟩)⟩
  · rintro ⟨e, he⟩
    exact ⟨e, (h.link_iff hr e).1 (not_not.1 he)⟩

/-- What waits is loose, and it is not the root. -/
theorem Sound.loose (h : t.Sound) (hi : t.waitsSince? i = some s) : t.Loose i ∧ t.root ≠ some i := by
  obtain ⟨hroot, r, hr, hunlinked⟩ := h.waiting (isOrphan_of_waitsSince? hi)
  refine ⟨⟨?_, fun hbound => (h.bound_iff hr).1 hbound hunlinked⟩, hroot⟩
  rw [Ne, identity?_eq_none_iff, hr]
  exact Option.some_ne_none r

theorem waitsSince?_startWaiting (t : Tree) (i j : InodeId) (now : Instant) :
    (t.startWaiting j now).waitsSince? i = if i = j then some now else t.waitsSince? i :=
  OrderedMap.get?_insert ..

theorem waitsSince?_erase (t : Tree) (i j : InodeId) :
    ({ t with orphans := t.orphans.erase j } : Tree).waitsSince? i =
      if i = j then none else t.waitsSince? i :=
  OrderedMap.get?_erase ..

/-- What has no entry waits, unless it is the root. -/
theorem Sound.waitsSince?_waitIfUnlinked (h : t.Sound) (hi : t.Loose i) (hroot : t.root ≠ some i)
    (now : Instant) : (t.waitIfUnlinked i now).waitsSince? i = some now := by
  obtain ⟨x, hx⟩ := Option.ne_none_iff_exists'.1 hi.live
  obtain ⟨r, hr, -⟩ := identity?_eq_some_iff.1 hx
  have hunlinked : r.isUnlinked := not_not.1 (mt (h.bound_iff hr).2 hi.unbound)
  unfold Tree.waitIfUnlinked
  rw [hr]
  show (if r.isUnlinked ∧ t.root ≠ some i then t.startWaiting i now else t).waitsSince? i = _
  rw [if_pos ⟨hunlinked, hroot⟩, waitsSince?_startWaiting, if_pos rfl]

theorem waitsSince?_waitIfUnlinked_of_ne (t : Tree) (now : Instant) (h : i ≠ j) :
    (t.waitIfUnlinked j now).waitsSince? i = t.waitsSince? i := by
  rcases waitIfUnlinked_cases (t := t) j now with heq | ⟨heq, -⟩
  · rw [heq]
  · rw [heq, waitsSince?_startWaiting, if_neg h]

theorem bound_waitIfUnlinked (t : Tree) (j : InodeId) (now : Instant) :
    (t.waitIfUnlinked j now).Bound i ↔ t.Bound i := by
  have hframe := waitIfUnlinked_frame (t := t) now j
  simp only [Bound, hframe.2.1]

theorem Loose.of_waitIfUnlinked (h : (t.waitIfUnlinked j now).Loose i) : t.Loose i := by
  refine ⟨?_, mt (bound_waitIfUnlinked t j now).2 h.unbound⟩
  have hframe := waitIfUnlinked_frame (t := t) now j
  rw [identity?, ← hframe.1]
  exact h.live

/-- What is bound is the object of the entry that goes, or it stays bound. -/
theorem bound_iff_withoutEntry {e : EntryId} {b : DirectoryEntry} {entries : Arena DirectoryEntry}
    (h : t.entries.remove e.index = some (b, entries)) :
    t.Bound i ↔ i = b.child ∨ (t.withoutEntry e b entries).Bound i := by
  have hb : t.entryOf? e = some b := Arena.get?_of_remove h
  constructor
  · rintro ⟨e', b', hb', rfl⟩
    by_cases hne : e' = e
    · subst hne
      cases hb.symm.trans hb'
      exact .inl rfl
    · exact .inr ⟨e', b', by rw [entryOf?_withoutEntry h, if_neg hne, hb'], rfl⟩
  · rintro (rfl | ⟨e', b', hb', hchild⟩)
    · exact ⟨e, b, hb, rfl⟩
    · rw [entryOf?_withoutEntry h] at hb'
      split at hb'
      · cases hb'
      · exact ⟨e', b', hb', hchild⟩

/-! ### Entries and records that go -/

namespace Shed

theorem refl (h : t.Sound) : Shed times t t :=
  ⟨h, rfl, id, id, .inl, .inl, .inl, fun hbound hloose _ => absurd hbound hloose.unbound⟩

theorem trans (h : Shed times t t') (h' : Shed times t' t'') : Shed times t t'' where
  sound := h'.sound
  grace_eq := h'.grace_eq.trans h.grace_eq
  bound_back hi := h.bound_back (h'.bound_back hi)
  live_back hi := h.live_back (h'.live_back hi)
  root_kept {i} hi := by
    rcases h.root_kept hi with hmid | hgone
    · exact h'.root_kept hmid
    · exact .inr (by_contra fun hlive => h'.live_back hlive hgone)
  began hi := by
    rcases h'.began hi with hmid | ⟨hs, hbound⟩
    · exact h.began hmid
    · exact .inr ⟨hs, h.bound_back hbound⟩
  kept hi := by
    rcases h.kept hi with hmid | hgone
    · exact h'.kept hmid
    · exact .inr (by_contra fun hlive => h'.live_back hlive hgone)
  lost {i} hbound hloose hroot := by
    by_cases hmid : t'.Bound i
    · exact h'.lost hmid hloose hroot
    · have hlive : t'.identity? i ≠ none := h'.live_back hloose.live
      have hroot' : t'.root ≠ some i := fun heq =>
        (h'.root_kept heq).elim hroot hloose.live
      obtain ⟨s, hs, hwaits⟩ := h.lost hbound ⟨hlive, hmid⟩ hroot'
      exact ⟨s, hs, (h'.kept hwaits).resolve_right hloose.live⟩

theorem mono {times' : Set Instant} (h : Shed times t t') (hsub : times ⊆ times') :
    Shed times' t t' where
  sound := h.sound
  grace_eq := h.grace_eq
  bound_back := h.bound_back
  live_back := h.live_back
  root_kept := h.root_kept
  began hi := (h.began hi).imp_right (And.imp_left (hsub ·))
  kept := h.kept
  lost hbound hloose hroot := (h.lost hbound hloose hroot).imp fun _ => And.imp_left (hsub ·)

end Shed

theorem Sound.shed_removeEntry (h : t.Sound) {e : EntryId} {o : Observation}
    (hremove : t.removeEntry now e = .ok (t', o)) : Shed {now} t t' := by
  have hdetached := h.removeEntry hremove
  have hgrace := grace_removeEntry hremove
  obtain ⟨b, entries, hentry, rfl⟩ := removeEntry_eq_ok hremove
  have hbound : ∀ {i}, t.Bound i ↔
      i = b.child ∨ ((t.withoutEntry e b entries).waitIfUnlinked b.child now).Bound i := by
    intro i
    rw [bound_iff_withoutEntry hentry, bound_waitIfUnlinked]
  -- only the object of the entry is affected
  have hother : ∀ {i}, i ≠ b.child →
      ((t.withoutEntry e b entries).waitIfUnlinked b.child now).waitsSince? i = t.waitsSince? i :=
    fun hne => waitsSince?_waitIfUnlinked_of_ne _ _ hne
  refine ⟨hdetached.sound, hgrace, fun hi => hbound.2 (.inr hi), fun {i} hi => ?_, fun {i} hi => ?_,
    fun {i s} hi => ?_, fun {i s} hi => ?_, fun {i} hi hloose hroot => ?_⟩
  · rwa [hdetached.identity?_eq] at hi
  · exact .inl (by rwa [hdetached.root_eq])
  · by_cases hne : i = b.child
    · subst hne
      rcases waitIfUnlinked_cases (t := t.withoutEntry e b entries) b.child now with heq | ⟨heq, -⟩
      · rw [heq] at hi
        exact .inl hi
      · rw [heq, waitsSince?_startWaiting, if_pos rfl] at hi
        exact .inr ⟨(Option.some.inj hi).symm, hbound.2 (.inl rfl)⟩
    · exact .inl (hother hne ▸ hi)
  · have hne : i ≠ b.child := fun heq => (h.loose hi).1.unbound (hbound.2 (.inl heq))
    exact .inl ((hother hne).trans hi)
  · obtain rfl := (hbound.1 hi).resolve_right hloose.unbound
    rw [(waitIfUnlinked_frame now b.child).2.2.1] at hroot
    exact ⟨now, rfl, (h.withoutEntry hentry).waitsSince?_waitIfUnlinked hloose.of_waitIfUnlinked hroot now⟩

/-- A record that nothing binds goes. -/
theorem shed_dropRecord (hsound : (t.dropRecord j).2.Sound) :
    Shed times t (t.dropRecord j).2 := by
  have hidentity : ∀ i, (t.dropRecord j).2.identity? i = if i = j then none else t.identity? i := by
    intro i
    rw [identity?, record?_dropRecord]
    split <;> rfl
  have hwaits : ∀ i, (t.dropRecord j).2.waitsSince? i = if i = j then none else t.waitsSince? i := by
    intro i
    rw [waitsSince?, orphans_dropRecord, OrderedMap.get?_erase]
    rfl
  have hentries : ∀ i, (t.dropRecord j).2.Bound i ↔ t.Bound i := by
    intro i
    simp only [Bound, entryOf?_dropRecord]
  refine ⟨hsound, grace_dropRecord t j, fun hi => (hentries _).1 hi, ?_, ?_, ?_, ?_, ?_⟩
  · intro i hi
    rw [hidentity] at hi
    split at hi
    · exact absurd rfl hi
    · exact hi
  · intro i hi
    by_cases hij : i = j
    · exact .inr (by rw [hidentity, if_pos hij])
    · left
      rw [root_dropRecord, if_neg, hi]
      rw [hi]
      exact fun heq => hij (Option.some.inj heq)
  · intro i s hi
    rw [hwaits] at hi
    split at hi
    · cases hi
    · exact .inl hi
  · intro i s hi
    by_cases hij : i = j
    · exact .inr (by rw [hidentity, if_pos hij])
    · exact .inl (by rw [hwaits, if_neg hij, hi])
  · exact fun hbound hloose _ => absurd ((hentries _).2 hbound) hloose.unbound

end Tree

namespace Ledger

open TreeWatch.Tree

variable {clock : Clock} {l l' : Ledger} {i j : InodeId} {s deadline : Instant}

/-! ### Who is reclaimed -/

theorem mem_expired {t : Tree} : i ∈ expired t deadline ↔
    ∃ s, t.waitsSince? i = some s ∧ t.grace ≤ Instant.since deadline s := by
  simp only [expired, List.mem_map, List.mem_filter, decide_eq_true_iff, Tree.waitsSince?,
    OrderedMap.get?_eq_some_iff]
  constructor
  · rintro ⟨⟨j, s⟩, ⟨hmem, hs⟩, rfl⟩
    exact ⟨s, hmem, hs⟩
  · rintro ⟨s, hmem, hs⟩
    exact ⟨(i, s), ⟨hmem, hs⟩, rfl⟩

/-- A round of a pass in which nothing is destroyed is one in which nothing had waited long enough. -/
theorem expired_eq_nil_of_round (h : l.tree.Sound)
    (hlast : (l.destroyAll clock (expired l.tree deadline)).1 = 0) : expired l.tree deadline = [] := by
  cases hlist : expired l.tree deadline with
  | nil => rfl
  | cons j rest =>
    obtain ⟨s', hs', -⟩ := mem_expired.1 (hlist ▸ List.mem_cons_self)
    obtain ⟨-, r, hr, -⟩ := h.waiting (isOrphan_of_waitsSince? hs')
    rw [hlist, destroyAll] at hlast
    simp only [fst_destroy h hr, if_true] at hlast
    omega

/-- After a reclaim pass nothing is left that has waited long enough. -/
theorem lt_grace_of_reclaim (h : l.tree.Sound)
    (hi : (l.reclaim clock deadline).2.tree.waitsSince? i = some s) :
    Instant.since deadline s < l.tree.grace := by
  induction l using Ledger.reclaim.induct clock deadline with
  | case1 l round hlast =>
    rw [Ledger.reclaim, dif_pos hlast] at hi
    have hnone := expired_eq_nil_of_round h hlast
    have hround : round = (0, l) := congrArg (l.destroyAll clock) hnone
    have hwaits : l.tree.waitsSince? i = some s := by
      have hi' : round.2.tree.waitsSince? i = some s := hi
      rwa [hround] at hi'
    by_contra hexpired
    have hmem := mem_expired.2 ⟨s, hwaits, Nat.not_lt.1 hexpired⟩
    rw [hnone] at hmem
    cases hmem
  | case2 l round hlast hless ih =>
    rw [Ledger.reclaim, dif_neg hlast] at hi
    exact grace_destroyAll l _ ▸ ih (sound_destroyAll h _) hi

/-- Where a record has just been destroyed, no record is put in under the same name. -/
theorem fst_insertRecord_ne {r : InodeRecord} (hr : l.tree.record? j = some r) (clock : Clock)
    (attributes : Attributes) (token : IdentityToken) :
    ((l.destroy clock j).2.tree.insertRecord attributes token).1 ≠ j := by
  obtain ⟨r', hr'⟩ := isLive_iff.1 ((isLive_foldl_detach clock j l
    (r.links.elements ++ r.childList.map Prod.snd) j).trans (isLive_iff.2 ⟨r, hr⟩))
  obtain ⟨inodes, hremove⟩ := exists_remove_of_some hr'
  rw [tree_destroy clock j hr, dropRecord_of_some hremove]
  show InodeId.mk (inodes.insert _).1 ≠ j
  rw [Arena.fst_insert_of_remove hremove]
  intro heq
  have hgeneration : j.index.generation + 1 = j.index.generation :=
    congrArg (fun i : InodeId => i.index.generation) heq
  simp at hgeneration

/-! ### Steps -/

/-- An entry goes, or a record that has no entries any more, or something is reported. -/
inductive Loses (clock : Clock) : Ledger → Ledger → Prop
  | note {l : Ledger} (event : LogEvent) : Loses clock l (l.note event)
  | unbind {l l' : Ledger} {e : EntryId} : l.removeEntry clock e = .ok l' → Loses clock l l'
  | drop {l : Ledger} {i : InodeId} {r : InodeRecord} : l.tree.record? i = some r →
    (∀ e b, l.tree.entryOf? e = some b → b.parent ≠ i ∧ b.child ≠ i) →
      Loses clock l { l with tree := (l.tree.dropRecord i).2 }

/-- A change of a ledger that is not taken apart any further, or a reading of the clock. -/
inductive Step (clock : Clock) : Ledger → Ledger → Prop
  | lose {l l' : Ledger} : Loses clock l l' → Step clock l l'
  | insert {l : Ledger} {attributes : Attributes} {token : IdentityToken} :
    l.tree.lookupIno attributes.ino = none → Step clock l (l.insertRecord attributes token).2
  | refresh {l : Ledger} {i : InodeId} {fingerprint : Fingerprint} :
    Step clock l { l with tree := l.tree.refreshFingerprint i fingerprint }
  | bind {l l' : Ledger} {parent child : InodeId} {name : Bytes} {e : EntryId} :
    l.addEntry parent name child = .ok (e, l') → Step clock l l'
  | wait {l : Ledger} {i : InodeId} : Step clock l (l.orphanIfUnlinked i clock)
  | root {l : Ledger} {i : InodeId} : Step clock l { l with tree := l.tree.setRoot i }
  | tick {l : Ledger} : Step clock l l.tick

theorem Loses.grows (h : Loses clock l l') : l.tree.Grows l'.tree := by
  cases h with
  | note event => exact Grows.refl _
  | unbind hremove =>
    obtain ⟨t, o, htree, rfl⟩ := removeEntry_eq_ok hremove
    exact grows_removeEntry htree
  | drop _ _ => exact grows_dropRecord

/-- What goes is no longer waiting, and what begins to wait does so at the reading of the clock. -/
theorem Loses.exists_shed (h : Loses clock l l') (hsound : l.tree.Sound) :
    ∃ times, Shed times l.tree l'.tree ∧ ∀ s ∈ times, s = clock l.reads ∧ l'.reads = l.reads + 1 := by
  cases h with
  | note event => exact ⟨∅, .refl hsound, fun _ hs => hs.elim⟩
  | unbind hremove =>
    obtain ⟨t, o, htree, rfl⟩ := removeEntry_eq_ok hremove
    exact ⟨{clock l.reads}, hsound.shed_removeEntry htree, fun _ hs => ⟨hs, rfl⟩⟩
  | drop hr hends =>
    exact ⟨∅, shed_dropRecord (hsound.dropRecord hr hends), fun _ hs => hs.elim⟩

theorem Loses.shed (h : Loses clock l l') (hsound : l.tree.Sound) :
    Shed Set.univ l.tree l'.tree := by
  obtain ⟨times, hshed, -⟩ := h.exists_shed hsound
  exact hshed.mono fun _ _ => trivial

/-- A step by which nothing goes leaves the tree alone or is one of its changes. -/
theorem Step.tree_cases (h : Step clock l l') : Loses clock l l' ∨ l'.tree = l.tree ∨
    Tree.Edit (fun _ _ => True) l.tree l'.tree := by
  cases h with
  | lose hloses => exact .inl hloses
  | insert hino =>
    rw [tree_insertRecord]
    exact .inr (.inr (.insert trivial hino))
  | refresh => exact .inr (.inr .refresh)
  | bind hadd =>
    obtain ⟨t, o, htree, rfl⟩ := addEntry_eq_ok hadd
    exact .inr (.inr (.bind htree))
  | wait => exact .inr (.inr .wait)
  | root => exact .inr (.inr .root)
  | tick => exact .inr (.inl rfl)

theorem Step.grows (h : Step clock l l') : l.tree.Grows l'.tree := by
  rcases h.tree_cases with hloses | hsame | hedit
  · exact hloses.grows
  · rw [hsame]
    exact Grows.refl _
  · exact hedit.grows

/-- Sound trees stay sound, also while a record is being destroyed. -/
theorem Step.sound (h : Step clock l l') (hsound : l.tree.Sound) (fits : l'.tree.Fits) :
    l'.tree.Sound := by
  rcases h.tree_cases with hloses | hsame | hedit
  · exact (hloses.shed hsound).sound
  · rwa [hsame]
  · exact hedit.sound hsound fits

/-- No reading of the clock is taken back. -/
theorem Step.reads_le (h : Step clock l l') : l.reads ≤ l'.reads := by
  cases h with
  | lose hloses =>
    cases hloses with
    | note event => exact Nat.le_refl _
    | unbind hremove =>
      obtain ⟨t, o, -, rfl⟩ := removeEntry_eq_ok hremove
      exact Nat.le_succ _
    | drop _ _ => exact Nat.le_refl _
  | insert _ => exact Nat.le_of_eq (reads_insertRecord ..).symm
  | refresh => exact Nat.le_refl _
  | bind hadd =>
    obtain ⟨t, o, -, rfl⟩ := addEntry_eq_ok hadd
    exact Nat.le_refl _
  | wait =>
    unfold orphanIfUnlinked
    simp only
    split
    · exact Nat.le_succ _
    · exact Nat.le_refl _
  | root => exact Nat.le_refl _
  | tick => exact Nat.le_succ _

/-! ### What a step does to waiting records -/

/-- What a step does to waiting records: a record begins to wait when it loses its last entry, or when it
is met without any, and then the clock is read; and it goes on waiting since the same time until it is
bound, made the root or destroyed. -/
structure Requeued (clock : Clock) (l l' : Ledger) : Prop where
  began : ∀ {i s}, l'.tree.waitsSince? i = some s → l.tree.waitsSince? i = some s ∨
    l'.reads = l.reads + 1 ∧ s = clock l.reads ∧ (l.tree.Bound i ∨
      l.tree.Loose i ∧ l.tree.waitsSince? i = none ∧ l' = l.orphanIfUnlinked i clock)
  kept : ∀ {i s}, l.tree.waitsSince? i = some s → l'.tree.waitsSince? i = some s ∨
    l'.tree.Bound i ∨ l'.tree.root = some i ∨ l'.tree.identity? i = none
  lost : ∀ {i}, l.tree.Bound i → l'.tree.Loose i → l'.tree.root ≠ some i →
    l'.tree.waitsSince? i = some (clock l.reads)

theorem Loses.requeued (h : Loses clock l l') (hsound : l.tree.Sound) : Requeued clock l l' := by
  obtain ⟨times, hshed, htimes⟩ := h.exists_shed hsound
  refine ⟨fun hi => ?_, fun hi => (hshed.kept hi).imp_right fun hgone => .inr (.inr hgone),
    fun hbound hloose hroot => ?_⟩
  · refine (hshed.began hi).imp_right fun ⟨hs, hbound⟩ => ?_
    exact ⟨(htimes _ hs).2, (htimes _ hs).1, .inl hbound⟩
  · obtain ⟨s, hs, hwaits⟩ := hshed.lost hbound hloose hroot
    rw [hwaits, (htimes s hs).1]

/-- Changes by which no entry goes and no record begins to wait. -/
theorem requeued_of_bound (hbound : ∀ {i}, l.tree.Bound i → l'.tree.Bound i)
    (hwaits : ∀ {i s}, l'.tree.waitsSince? i = some s → l.tree.waitsSince? i = some s)
    (hkept : ∀ {i s}, l.tree.waitsSince? i = some s → l'.tree.waitsSince? i = some s ∨
      l'.tree.Bound i ∨ l'.tree.root = some i) : Requeued clock l l' where
  began hi := .inl (hwaits hi)
  kept hi := (hkept hi).imp_right fun h => h.imp_right .inl
  lost hi hloose _ := absurd (hbound hi) hloose.unbound

theorem requeued_insertRecord (l : Ledger) (attributes : Attributes) (token : IdentityToken) :
    Requeued clock l (l.insertRecord attributes token).2 := by
  have hwaits : ∀ i, (l.insertRecord attributes token).2.tree.waitsSince? i = l.tree.waitsSince? i :=
    fun i => by rw [tree_insertRecord]; rfl
  refine requeued_of_bound (fun {i} hi => ?_) (fun hi => hwaits _ ▸ hi)
    fun hi => .inl ((hwaits _).trans hi)
  rw [tree_insertRecord]
  exact hi

theorem bound_withEntry {t : Tree} (wf : t.entries.WellFormed) {p c : InodeId} {name : Bytes}
    (fits : (t.withEntry p name c).Fits) : (t.withEntry p name c).Bound i ↔ i = c ∨ t.Bound i := by
  have hfree : t.entryOf? ⟨(t.entries.insert ⟨p, c, name⟩).1⟩ = none :=
    Arena.get?_fst_insert wf fits.entries
  simp only [Tree.Bound, entryOf?_withEntry wf fits]
  constructor
  · rintro ⟨e, b, hb, hchild⟩
    split at hb
    · cases hb
      exact .inl hchild.symm
    · exact .inr ⟨e, b, hb, hchild⟩
  · rintro (rfl | ⟨e, b, hb, hchild⟩)
    · exact ⟨_, _, if_pos rfl, rfl⟩
    · refine ⟨e, b, ?_, hchild⟩
      rw [if_neg, hb]
      rintro rfl
      rw [hfree] at hb
      cases hb

theorem requeued_addEntry (h : l.tree.Sound) {parent child : InodeId} {name : Bytes} {e : EntryId}
    (hadd : l.addEntry parent name child = .ok (e, l')) (fits : l'.tree.Fits) :
    Requeued clock l l' := by
  obtain ⟨t, o, htree, rfl⟩ := addEntry_eq_ok hadd
  obtain ⟨-, -, -, rfl⟩ := Tree.addEntry_eq_ok htree
  have hbound : ∀ {i}, (l.tree.withEntry parent name child).Bound i ↔ i = child ∨ l.tree.Bound i :=
    bound_withEntry h.entries_wellFormed fits
  have hwaits : ∀ i, (l.tree.withEntry parent name child).waitsSince? i =
      if i = child then none else l.tree.waitsSince? i := fun i => waitsSince?_erase l.tree i child
  refine requeued_of_bound (fun hi => hbound.2 (.inr hi)) (fun {i s} hi => ?_) fun {i s} hi => ?_
  · change (l.tree.withEntry parent name child).waitsSince? i = some s at hi
    rw [hwaits] at hi
    split at hi
    · cases hi
    · exact hi
  · by_cases hne : i = child
    · exact .inr (.inl (hbound.2 (.inl hne)))
    · exact .inl ((hwaits i).trans (by rw [if_neg hne, hi]))

theorem requeued_setRoot (l : Ledger) (j : InodeId) :
    Requeued clock l { l with tree := l.tree.setRoot j } := by
  have hwaits : ∀ i, (l.tree.setRoot j).waitsSince? i = if i = j then none else l.tree.waitsSince? i :=
    fun i => waitsSince?_erase l.tree i j
  refine requeued_of_bound id (fun {i s} hi => ?_) fun {i s} hi => ?_
  · change (l.tree.setRoot j).waitsSince? i = some s at hi
    rw [hwaits] at hi
    split at hi
    · cases hi
    · exact hi
  · by_cases hne : i = j
    · exact .inr (.inr (congrArg some hne.symm))
    · exact .inl ((hwaits i).trans (by rw [if_neg hne, hi]))

/-- A record that waits already goes on as before. -/
theorem requeued_orphanIfUnlinked (h : l.tree.Sound) (j : InodeId) :
    Requeued clock l (l.orphanIfUnlinked j clock) := by
  have hcases : l.tree.orphanIfUnlinked j (clock l.reads) = (false, l.tree) ∨
      l.tree.orphanIfUnlinked j (clock l.reads) = (true, l.tree.startWaiting j (clock l.reads)) ∧
        l.tree.Loose j ∧ l.tree.waitsSince? j = none := by
    unfold Tree.orphanIfUnlinked
    split
    · next r hr =>
      split
      · next hbegins =>
        simp only [Bool.and_eq_true, Bool.not_eq_true', decide_eq_true_iff] at hbegins
        refine .inr ⟨rfl, ⟨?_, fun hbound => (h.bound_iff hr).1 hbound hbegins.1.1⟩, ?_⟩
        · rw [Ne, identity?_eq_none_iff, hr]
          exact Option.some_ne_none r
        · have hnot := hbegins.2
          rwa [isOrphan, OrderedMap.contains, Option.isSome_eq_false_iff, Option.isNone_iff_eq_none]
            at hnot
      · exact .inl rfl
    · exact .inl rfl
  rcases hcases with hsame | ⟨hstarts, hloose, hnot⟩
  · have hledger : l.orphanIfUnlinked j clock = l := by
      rw [orphanIfUnlinked, hsame]
      rfl
    rw [hledger]
    exact requeued_of_bound id id .inl
  · have hledger : l.orphanIfUnlinked j clock =
        { l with tree := l.tree.startWaiting j (clock l.reads), reads := l.reads + 1 } := by
      rw [orphanIfUnlinked, hstarts]
      rfl
    have htree : (l.orphanIfUnlinked j clock).tree = l.tree.startWaiting j (clock l.reads) :=
      congrArg Ledger.tree hledger
    refine ⟨fun {i s} hi => ?_, fun {i s} hi => .inl ?_, fun {i} hbound hloose' _ => ?_⟩
    · rw [htree, waitsSince?_startWaiting] at hi
      split at hi
      · next hij =>
        subst hij
        exact .inr ⟨congrArg Ledger.reads hledger, (Option.some.inj hi).symm, .inr ⟨hloose, hnot, rfl⟩⟩
      · exact .inl hi
    · rw [htree, waitsSince?_startWaiting, if_neg, hi]
      rintro rfl
      rw [hnot] at hi
      cases hi
    · rw [htree] at hloose'
      exact absurd hbound hloose'.unbound

/-- What any step does to waiting records. -/
theorem Step.requeued (h : Step clock l l') (hsound : l.tree.Sound) (fits : l'.tree.Fits) :
    Requeued clock l l' := by
  cases h with
  | lose hloses => exact hloses.requeued hsound
  | insert _ => exact requeued_insertRecord l _ _
  | refresh => exact requeued_of_bound id id .inl
  | bind hadd => exact requeued_addEntry hsound hadd fits
  | wait => exact requeued_orphanIfUnlinked hsound _
  | root => exact requeued_setRoot l _
  | tick => exact requeued_of_bound id id .inl

end Ledger

end TreeWatch

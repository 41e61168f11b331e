import TreeWatch.Proofs.Tracker.Resolution

/-!
# Names that come and go

A name comes when it is bound and goes when it is unbound; but where an inode number has come to stand for
another object, the record that makes way takes its names along. This module keeps account of all three.

## Main definitions

- `Expulsion` : a record that makes way, with the names that it takes along
- `Ledger.Change` : one change, with what it does to names
- `Ledger.Course` : changes one after another, with all that they do to names
- `Ledger.Counted` : the same, whichever records make way
- `Ledger.Observes`, `Ledger.Expels` : what is added to the journal and to the log
- `Ledger.Account` : what journal, log and tree tell of a course

## Main results

- `Ledger.Change.account` : what they tell of one change
- `Ledger.Course.account` : what they tell of a course
-/

namespace TreeWatch

/-- The record that an event says was destroyed at once. -/
def LogEvent.invalidated? : LogEvent → Option InodeId
  | .invalidated inode => some inode
  | _ => none

/-- A record that makes way for another, and the tree that it is in. -/
structure Expulsion where
  tree : Tree
  record : InodeId

/-- The entries into the record and out of it. -/
def Expulsion.names (x : Expulsion) : List EntryId :=
  (x.tree.entries.toList.filter fun p => p.2.parent = x.record ∨ p.2.child = x.record).map
    fun p => ⟨p.1⟩

namespace Expulsion

variable {x : Expulsion} {e : EntryId}

theorem mem_names (fits : x.tree.Fits) :
    e ∈ x.names ↔ ∃ b, x.tree.entryOf? e = some b ∧ (b.parent = x.record ∨ b.child = x.record) := by
  simp only [names, List.mem_map, List.mem_filter, decide_eq_true_iff]
  constructor
  · rintro ⟨⟨i, b⟩, ⟨hmem, hends⟩, rfl⟩
    exact ⟨b, (Arena.mem_toList fits.entries).1 hmem, hends⟩
  · rintro ⟨b, hb, hends⟩
    exact ⟨(e.index, b), ⟨(Arena.mem_toList fits.entries).2 hb, hends⟩, rfl⟩

theorem nodup_names (fits : x.tree.Fits) : x.names.Nodup := by
  have hinjective : Function.Injective EntryId.mk := fun _ _ h => EntryId.mk.inj h
  have hindexes : ((x.tree.entries.toList.filter fun p =>
      p.2.parent = x.record ∨ p.2.child = x.record).map Prod.fst).Nodup :=
    (Arena.nodup_toList fits.entries).sublist (List.filter_sublist.map _)
  have hentries := hindexes.map hinjective
  rwa [List.map_map] at hentries

end Expulsion

namespace Tree

variable {t t' : Tree} {now : Instant} {parent child : InodeId} {name : Bytes} {e : EntryId}
  {o : Observation} {es : List EntryId} {os : List Observation}

theorem kind_addEntry (h : t.addEntry parent name child = .ok (e, t', o)) : o.kind = .linked := by
  obtain ⟨⟨r, hchild⟩, ⟨r', hparent, hdir, hfree⟩, -, -⟩ := addEntry_eq_ok h
  rw [addEntry_of_free hchild hparent hdir hfree] at h
  cases h
  rfl

theorem kind_removeEntry (h : t.removeEntry now e = .ok (t', o)) : o.kind = .unlinked := by
  obtain ⟨b, entries, hentry, -⟩ := removeEntry_eq_ok h
  rw [removeEntry_of_bound hentry] at h
  cases h
  rfl

theorem count_of_reports (h : List.Forall₂ t.Reports es os) :
    os.countP (·.kind = .linked) = 0 ∧ os.countP (·.kind = .unlinked) = es.length := by
  induction h with
  | nil => exact ⟨rfl, rfl⟩
  | cons ho _ ih => simp [ho.kind, ih]

end Tree

namespace Ledger

open TreeWatch.Tree

variable {l l' l'' : Ledger} {clock : Clock} {x : InodeId}
  {came went came' went' : Nat} {expelled expelled' : List Expulsion}

/-! ### Changes -/

/-- One change: how many names come and how many go, and which record makes way. -/
inductive Change : (came went : Nat) → (expelled : List Expulsion) → Ledger → Ledger → Prop
  | bind {l l' : Ledger} {parent child : InodeId} {name : Bytes} {e : EntryId} :
    l.addEntry parent name child = .ok (e, l') → Change 1 0 [] l l'
  | unbind {l l' : Ledger} {clock : Clock} {e : EntryId} :
    l.removeEntry clock e = .ok l' → Change 0 1 [] l l'
  | replace {l : Ledger} {clock : Clock} {x : InodeId} {a : Attributes} {token : IdentityToken} :
    l.tree.lookupIno a.ino = some x →
      Change 0 0 [⟨l.tree, x⟩] l ((l.invalidate clock x).insertRecord a token).2
  | insert {l : Ledger} {a : Attributes} {token : IdentityToken} :
    l.tree.lookupIno a.ino = none → Change 0 0 [] l (l.insertRecord a token).2
  | refresh {l : Ledger} {i : InodeId} {fingerprint : Fingerprint} :
    Change 0 0 [] l { l with tree := l.tree.refreshFingerprint i fingerprint }
  | wait {l : Ledger} {clock : Clock} {i : InodeId} : Change 0 0 [] l (l.orphanIfUnlinked i clock)
  | note {l : Ledger} {event : LogEvent} :
    event.invalidated? = none → Change 0 0 [] l (l.note event)

/-- Changes one after another. -/
inductive Course : (came went : Nat) → (expelled : List Expulsion) → Ledger → Ledger → Prop
  | refl {l : Ledger} : Course 0 0 [] l l
  | step {l l' l'' : Ledger} {came went came' went' : Nat} {expelled expelled' : List Expulsion} :
    Course came went expelled l l' → Change came' went' expelled' l' l'' →
      Course (came + came') (went + went') (expelled ++ expelled') l l''

theorem Change.course (h : Change came went expelled l l') : Course came went expelled l l' := by
  have hcourse := Course.refl.step h
  rwa [Nat.zero_add, Nat.zero_add, List.nil_append] at hcourse

theorem Course.trans (h : Course came went expelled l l') (h' : Course came' went' expelled' l' l'') :
    Course (came + came') (went + went') (expelled ++ expelled') l l'' := by
  induction h' with
  | refl =>
    rw [List.append_nil]
    exact h
  | step _ hlast ih =>
    rw [← Nat.add_assoc, ← Nat.add_assoc, ← List.append_assoc]
    exact (ih h).step hlast

/-- So many names come and so many go by themselves, whichever records make way. -/
def Counted (came went : Nat) (l l' : Ledger) : Prop :=
  ∃ expelled, Course came went expelled l l'

theorem Counted.refl : Counted 0 0 l l := ⟨[], .refl⟩

theorem Counted.trans (h : Counted came went l l') (h' : Counted came' went' l' l'') :
    Counted (came + came') (went + went') l l'' := by
  obtain ⟨expelled, h⟩ := h
  obtain ⟨expelled', h'⟩ := h'
  exact ⟨expelled ++ expelled', h.trans h'⟩

theorem Change.counted (h : Change came went expelled l l') : Counted came went l l' :=
  ⟨expelled, h.course⟩

theorem Change.grows (h : Change came went expelled l l') : l.tree.Grows l'.tree := by
  obtain ⟨clock, hedit⟩ : ∃ clock, Edit {} clock l l' := by
    cases h with
    | bind hadd => exact ⟨fun _ => 0, .bind trivial hadd⟩
    | unbind hremove => exact ⟨_, .unbind hremove⟩
    | replace hold => exact ⟨_, .replace trivial hold fun _ _ => trivial⟩
    | insert hfree => exact ⟨fun _ => 0, .insert trivial hfree⟩
    | refresh => exact ⟨fun _ => 0, .refresh⟩
    | wait => exact ⟨_, .wait⟩
    | note => exact ⟨fun _ => 0, .note _⟩
  exact hedit.tree.grows

/-! ### Journal and log -/

/-- So many names have been reported to come, and so many to go. -/
def Observes (came went : Nat) (l l' : Ledger) : Prop :=
  ∃ observed, l'.journal = l.journal ++ observed ∧
    observed.countP (·.kind = .linked) = came ∧ observed.countP (·.kind = .unlinked) = went

/-- These are the records of which the log tells that they were destroyed at once. -/
def Expels (expelled : List InodeId) (l l' : Ledger) : Prop :=
  ∃ events, l'.log = l.log ++ events ∧ events.filterMap LogEvent.invalidated? = expelled

theorem Observes.of_eq (h : l'.journal = l.journal) : Observes 0 0 l l' :=
  ⟨[], by rw [h, List.append_nil], rfl, rfl⟩

theorem Observes.trans (h : Observes came went l l') (h' : Observes came' went' l' l'') :
    Observes (came + came') (went + went') l l'' := by
  obtain ⟨observed, hjournal, rfl, rfl⟩ := h
  obtain ⟨observed', hjournal', rfl, rfl⟩ := h'
  refine ⟨observed ++ observed', ?_, List.countP_append, List.countP_append⟩
  rw [hjournal', hjournal, List.append_assoc]

theorem Expels.of_eq (h : l'.log = l.log) : Expels [] l l' :=
  ⟨[], by rw [h, List.append_nil], rfl⟩

theorem Expels.trans {xs xs' : List InodeId} (h : Expels xs l l') (h' : Expels xs' l' l'') :
    Expels (xs ++ xs') l l'' := by
  obtain ⟨events, hlog, rfl⟩ := h
  obtain ⟨events', hlog', rfl⟩ := h'
  refine ⟨events ++ events', ?_, List.filterMap_append⟩
  rw [hlog', hlog, List.append_assoc]

theorem expels_note (l : Ledger) {event : LogEvent} (h : event.invalidated? = none) :
    Expels [] l (l.note event) :=
  ⟨[event], rfl, by simp [h]⟩

theorem expels_insertRecord (l : Ledger) (a : Attributes) (token : IdentityToken) :
    Expels [] l (l.insertRecord a token).2 := by
  unfold insertRecord
  simp only
  split
  · exact expels_note _ rfl
  · exact .of_eq rfl

/-! ### Records that make way -/

theorem expels_foldl_detach (clock : Clock) (x : InodeId) (l : Ledger) (entries : List EntryId) :
    Expels [] l (entries.foldl (detach clock x) l) := by
  induction entries generalizing l with
  | nil => exact .of_eq rfl
  | cons e rest ih =>
    have hfirst : Expels [] l (detach clock x l e) := by
      unfold detach
      cases hremove : l.removeEntry clock e with
      | ok l' =>
        obtain ⟨t, o, -, rfl⟩ := removeEntry_eq_ok hremove
        exact .of_eq rfl
      | error err => exact expels_note l rfl
    exact hfirst.trans (ih (detach clock x l e))

theorem expels_invalidate (l : Ledger) (clock : Clock) {r : InodeRecord} (hr : l.tree.record? x = some r) :
    Expels [x] l (l.invalidate clock x) := by
  have hdetached := expels_foldl_detach clock x l (r.links.elements ++ r.childList.map Prod.snd)
  have hlive := isLive_foldl_detach clock x l (r.links.elements ++ r.childList.map Prod.snd) x
  obtain ⟨r', hr'⟩ := isLive_iff.1 (hlive.trans (isLive_iff.2 ⟨r, hr⟩))
  obtain ⟨inodes, hremove⟩ := exists_remove_of_some hr'
  refine hdetached.trans ⟨[.invalidated x], ?_, rfl⟩
  simp only [invalidate, destroy, hr, dropRecord_of_some hremove]
  rfl

/-- Each name that is lost with a record is reported to go. -/
theorem observes_invalidate (hl : l.tree.Formed) (fits : l.tree.Fits) (clock : Clock) {r : InodeRecord}
    (hr : l.tree.record? x = some r) :
    Observes 0 (Expulsion.names ⟨l.tree, x⟩).length l (l.invalidate clock x) := by
  have hexpelled := expelled_invalidate hl clock hr
  obtain ⟨es, os, hnodup, hgone, hjournal, hreports⟩ := hexpelled.reported
  -- what has gone is told apart by its ends, and what was reported by its having gone
  have hnames : ∀ e, e ∈ es ↔ e ∈ Expulsion.names ⟨l.tree, x⟩ := by
    intro e
    rw [hgone, Expulsion.mem_names fits, holds_iff, holds_iff]
    simp only [hexpelled.entryOf?_eq_some_iff]
    constructor
    · rintro ⟨⟨b, hb⟩, hnot⟩
      exact ⟨b, hb, by_contra fun hends => hnot ⟨b, hb, not_or.1 hends⟩⟩
    · rintro ⟨b, hb, hends⟩
      refine ⟨⟨b, hb⟩, ?_⟩
      rintro ⟨b', hb', hparent, hchild⟩
      cases hb.symm.trans hb'
      exact hends.elim hparent hchild
  have hlength := ((List.perm_ext_iff_of_nodup hnodup (Expulsion.nodup_names fits)).2 hnames).length_eq
  obtain ⟨hlinked, hunlinked⟩ := count_of_reports hreports
  exact ⟨os, hjournal, hlinked, hunlinked.trans hlength⟩

/-- The number of a record that makes way is free then. -/
theorem lookupIno_invalidate_of_formed (hl : l.tree.Formed) (clock : Clock) {ino : UInt64}
    (hold : l.tree.lookupIno ino = some x) : (l.invalidate clock x).tree.lookupIno ino = none := by
  obtain ⟨r, hr, -⟩ := (hl.ino_iff ino x).1 hold
  rw [Option.eq_none_iff_forall_ne_some]
  intro i hi
  obtain ⟨hi, hne⟩ := ((expelled_invalidate hl clock hr).lookupIno_eq_some_iff ino i).1 hi
  exact hne (Option.some.inj (hi.symm.trans hold))

/-! ### Accounts -/

/-- What journal, log and tree tell afterwards. If no name has come or gone by itself, just the names in
and of the records that made way are missing. -/
structure Account (came went : Nat) (expelled : List Expulsion) (l l' : Ledger) : Prop where
  formed : l'.tree.Formed
  observes : Observes came (went + (expelled.flatMap Expulsion.names).length) l l'
  expels : Expels (expelled.map Expulsion.record) l l'
  kept : came = 0 → went = 0 → ∀ e b, l'.tree.entryOf? e = some b ↔
    l.tree.entryOf? e = some b ∧ ∀ x ∈ expelled, b.parent ≠ x.record ∧ b.child ≠ x.record

theorem Account.trans (h : Account came went expelled l l')
    (h' : Account came' went' expelled' l' l'') :
    Account (came + came') (went + went') (expelled ++ expelled') l l'' where
  formed := h'.formed
  observes := by
    rw [List.flatMap_append, List.length_append, Nat.add_add_add_comm]
    exact h.observes.trans h'.observes
  expels := by
    rw [List.map_append]
    exact h.expels.trans h'.expels
  kept hcame hwent e b := by
    obtain ⟨hcame, hcame'⟩ := Nat.add_eq_zero_iff.1 hcame
    obtain ⟨hwent, hwent'⟩ := Nat.add_eq_zero_iff.1 hwent
    rw [h'.kept hcame' hwent', h.kept hcame hwent, List.forall_mem_append, and_assoc]

/-- No name comes or goes. -/
theorem Account.of_entries (hformed : l'.tree.Formed) (hentries : l'.tree.entries = l.tree.entries)
    (hjournal : l'.journal = l.journal) (hexpels : Expels [] l l') : Account 0 0 [] l l' where
  formed := hformed
  observes := .of_eq hjournal
  expels := hexpels
  kept _ _ e b := by
    rw [entryOf?, hentries]
    simp [entryOf?]

/-- A record is put in the place of one that makes way. -/
theorem account_replace (hl : l.tree.Formed) (hfits : l.tree.Fits) {a : Attributes} {token : IdentityToken}
    (fits : ((l.invalidate clock x).insertRecord a token).2.tree.Fits)
    (hold : l.tree.lookupIno a.ino = some x) :
    Account 0 0 [⟨l.tree, x⟩] l ((l.invalidate clock x).insertRecord a token).2 := by
  obtain ⟨r, hr, -⟩ := (hl.ino_iff _ x).1 hold
  -- the tree between the two steps would not tell that the number is free
  have hfree := lookupIno_invalidate_of_formed hl clock hold
  have hmid : (l.invalidate clock x).tree.Formed := by
    rw [tree_invalidate]
    exact (trimmed_destroy hl x).formed
  have hjournal := journal_insertRecord (l.invalidate clock x) a token
  have hexpels := (expels_invalidate l clock hr).trans (expels_insertRecord _ a token)
  rw [tree_insertRecord] at fits
  refine ⟨?_, ?_, hexpels, fun _ _ e b => ?_⟩
  · rw [tree_insertRecord]
    exact (hmid.insertRecord hfree fits).1
  · rw [List.flatMap_singleton, Nat.zero_add]
    exact (observes_invalidate hl hfits clock hr).trans (.of_eq hjournal)
  · rw [tree_insertRecord, List.forall_mem_singleton]
    exact (expelled_invalidate hl clock hr).entryOf?_eq_some_iff e b

/-- What is told of one change. -/
theorem Change.account (h : Change came went expelled l l') (hl : l.tree.Formed) (fits : l'.tree.Fits) :
    Account came went expelled l l' := by
  have hfits : l.tree.Fits := h.grows.fits fits
  cases h with
  | bind hadd =>
    obtain ⟨t, o, htree, rfl⟩ := addEntry_eq_ok hadd
    have hkind := kind_addEntry htree
    obtain ⟨⟨r, hchild⟩, ⟨r', hparent, hdir, hfree⟩, -, rfl⟩ := Tree.addEntry_eq_ok htree
    exact ⟨(hl.withEntry hchild hparent hdir hfree fits).1,
      ⟨[o], rfl, by simp [hkind], by simp [hkind]⟩, .of_eq rfl, nofun⟩
  | unbind hremove =>
    obtain ⟨t, o, htree, rfl⟩ := removeEntry_eq_ok hremove
    have hkind := kind_removeEntry htree
    obtain ⟨b, entries, hentry, -⟩ := Tree.removeEntry_eq_ok htree
    exact ⟨(hl.removeEntry (Arena.get?_of_remove hentry) htree).1,
      ⟨[o], rfl, by simp [hkind], by simp [hkind]⟩, .of_eq rfl, nofun⟩
  | replace hold => exact account_replace hl hfits fits hold
  | @insert _ a token hfree =>
    rw [tree_insertRecord] at fits
    refine .of_entries ?_ ?_ (journal_insertRecord l a token) (expels_insertRecord l a token)
    · rw [tree_insertRecord]
      exact (hl.insertRecord hfree fits).1
    · rw [tree_insertRecord]
      rfl
  | refresh => exact .of_entries (hl.refreshFingerprint _ _).1 rfl rfl (.of_eq rfl)
  | wait => exact .of_entries (hl.orphanIfUnlinked _ _) (entries_orphanIfUnlinked _ _) rfl (.of_eq rfl)
  | note hevent => exact .of_entries hl rfl rfl (expels_note l hevent)

/-- What is told of a course. -/
theorem Course.account (h : Course came went expelled l l') (hl : l.tree.Formed) (fits : l'.tree.Fits) :
    Account came went expelled l l' := by
  induction h with
  | refl => exact .of_entries hl rfl rfl (.of_eq rfl)
  | step _ hlast ih =>
    have hfirst := ih hl (hlast.grows.fits fits)
    exact hfirst.trans (hlast.account hfirst.formed fits)

end Ledger

end TreeWatch

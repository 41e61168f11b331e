import TreeWatch.Proofs.Agreement.Current
import TreeWatch.Proofs.Garbage.Queue
import TreeWatch.Proofs.Journal.Replay

/-!
# Entries that go

Unbinding names and destroying records take entries out of a tree, and nothing else happens to the
records that stay: each is what it was without those entries, and its other names keep their order. Every
entry that goes is reported once.

## Main definitions

- `InodeRecord.restrict` : a record without some of its entries
- `Tree.Reports` : an observation tells that an entry has gone
- `Ledger.Trimmed` : entries and records have gone, and nothing else has happened

## Main results

- `Ledger.Trimmed.trans` : so it is of both together what is so of each
- `Ledger.trimmed_destroy`, `Ledger.trimmed_reclaim` : destroying and reclaiming do nothing else
- `Ledger.entryOf?_destroy` : which entries go with a record

## Design notes

Nothing is assumed of the records that wait, so that all this holds of any tree whose records and entries
agree.
-/

namespace TreeWatch

/-! ### Parts of maps -/

theorem OrderedMap.distinct_filter {κ α : Type} (m : OrderedMap κ α) (keep : κ × α → Bool) :
    (Assoc.keys (m.toList.filter keep)).Nodup :=
  m.distinct.sublist (List.filter_sublist.map _)

/-- The pairs whose values are kept, in the same order. -/
def OrderedMap.filter {κ α : Type} (m : OrderedMap κ α) (keep : α → Bool) : OrderedMap κ α where
  toList := m.toList.filter fun p => keep p.2
  distinct := m.distinct_filter _

/-- The elements that are kept. -/
def SortedSet.filter {κ : Type} [Ord κ] (s : SortedSet κ) (keep : κ → Bool) : SortedSet κ where
  toList := s.toList.filter fun p => keep p.1
  sorted := s.sorted.sublist (List.filter_sublist.map _)

/-- The elements that are kept are in the same order. -/
theorem SortedSet.elements_filter {κ : Type} [Ord κ] (s : SortedSet κ) (keep : κ → Bool) :
    (s.filter keep).elements = s.elements.filter keep := by
  simp [SortedSet.elements, SortedMap.keys, filter, List.filter_map, Function.comp_def]

namespace InodeRecord

variable {r : InodeRecord} {keep keep' : EntryId → Bool} {name : Bytes} {e : EntryId}

/-- The record without the entries that are not kept. -/
def restrict (r : InodeRecord) (keep : EntryId → Bool) : InodeRecord :=
  { r with
    links := SortedSet.filter r.links keep
    children := r.children.map (·.filter keep) }

/-- The entry binds the record or is inside it. -/
def Mentions (r : InodeRecord) (e : EntryId) : Prop :=
  r.links.contains e ∨ ∃ name, r.childEntryOf? name = some e

@[simp] theorem identity_restrict : (r.restrict keep).identity = r.identity := rfl

@[simp] theorem isDirectory_restrict : (r.restrict keep).isDirectory = r.isDirectory := by
  simp [restrict, isDirectory]

/-- The entries that are kept are in the same order. -/
theorem childList_restrict : (r.restrict keep).childList = r.childList.filter fun p => keep p.2 := by
  cases hchildren : r.children with
  | none => simp [restrict, childList, hchildren]
  | some children => simp [restrict, childList, hchildren, OrderedMap.filter]

theorem restrict_restrict :
    (r.restrict keep).restrict keep' = r.restrict fun e => keep e && keep' e := by
  have hlinks : SortedSet.filter (SortedSet.filter r.links keep) keep' =
      SortedSet.filter r.links fun e => keep e && keep' e := by
    apply SortedMap.ext
    simp [SortedSet.filter, List.filter_filter, Bool.and_comm]
  have hchildren : (r.children.map (·.filter keep)).map (·.filter keep') =
      r.children.map (·.filter fun e => keep e && keep' e) := by
    rw [Option.map_map]
    congr 1
    funext m
    apply OrderedMap.ext
    simp [OrderedMap.filter, List.filter_filter, Bool.and_comm]
  simp only [restrict, hlinks, hchildren]

/-- Only the entries of the record matter. -/
theorem restrict_congr (h : ∀ e, r.Mentions e → keep e = keep' e) :
    r.restrict keep = r.restrict keep' := by
  have hlinks : SortedSet.filter r.links keep = SortedSet.filter r.links keep' := by
    apply SortedMap.ext
    refine List.filter_congr fun p hp => h p.1 (.inl ?_)
    exact (SortedSet.mem_elements _ _).1 (List.mem_map_of_mem hp)
  have hchildren : r.children.map (·.filter keep) = r.children.map (·.filter keep') := by
    cases hmap : r.children with
    | none => rfl
    | some children =>
      refine congrArg some (OrderedMap.ext (List.filter_congr fun p hp => h p.2 (.inr ⟨p.1, ?_⟩)))
      rw [childEntryOf?, hmap, Option.bind_some, OrderedMap.get?_eq_some_iff]
      exact hp
  simp only [restrict, hlinks, hchildren]

theorem restrict_true : (r.restrict fun _ => true) = r := by
  have hlinks : (SortedSet.filter r.links fun _ => true) = r.links :=
    SortedMap.ext (List.filter_true _)
  have hchildren : (r.children.map (·.filter fun _ => true)) = r.children := by
    cases r.children with
    | none => rfl
    | some children => exact congrArg some (OrderedMap.ext (List.filter_true _))
  simp only [restrict, hlinks, hchildren]

/-- A record all of whose entries are kept stays as it is. -/
theorem restrict_eq_self (h : ∀ e, r.Mentions e → keep e) : r.restrict keep = r :=
  (restrict_congr h).trans restrict_true

/-- A record all of whose names are kept loses links only. -/
theorem restrict_of_children (h : ∀ name e, r.childEntryOf? name = some e → keep e) :
    r.restrict keep = { r with links := SortedSet.filter r.links keep } := by
  have hchildren : r.children.map (·.filter keep) = r.children := by
    cases hmap : r.children with
    | none => rfl
    | some children =>
      refine congrArg some (OrderedMap.ext (List.filter_eq_self.2 fun p hp => h p.1 p.2 ?_))
      rw [childEntryOf?, hmap, Option.bind_some, OrderedMap.get?_eq_some_iff]
      exact hp
  simp only [restrict, hchildren]

/-! ### Without one entry -/

theorem links_filter_ne (h : ¬r.links.contains e) :
    SortedSet.filter r.links (fun e' => decide (e' ≠ e)) = r.links := by
  refine SortedMap.ext (List.filter_eq_self.2 fun p hp => ?_)
  have hmem : r.links.contains p.1 := (SortedSet.mem_elements _ _).1 (List.mem_map_of_mem hp)
  rw [decide_eq_true_iff]
  rintro rfl
  exact h hmem

theorem children_filter_ne (h : ∀ name, r.childEntryOf? name ≠ some e) :
    r.children.map (·.filter fun e' => decide (e' ≠ e)) = r.children := by
  cases hmap : r.children with
  | none => rfl
  | some children =>
    refine congrArg some (OrderedMap.ext (List.filter_eq_self.2 fun p hp => ?_))
    rw [decide_eq_true_iff]
    rintro rfl
    refine h p.1 ?_
    rw [childEntryOf?, hmap, Option.bind_some, OrderedMap.get?_eq_some_iff]
    exact hp

/-- Where an entry has one name, taking out the entry is taking out the name. -/
theorem children_erase (h : ∀ name', r.childEntryOf? name' = some e ↔ name' = name) :
    r.children.map (·.erase name) = r.children.map (·.filter fun e' => decide (e' ≠ e)) := by
  cases hmap : r.children with
  | none => rfl
  | some children =>
    refine congrArg some (OrderedMap.ext (List.filter_congr fun p hp => ?_))
    have hget : r.childEntryOf? p.1 = some p.2 := by
      rw [childEntryOf?, hmap, Option.bind_some, OrderedMap.get?_eq_some_iff]
      exact hp
    refine decide_eq_decide.2 (not_congr ⟨fun hname => ?_, fun he => ?_⟩)
    · rw [hname, (h name).2 rfl] at hget
      exact (Option.some.inj hget).symm
    · exact (h p.1).1 (he ▸ hget)

end InodeRecord

namespace Tree

variable {t t' : Tree} {i j : InodeId} {e : EntryId} {b : DirectoryEntry} {now : Instant}
  {o : Observation}

/-- Whether the entry is in the tree. -/
def holds (t : Tree) (e : EntryId) : Bool := (t.entryOf? e).isSome

/-- The observation tells that an entry of the tree has gone. -/
structure Reports (t : Tree) (e : EntryId) (o : Observation) : Prop where
  kind : o.kind = .unlinked
  binding : ∃ b, t.entryOf? e = some b ∧ (∃ directory : Path, o.path = directory.join b.name) ∧
    t.number? b.child = some o.ino ∧ t.number? b.parent = some o.parentIno

theorem holds_iff : t.holds e ↔ ∃ b, t.entryOf? e = some b := Option.isSome_iff_exists

/-! ### Records and their entries -/

theorem Consistent.mentions_iff (h : t.Consistent) {r : InodeRecord} (hr : t.record? i = some r) :
    r.Mentions e ↔ ∃ b, t.entryOf? e = some b ∧ (b.child = i ∨ b.parent = i) := by
  simp only [InodeRecord.Mentions, h.link_iff hr, h.child_iff hr]
  constructor
  · rintro (⟨b, hb, hchild⟩ | ⟨name, b, hb, hparent, -⟩)
    · exact ⟨b, hb, .inl hchild⟩
    · exact ⟨b, hb, .inr hparent⟩
  · rintro ⟨b, hb, hchild | hparent⟩
    · exact .inl ⟨b, hb, hchild⟩
    · exact .inr ⟨b.name, b, hb, hparent, rfl⟩

/-- A record has no entries but those of its tree. -/
theorem Consistent.restrict_holds (h : t.Consistent) {r : InodeRecord} (hr : t.record? i = some r) :
    r.restrict t.holds = r :=
  InodeRecord.restrict_eq_self fun _ he =>
    holds_iff.2 (((h.mentions_iff hr).1 he).imp fun _ hb => hb.1)

/-- No entry binds what has no links. -/
theorem Formed.bound_iff (h : t.Formed) {r : InodeRecord} (hr : t.record? i = some r) :
    t.Bound i ↔ ¬r.isUnlinked :=
  h.sound.bound_iff hr

/-- An entry that is unbound goes out of every record, and nothing else does. -/
theorem Consistent.record?_withoutEntry (h : t.Consistent) {entries : Arena DirectoryEntry}
    (hb : t.entryOf? e = some b) (j : InodeId) :
    (t.withoutEntry e b entries).record? j =
      (t.record? j).map (·.restrict fun e' => decide (e' ≠ e)) := by
  rw [Tree.record?_withoutEntry]
  cases hr : t.record? j with
  | none => rfl
  | some r =>
    simp only [Option.map_some, Option.some.injEq]
    have hlink : r.links.contains e ↔ j = b.child := by
      rw [h.link_iff hr, hb]
      simp [eq_comm]
    have hname : ∀ name, r.childEntryOf? name = some e ↔ j = b.parent ∧ name = b.name := by
      intro name
      rw [h.child_iff hr, hb]
      simp [eq_comm]
    have hlinks : (if j = b.child then r.links.erase e else r.links) =
        SortedSet.filter r.links fun e' => decide (e' ≠ e) := by
      split
      · rfl
      · next hne => exact (InodeRecord.links_filter_ne (mt hlink.1 hne)).symm
    have hchildren : (if j = b.parent then r.children.map (·.erase b.name) else r.children) =
        r.children.map (·.filter fun e' => decide (e' ≠ e)) := by
      split
      · next heq => exact InodeRecord.children_erase fun name => (hname name).trans (and_iff_right heq)
      · next hne =>
        exact (InodeRecord.children_filter_ne fun name hget => hne ((hname name).1 hget).1).symm
    rw [InodeRecord.restrict, ← hlinks, ← hchildren]
    split <;> split <;> rfl

theorem Consistent.reports_removeEntry (h : t.Consistent) (hremove : t.removeEntry now e = .ok (t', o)) :
    t.Reports e o := by
  obtain ⟨b, entries, hentry, -⟩ := removeEntry_eq_ok hremove
  have hb : t.entryOf? e = some b := Arena.get?_of_remove hentry
  rw [removeEntry_of_bound hentry] at hremove
  cases hremove
  obtain ⟨m, hparent⟩ := exists_number? (h.parent_live hb)
  obtain ⟨n, hchild⟩ := exists_number? (h.child_live hb)
  refine ⟨rfl, b, hb, ⟨_, rfl⟩, ?_, ?_⟩
  · rw [inoOf_of_number? hchild, hchild]
  · rw [inoOf_of_number? hparent, hparent]

/-! ### Records that wait -/

theorem waitsSince?_waitIfUnlinked_of_bound (h : t.Formed) (hbound : t.Bound i ∨ t.root = some i) :
    (t.waitIfUnlinked i now).waitsSince? i = t.waitsSince? i := by
  unfold waitIfUnlinked
  split
  · next r hr =>
    rw [if_neg]
    rintro ⟨hunlinked, hroot⟩
    exact hbound.elim (fun hbound => (h.bound_iff hr).1 hbound hunlinked) hroot
  · rfl

theorem waitsSince?_waitIfUnlinked_of_loose (h : t.Formed) {r : InodeRecord}
    (hr : t.record? i = some r) (hbound : ¬t.Bound i) (hroot : t.root ≠ some i) :
    (t.waitIfUnlinked i now).waitsSince? i = some now := by
  have hunlinked : r.isUnlinked := not_not.1 (mt (h.bound_iff hr).2 hbound)
  have hwaits : t.waitIfUnlinked i now = t.startWaiting i now := by
    simp only [waitIfUnlinked, hr]
    exact if_pos ⟨hunlinked, hroot⟩
  rw [hwaits, waitsSince?_startWaiting, if_pos rfl]

theorem Formed.dropRecord (h : t.Formed) {r : InodeRecord} (hr : t.record? i = some r)
    (halone : ∀ e b, t.entryOf? e = some b → b.parent ≠ i ∧ b.child ≠ i) :
    (t.dropRecord i).2.Formed := by
  obtain ⟨inodes, hremove⟩ := exists_remove_of_some hr
  have hsound := h.sound.dropRecord hr halone
  rw [dropRecord_of_some hremove]
  rw [dropRecord_of_some (t := { t with orphans := .empty }) hremove] at hsound
  exact hsound.formed rfl rfl rfl

end Tree

namespace Ledger

open TreeWatch.Tree

variable {l l' l'' : Ledger} {clock : Clock} {deadline : Instant} {i j x : InodeId} {e : EntryId}

/-- Every entry that has gone has been reported once, and nothing else has been reported. -/
def Reported (l l' : Ledger) : Prop :=
  ∃ es os, es.Nodup ∧ (∀ e, e ∈ es ↔ l.tree.holds e ∧ ¬l'.tree.holds e) ∧
    l'.journal = l.journal ++ os ∧ List.Forall₂ l.tree.Reports es os

/-- Entries and records have gone, and nothing else has happened to the records that
are left than that some of them have lost entries. -/
structure Trimmed (clock : Clock) (l l' : Ledger) : Prop where
  formed : l'.tree.Formed
  record : ∀ {i r'}, l'.tree.record? i = some r' →
    ∃ r, l.tree.record? i = some r ∧ r' = r.restrict l'.tree.holds
  entry : ∀ {e b}, l'.tree.entryOf? e = some b → l.tree.entryOf? e = some b
  root : ∀ {i}, l'.tree.isLive i → (l'.tree.root = some i ↔ l.tree.root = some i)
  reads_le : l.reads ≤ l'.reads
  /-- What has lost its last entry has begun to wait when the clock was read, but for the root. -/
  lost : ∀ {i}, l'.tree.isLive i → l.tree.Bound i → ¬l'.tree.Bound i → l.tree.root ≠ some i →
    ∃ k, l.reads ≤ k ∧ k < l'.reads ∧ l'.tree.waitsSince? i = some (clock k)
  kept : ∀ {i}, l'.tree.isLive i → (l.tree.Bound i → l'.tree.Bound i ∨ l.tree.root = some i) →
    l'.tree.waitsSince? i = l.tree.waitsSince? i
  reported : l.Reported l'

theorem Reported.refl (htree : ∀ e, l'.tree.holds e = l.tree.holds e)
    (hjournal : l'.journal = l.journal) : l.Reported l' := by
  refine ⟨[], [], List.nodup_nil, fun e => ?_, ?_, .nil⟩
  · rw [htree]
    simp
  · rw [hjournal, List.append_nil]

namespace Trimmed

theorem live_back (h : Trimmed clock l l') (hi : l'.tree.isLive i) : l.tree.isLive i := by
  obtain ⟨r', hr'⟩ := isLive_iff.1 hi
  obtain ⟨r, hr, -⟩ := h.record hr'
  exact isLive_iff.2 ⟨r, hr⟩

theorem bound_back (h : Trimmed clock l l') (hi : l'.tree.Bound i) : l.tree.Bound i :=
  hi.imp fun _ => Exists.imp fun _ => And.imp_left h.entry

theorem holds_back (h : Trimmed clock l l') (he : l'.tree.holds e) : l.tree.holds e :=
  holds_iff.2 ((holds_iff.1 he).imp fun _ => h.entry)

theorem number?_back (h : Trimmed clock l l') {ino : UInt64} (hi : l'.tree.number? i = some ino) :
    l.tree.number? i = some ino := by
  obtain ⟨r', hr', rfl⟩ := Option.map_eq_some_iff.1 hi
  obtain ⟨r, hr, rfl⟩ := h.record hr'
  rw [number?, hr]
  rfl

/-- What is reported of a later tree was so before. -/
theorem reports_back (h : Trimmed clock l l') {o : Observation} (ho : l'.tree.Reports e o) :
    l.tree.Reports e o := by
  obtain ⟨hkind, b, hb, hpath, hchild, hparent⟩ := ho
  exact ⟨hkind, b, h.entry hb, hpath, h.number?_back hchild, h.number?_back hparent⟩

/-- Nothing has gone. -/
theorem of_eq (h : l'.tree.Formed) (hrecord : ∀ i, l'.tree.record? i = l.tree.record? i)
    (hentry : ∀ e, l'.tree.entryOf? e = l.tree.entryOf? e) (hroot : l'.tree.root = l.tree.root)
    (hwaits : ∀ i, l'.tree.isLive i → l'.tree.waitsSince? i = l.tree.waitsSince? i)
    (hjournal : l'.journal = l.journal) (hreads : l'.reads = l.reads) : Trimmed clock l l' where
  formed := h
  record {i r'} hr' := ⟨r', hrecord i ▸ hr', (h.restrict_holds hr').symm⟩
  entry he := hentry _ ▸ he
  root _ := by rw [hroot]
  reads_le := hreads.ge
  lost _ hbound hloose _ :=
    absurd (hbound.imp fun _ => Exists.imp fun _ => And.imp_left (hentry _).trans) hloose
  kept hi _ := hwaits _ hi
  reported := .refl (fun e => by rw [holds, hentry, holds]) hjournal

theorem refl (h : l.tree.Formed) : Trimmed clock l l :=
  .of_eq h (fun _ => rfl) (fun _ => rfl) rfl (fun _ _ => rfl) rfl rfl

theorem reported_trans (h : Trimmed clock l l') (h' : Trimmed clock l' l'') : l.Reported l'' := by
  obtain ⟨es, os, hnodup, hmem, hjournal, hreports⟩ := h.reported
  obtain ⟨es', os', hnodup', hmem', hjournal', hreports'⟩ := h'.reported
  refine ⟨es ++ es', os ++ os', List.nodup_append.2 ⟨hnodup, hnodup', ?_⟩, fun e => ?_, ?_, ?_⟩
  · rintro e he e' he' rfl
    exact ((hmem e).1 he).2 ((hmem' e).1 he').1
  · rw [List.mem_append, hmem, hmem']
    by_cases hmid : l'.tree.holds e
    · simp [hmid, h.holds_back hmid]
    · have hgone : ¬l''.tree.holds e := mt h'.holds_back hmid
      simp [hmid, hgone]
  · rw [hjournal', hjournal, List.append_assoc]
  · exact List.rel_append hreports (hreports'.imp fun _ _ => h.reports_back)

theorem trans (h : Trimmed clock l l') (h' : Trimmed clock l' l'') : Trimmed clock l l'' where
  formed := h'.formed
  record hr'' := by
    obtain ⟨r', hr', rfl⟩ := h'.record hr''
    obtain ⟨r, hr, rfl⟩ := h.record hr'
    refine ⟨r, hr, ?_⟩
    rw [InodeRecord.restrict_restrict]
    refine InodeRecord.restrict_congr fun e _ => ?_
    rw [Bool.and_eq_right_iff_imp]
    exact h'.holds_back
  entry he := h.entry (h'.entry he)
  root hi := (h'.root hi).trans (h.root (h'.live_back hi))
  reads_le := h.reads_le.trans h'.reads_le
  lost {i} hi hbound hloose hroot := by
    have hlive := h'.live_back hi
    by_cases hmid : l'.tree.Bound i
    · obtain ⟨k, hle, hlt, hk⟩ := h'.lost hi hmid hloose (mt (h.root hlive).1 hroot)
      exact ⟨k, h.reads_le.trans hle, hlt, hk⟩
    · rw [h'.kept hi fun hmid' => absurd hmid' hmid]
      obtain ⟨k, hle, hlt, hk⟩ := h.lost hlive hbound hmid hroot
      exact ⟨k, hle, hlt.trans_le h'.reads_le, hk⟩
  kept {i} hi hkept := by
    have hlive := h'.live_back hi
    rw [h'.kept hi fun hmid => (hkept (h.bound_back hmid)).imp_right (h.root hlive).2]
    exact h.kept hlive fun hbound => (hkept hbound).imp_left h'.bound_back
  reported := h.reported_trans h'

end Trimmed

/-! ### Unbinding names -/

theorem entryOf?_removeEntry {t t' : Tree} {o : Observation} (hremove : t.removeEntry now e = .ok (t', o))
    (e' : EntryId) : t'.entryOf? e' = if e' = e then none else t.entryOf? e' := by
  obtain ⟨b, entries, hentry, rfl⟩ := Tree.removeEntry_eq_ok hremove
  have hframe := waitIfUnlinked_frame (t := t.withoutEntry e b entries) now b.child
  rw [hframe.2.1, entryOf?_withoutEntry hentry]

theorem record?_removeEntry {t t' : Tree} {o : Observation} (h : t.Consistent)
    (hremove : t.removeEntry now e = .ok (t', o)) (j : InodeId) :
    t'.record? j = (t.record? j).map (·.restrict fun e' => decide (e' ≠ e)) := by
  obtain ⟨b, entries, hentry, rfl⟩ := Tree.removeEntry_eq_ok hremove
  have hframe := waitIfUnlinked_frame (t := t.withoutEntry e b entries) now b.child
  rw [hframe.1, h.record?_withoutEntry (Arena.get?_of_remove hentry)]

theorem root_removeEntry {t t' : Tree} {o : Observation}
    (hremove : t.removeEntry now e = .ok (t', o)) : t'.root = t.root := by
  obtain ⟨b, entries, -, rfl⟩ := Tree.removeEntry_eq_ok hremove
  exact (waitIfUnlinked_frame (t := t.withoutEntry e b entries) now b.child).2.2.1

/-- The record at the lower end of an entry that goes may begin to wait, and no other one. -/
theorem waitsSince?_removeEntry {t t' : Tree} {o : Observation} (h : t.Formed)
    (hremove : t.removeEntry now e = .ok (t', o)) (hi : t'.isLive i) :
    (t.Bound i → ¬t'.Bound i → t.root ≠ some i → t'.waitsSince? i = some now) ∧
      ((t.Bound i → t'.Bound i ∨ t.root = some i) → t'.waitsSince? i = t.waitsSince? i) := by
  have hentries := entryOf?_removeEntry hremove
  obtain ⟨b, entries, hentry, rfl⟩ := Tree.removeEntry_eq_ok hremove
  have hb : t.entryOf? e = some b := Arena.get?_of_remove hentry
  have hunbound : (t.withoutEntry e b entries).Formed :=
    (h.sound.withoutEntry hentry).formed rfl rfl rfl
  have hframe := waitIfUnlinked_frame (t := t.withoutEntry e b entries) now b.child
  have hbound : ((t.withoutEntry e b entries).waitIfUnlinked b.child now).Bound i ↔
      (t.withoutEntry e b entries).Bound i := by
    simp only [Bound, hframe.2.1]
  by_cases hchild : i = b.child
  · subst hchild
    obtain ⟨r', hr'⟩ := isLive_iff.1 hi
    rw [hframe.1] at hr'
    exact ⟨fun _ hafter hroot =>
        waitsSince?_waitIfUnlinked_of_loose hunbound hr' (mt hbound.2 hafter) hroot,
      fun hkept => waitsSince?_waitIfUnlinked_of_bound hunbound
        ((hkept ⟨e, b, hb, rfl⟩).imp_left hbound.1)⟩
  · refine ⟨fun hbefore hafter _ => absurd ?_ hafter,
      fun _ => waitsSince?_waitIfUnlinked_of_ne _ _ hchild⟩
    obtain ⟨e', b', hb', rfl⟩ := hbefore
    refine ⟨e', b', ?_, rfl⟩
    rw [hentries, if_neg, hb']
    rintro rfl
    rw [hb] at hb'
    exact hchild (congrArg DirectoryEntry.child (Option.some.inj hb').symm)

theorem trimmed_removeEntry (h : l.tree.Formed) (hremove : l.removeEntry clock e = .ok l') :
    Trimmed clock l l' := by
  obtain ⟨t, o, htree, rfl⟩ := removeEntry_eq_ok hremove
  have hentries := entryOf?_removeEntry htree
  have hrecords := record?_removeEntry h.toConsistent htree
  have hwaits := fun i => waitsSince?_removeEntry (i := i) h htree
  have hreports := h.reports_removeEntry htree
  obtain ⟨b, entries, hentry, -⟩ := Tree.removeEntry_eq_ok htree
  have hb : l.tree.entryOf? e = some b := Arena.get?_of_remove hentry
  refine ⟨(h.removeEntry hb htree).1, fun {i r'} hr' => ?_, fun {e' b'} he' => ?_, fun {i} _ => ?_,
    Nat.le_succ _, fun {i} hi hbound hloose hroot => ?_, fun {i} hi => (hwaits i hi).2, ?_⟩
  · rw [hrecords, Option.map_eq_some_iff] at hr'
    obtain ⟨r, hr, rfl⟩ := hr'
    refine ⟨r, hr, InodeRecord.restrict_congr fun e' he' => ?_⟩
    obtain ⟨b', hb', -⟩ := (h.mentions_iff hr).1 he'
    rw [holds, hentries]
    by_cases hne : e' = e <;> simp [hne, hb']
  · rw [hentries] at he'
    split at he'
    · cases he'
    · exact he'
  · rw [root_removeEntry htree]
  · exact ⟨l.reads, Nat.le_refl _, Nat.lt_succ_self _, (hwaits i hi).1 hbound hloose hroot⟩
  · refine ⟨[e], [o], List.nodup_singleton e, fun e' => ?_, rfl, .cons hreports .nil⟩
    rw [List.mem_singleton, holds, holds, hentries]
    by_cases hne : e' = e
    · simp [hne, hb]
    · rw [if_neg hne]
      exact ⟨fun heq => absurd heq hne, fun hboth => absurd hboth.1 hboth.2⟩

theorem trimmed_detach (h : l.tree.Formed) (x : InodeId) (e : EntryId) :
    Trimmed clock l (detach clock x l e) := by
  unfold detach
  cases hremove : l.removeEntry clock e with
  | ok l' => exact trimmed_removeEntry h hremove
  | error err => exact .of_eq h (fun _ => rfl) (fun _ => rfl) rfl (fun _ _ => rfl) rfl rfl

theorem entryOf?_detach (l : Ledger) (x : InodeId) (e e' : EntryId) :
    (detach clock x l e).tree.entryOf? e' = if e' = e then none else l.tree.entryOf? e' := by
  unfold detach removeEntry
  cases hremove : l.tree.removeEntry (clock l.reads) e with
  | ok p => exact entryOf?_removeEntry hremove e'
  | error err =>
    -- met a second time: it has gone already
    have hgone : l.tree.entryOf? e = none := removeEntry_eq_error hremove
    by_cases he : e' = e
    · rw [if_pos he, he]
      exact hgone
    · rw [if_neg he]
      rfl

theorem trimmed_foldl_detach (h : l.tree.Formed) (x : InodeId) (entries : List EntryId) :
    Trimmed clock l (entries.foldl (detach clock x) l) := by
  induction entries generalizing l with
  | nil => exact .refl h
  | cons e rest ih =>
    have hfirst : Trimmed clock l (detach clock x l e) := trimmed_detach h x e
    exact hfirst.trans (ih hfirst.formed)

theorem entryOf?_foldl_detach (l : Ledger) (x : InodeId) (entries : List EntryId) (e : EntryId) :
    (entries.foldl (detach clock x) l).tree.entryOf? e =
      if e ∈ entries then none else l.tree.entryOf? e := by
  induction entries generalizing l with
  | nil => simp
  | cons e' rest ih =>
    rw [List.foldl_cons, ih, entryOf?_detach]
    by_cases he : e = e' <;> by_cases hmem : e ∈ rest <;> simp [he, hmem]

/-! ### Destroying records -/

theorem trimmed_dropRecord (h : l.tree.Formed) {r : InodeRecord} (hr : l.tree.record? x = some r)
    (halone : ∀ e b, l.tree.entryOf? e = some b → b.parent ≠ x ∧ b.child ≠ x) :
    Trimmed clock l { l with tree := (l.tree.dropRecord x).2 } := by
  have hne : ∀ {i}, (l.tree.dropRecord x).2.isLive i → i ≠ x := by
    rintro i hi rfl
    rw [isLive_iff, record?_dropRecord, if_pos rfl] at hi
    obtain ⟨r', hr'⟩ := hi
    cases hr'
  have hbound : ∀ {i}, (l.tree.dropRecord x).2.Bound i ↔ l.tree.Bound i := by
    intro i
    simp only [Bound, entryOf?_dropRecord]
  have hformed := h.dropRecord hr halone
  refine ⟨hformed, fun {i r'} hr' => ?_, fun {e b} he => ?_, fun {i} hi => ?_, Nat.le_refl _, ?_,
    fun {i} hi _ => ?_, .refl (fun e => ?_) rfl⟩
  · refine ⟨r', ?_, (hformed.restrict_holds hr').symm⟩
    rw [record?_dropRecord] at hr'
    split at hr'
    · cases hr'
    · exact hr'
  · rwa [entryOf?_dropRecord] at he
  · have hother := hne hi
    rw [root_dropRecord]
    split
    · next hroot =>
      rw [hroot]
      simp [Ne.symm hother]
    · rfl
  · exact fun _ hbefore hafter _ => absurd (hbound.2 hbefore) hafter
  · show (l.tree.dropRecord x).2.orphans.get? i = l.tree.orphans.get? i
    rw [orphans_dropRecord, OrderedMap.get?_erase, if_neg (hne hi)]
  · show (l.tree.dropRecord x).2.holds e = l.tree.holds e
    rw [holds, entryOf?_dropRecord, holds]

/-- Exactly the entries into a record and out of it go with the record. -/
theorem entryOf?_destroy (h : l.tree.Formed) (clock : Clock) {r : InodeRecord}
    (hr : l.tree.record? x = some r) {e : EntryId} {b : DirectoryEntry} :
    (l.destroy clock x).2.tree.entryOf? e = some b ↔
      l.tree.entryOf? e = some b ∧ b.parent ≠ x ∧ b.child ≠ x := by
  rw [snd_destroy clock x hr]
  show (Tree.dropRecord _ x).2.entryOf? e = some b ↔ _
  rw [entryOf?_dropRecord, entryOf?_foldl_detach]
  have hdoomed : e ∈ r.links.elements ++ r.childList.map Prod.snd ↔
      ∃ b, l.tree.entryOf? e = some b ∧ (b.child = x ∨ b.parent = x) := mem_doomed x h.sound hr e
  constructor
  · intro he
    split at he
    · cases he
    · next hnot =>
      refine ⟨he, fun hparent => hnot (hdoomed.2 ⟨b, he, .inr hparent⟩),
        fun hchild => hnot (hdoomed.2 ⟨b, he, .inl hchild⟩)⟩
  · rintro ⟨hb, hparent, hchild⟩
    rw [if_neg, hb]
    intro hmem
    obtain ⟨b', hb', hends⟩ := hdoomed.1 hmem
    rw [hb] at hb'
    cases hb'
    exact hends.elim hchild hparent

theorem isLive_destroy (l : Ledger) (clock : Clock) (x i : InodeId) :
    (l.destroy clock x).2.tree.isLive i ↔ i ≠ x ∧ l.tree.isLive i := by
  cases hr : l.tree.record? x with
  | none =>
    rw [destroy_of_none clock x hr]
    refine ⟨fun hi => ⟨?_, hi⟩, And.right⟩
    rintro rfl
    obtain ⟨r, hr'⟩ := isLive_iff.1 hi
    cases hr.symm.trans hr'
  | some r =>
    rw [snd_destroy clock x hr, ← isLive_foldl_detach clock x l
      (r.links.elements ++ r.childList.map Prod.snd) i, isLive_iff, isLive_iff]
    simp only [record?_dropRecord]
    by_cases hi : i = x <;> simp [hi]

/-- Destroying a record does nothing to the others but take the entries of the record from them. -/
theorem trimmed_destroy (h : l.tree.Formed) (x : InodeId) : Trimmed clock l (l.destroy clock x).2 := by
  cases hr : l.tree.record? x with
  | none =>
    rw [destroy_of_none clock x hr]
    refine .of_eq (h.sound.formed rfl rfl rfl) (fun _ => rfl) (fun _ => rfl) rfl (fun i hi => ?_) rfl rfl
    show (l.tree.orphans.erase x).get? i = l.tree.orphans.get? i
    rw [OrderedMap.get?_erase, if_neg]
    rintro rfl
    obtain ⟨r, hr'⟩ := isLive_iff.1 hi
    cases hr.symm.trans hr'
  | some r =>
    have hentry := fun {e b} => entryOf?_destroy h clock hr (e := e) (b := b)
    have hdetached : Trimmed clock l
        ((r.links.elements ++ r.childList.map Prod.snd).foldl (detach clock x) l) :=
      trimmed_foldl_detach h x _
    have hlive := isLive_foldl_detach clock x l (r.links.elements ++ r.childList.map Prod.snd) x
    rw [snd_destroy clock x hr] at hentry ⊢
    generalize (r.links.elements ++ r.childList.map Prod.snd).foldl (detach clock x) l = m at *
    obtain ⟨r', hr'⟩ := isLive_iff.1 (hlive.trans (isLive_iff.2 ⟨r, hr⟩))
    refine hdetached.trans (trimmed_dropRecord hdetached.formed hr' fun e b hb => ?_)
    exact (hentry.1 ((entryOf?_dropRecord e).trans hb)).2

theorem trimmed_destroyAll (h : l.tree.Formed) (inodes : List InodeId) :
    Trimmed clock l (l.destroyAll clock inodes).2 :=
  keep_destroyAll (P := Trimmed clock l) (fun _ x hl => hl.trans (trimmed_destroy hl.formed x)) inodes
    (.refl h)

/-- Reclaiming does nothing to the records that stay but take entries from them. -/
theorem trimmed_reclaim (h : l.tree.Formed) (deadline : Instant) :
    Trimmed clock l (l.reclaim clock deadline).2 :=
  keep_reclaim (P := Trimmed clock l) (fun _ x hl => hl.trans (trimmed_destroy hl.formed x)) deadline
    (.refl h)

end Ledger

end TreeWatch

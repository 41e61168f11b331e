import TreeWatch.Proofs.Tree.Sound

/-!
# Destroying records

Destroying a record unbinds every entry into and out of it and then takes it out. Whatever else is
in the tree stays.

## Main definitions

- `Tree.Detached` : the effect of unbinding some entries
- `Tree.Destroyed` : the effect of destroying a record

## Main results

- `Ledger.destroyed_destroy` : destroying a record has that effect
- `Ledger.sound_destroy` : the records and the entries still agree

## Design notes

An entry both into and out of a record is on the list of entries to unbind twice. Unbinding it a
second time fails and changes nothing.
-/

namespace TreeWatch

namespace Tree

/-- Unbinding an entry, whatever becomes of the object that it bound. -/
structure Detached (entries : List EntryId) (t t' : Tree) : Prop where
  sound : t'.Sound
  identity?_eq : ∀ i, t'.identity? i = t.identity? i
  entryOf?_eq : ∀ e, t'.entryOf? e = if e ∈ entries then none else t.entryOf? e
  root_eq : t'.root = t.root

/-- Destroying a record. -/
structure Destroyed (x : InodeId) (t t' : Tree) : Prop where
  sound : t'.Sound
  identity?_eq : ∀ i, t'.identity? i = if i = x then none else t.identity? i
  entryOf?_eq_some_iff : ∀ e b,
    t'.entryOf? e = some b ↔ t.entryOf? e = some b ∧ b.parent ≠ x ∧ b.child ≠ x
  root_eq : t'.root = if t.root = some x then none else t.root

theorem isLive_iff {t : Tree} {i : InodeId} : t.isLive i ↔ ∃ r, t.record? i = some r :=
  Option.isSome_iff_exists

theorem isLive_iff_identity? {t : Tree} {i : InodeId} : t.isLive i ↔ t.identity? i ≠ none := by
  rw [isLive_iff, Ne, identity?_eq_none_iff, ← Ne, Option.ne_none_iff_exists']

theorem isLive_modifyRecord {t : Tree} {i : InodeId} (j : InodeId) (f : InodeRecord → InodeRecord) :
    (t.modifyRecord j f).isLive i ↔ t.isLive i := by
  rw [isLive_iff, isLive_iff, record?_modifyRecord]
  cases t.record? i <;> simp

theorem isLive_insertRecord {t : Tree} {i : InodeId} (wf : t.inodes.WellFormed) {attributes : Attributes}
    {token : IdentityToken} (fits : (t.insertRecord attributes token).2.Fits) :
    (t.insertRecord attributes token).2.isLive i ↔
      i = (t.insertRecord attributes token).1 ∨ t.isLive i := by
  rw [isLive_iff, isLive_iff, record?_insertRecord wf fits]
  split
  · next heq => simp [heq]
  · next hne => simp [hne]

theorem Sound.removeEntry {t t' : Tree} (h : t.Sound) {now : Instant} {e : EntryId}
    {o : Observation} (hremove : t.removeEntry now e = .ok (t', o)) : Detached [e] t t' := by
  obtain ⟨b, entries, hentry, rfl⟩ := removeEntry_eq_ok hremove
  have hwait := waitIfUnlinked_frame (t := t.withoutEntry e b entries) now b.child
  obtain ⟨hrecord, hentryOf, hroot, -⟩ := hwait
  refine ⟨(h.withoutEntry hentry).waitIfUnlinked _ _, fun i => ?_, fun e' => ?_, hroot⟩
  · rw [identity?, hrecord, ← identity?, identity?_withoutEntry]
  · rw [hentryOf, entryOf?_withoutEntry hentry]
    simp

theorem grows_removeEntry {t t' : Tree} {now : Instant} {e : EntryId} {o : Observation}
    (hremove : t.removeEntry now e = .ok (t', o)) : t.Grows t' := by
  obtain ⟨b, entries, hentry, rfl⟩ := removeEntry_eq_ok hremove
  have hwait := waitIfUnlinked_frame (t := t.withoutEntry e b entries) now b.child
  exact (grows_withoutEntry hentry).trans hwait.2.2.2

end Tree

namespace Ledger

open TreeWatch.Tree

variable (clock : Clock) (x : InodeId)

/-! ### Unbinding the entries of a record -/

theorem detached_detach {l : Ledger} (h : l.tree.Sound) (e : EntryId) :
    Detached [e] l.tree (detach clock x l e).tree := by
  unfold detach removeEntry
  cases hremove : l.tree.removeEntry (clock l.reads) e with
  | ok p =>
    obtain ⟨t', o⟩ := p
    exact h.removeEntry hremove
  | error err =>
    -- met a second time: nothing changes
    have hgone : l.tree.entryOf? e = none := removeEntry_eq_error hremove
    refine ⟨h, fun _ => rfl, fun e' => ?_, rfl⟩
    by_cases he : e' = e
    · subst he
      simpa [note] using hgone
    · simp [he, note]

theorem detached_foldl_detach {l : Ledger} (h : l.tree.Sound) (entries : List EntryId) :
    Detached entries l.tree (entries.foldl (detach clock x) l).tree := by
  induction entries generalizing l with
  | nil => exact ⟨h, fun _ => rfl, fun e => by simp, rfl⟩
  | cons e rest ih =>
    have hfirst := detached_detach clock x h e
    have hrest := ih hfirst.sound
    rw [List.foldl_cons]
    refine ⟨hrest.sound, fun i => ?_, fun e' => ?_, ?_⟩
    · rw [hrest.identity?_eq, hfirst.identity?_eq]
    · rw [hrest.entryOf?_eq, hfirst.entryOf?_eq]
      by_cases he : e' = e <;> by_cases hmem : e' ∈ rest <;> simp [he, hmem]
    · rw [hrest.root_eq, hfirst.root_eq]

theorem grows_detach (l : Ledger) (e : EntryId) : l.tree.Grows (detach clock x l e).tree := by
  unfold detach removeEntry
  cases hremove : l.tree.removeEntry (clock l.reads) e with
  | ok p => exact grows_removeEntry hremove
  | error err => exact Grows.refl _

theorem grows_foldl_detach (l : Ledger) (entries : List EntryId) :
    l.tree.Grows (entries.foldl (detach clock x) l).tree := by
  induction entries generalizing l with
  | nil => exact Grows.refl _
  | cons e rest ih =>
    rw [List.foldl_cons]
    exact (grows_detach clock x l e).trans (ih _)

theorem isLive_detach (l : Ledger) (e : EntryId) (i : InodeId) :
    (detach clock x l e).tree.isLive i = l.tree.isLive i := by
  unfold detach removeEntry
  cases hremove : l.tree.removeEntry (clock l.reads) e with
  | ok p =>
    obtain ⟨t, o⟩ := p
    obtain ⟨b, entries, -, rfl⟩ := Tree.removeEntry_eq_ok hremove
    have hframe := waitIfUnlinked_frame (t := l.tree.withoutEntry e b entries) (clock l.reads)
      b.child
    rw [Bool.eq_iff_iff, isLive_iff, isLive_iff]
    simp only [hframe.1]
    exact exists_record?_withoutEntry_iff
  | error err => rfl

/-- No record goes before all its entries have gone. -/
theorem isLive_foldl_detach (l : Ledger) (entries : List EntryId) (i : InodeId) :
    (entries.foldl (detach clock x) l).tree.isLive i = l.tree.isLive i := by
  induction entries generalizing l with
  | nil => rfl
  | cons e rest ih => rw [List.foldl_cons, ih, isLive_detach]

/-! ### Destroying a record -/

/-- The entries into and out of a record. -/
theorem mem_doomed {t : Tree} (h : t.Sound) {r : InodeRecord} (hr : t.record? x = some r)
    (e : EntryId) :
    e ∈ r.links.elements ++ r.childList.map Prod.snd ↔
      ∃ b, t.entryOf? e = some b ∧ (b.child = x ∨ b.parent = x) := by
  have hout : e ∈ r.childList.map Prod.snd ↔ ∃ b, t.entryOf? e = some b ∧ b.parent = x := by
    constructor
    · intro he
      obtain ⟨⟨name, e'⟩, hmem, rfl⟩ := List.mem_map.1 he
      obtain ⟨b, hb, hparent, -⟩ := (h.child_iff hr name e').1 ((r.mem_childList name e').1 hmem)
      exact ⟨b, hb, hparent⟩
    · rintro ⟨b, hb, hparent⟩
      have hname := (h.child_iff hr b.name e).2 ⟨b, hb, hparent, rfl⟩
      exact List.mem_map.2 ⟨(b.name, e), (r.mem_childList _ _).2 hname, rfl⟩
  rw [List.mem_append, SortedSet.mem_elements, h.link_iff hr, hout]
  constructor
  · rintro (⟨b, hb, hchild⟩ | ⟨b, hb, hparent⟩)
    · exact ⟨b, hb, .inl hchild⟩
    · exact ⟨b, hb, .inr hparent⟩
  · rintro ⟨b, hb, hchild | hparent⟩
    · exact .inl ⟨b, hb, hchild⟩
    · exact .inr ⟨b, hb, hparent⟩

theorem snd_destroy {l : Ledger} {r : InodeRecord} (hr : l.tree.record? x = some r) :
    (l.destroy clock x).2 =
      { (r.links.elements ++ r.childList.map Prod.snd).foldl (detach clock x) l with
        tree := (((r.links.elements ++ r.childList.map Prod.snd).foldl (detach clock x) l).tree.dropRecord
          x).2 } := by
  simp [destroy, hr]

theorem tree_destroy {l : Ledger} {r : InodeRecord} (hr : l.tree.record? x = some r) :
    (l.destroy clock x).2.tree =
      (((r.links.elements ++ r.childList.map Prod.snd).foldl (detach clock x) l).tree.dropRecord
        x).2 :=
  congrArg Ledger.tree (snd_destroy clock x hr)

/-- What is left once the entries into and out of a record have been unbound. -/
theorem entryOf?_foldl_detach_doomed {l : Ledger} (h : l.tree.Sound) {r : InodeRecord}
    (hr : l.tree.record? x = some r) (e : EntryId) (b : DirectoryEntry) :
    ((r.links.elements ++ r.childList.map Prod.snd).foldl (detach clock x) l).tree.entryOf? e = some b ↔
      l.tree.entryOf? e = some b ∧ b.parent ≠ x ∧ b.child ≠ x := by
  rw [(detached_foldl_detach clock x h _).entryOf?_eq]
  split
  · next hmem =>
    obtain ⟨b', hb', hends⟩ := (mem_doomed x h hr e).1 hmem
    simp only [reduceCtorEq, hb', Option.some.injEq, false_iff, not_and]
    rintro rfl hparent hchild
    exact hchild (hends.resolve_right hparent)
  · next hmem =>
    refine ⟨fun hb => ⟨hb, fun hparent => ?_, fun hchild => ?_⟩, And.left⟩
    · exact hmem ((mem_doomed x h hr e).2 ⟨b, hb, .inr hparent⟩)
    · exact hmem ((mem_doomed x h hr e).2 ⟨b, hb, .inl hchild⟩)

theorem destroyed_destroy {l : Ledger} (h : l.tree.Sound) {r : InodeRecord}
    (hr : l.tree.record? x = some r) : Destroyed x l.tree (l.destroy clock x).2.tree := by
  have hdetached := detached_foldl_detach clock x h (r.links.elements ++ r.childList.map Prod.snd)
  have hentry := entryOf?_foldl_detach_doomed clock x h hr
  rw [tree_destroy clock x hr]
  generalize ((r.links.elements ++ r.childList.map Prod.snd).foldl (detach clock x) l).tree = t' at *
  obtain ⟨r', hr', -⟩ : ∃ r', t'.record? x = some r' ∧ r'.identity = r.identity := by
    have hidentity := hdetached.identity?_eq x
    rw [identity?_eq_some_iff.2 ⟨r, hr, rfl⟩] at hidentity
    exact identity?_eq_some_iff.1 hidentity
  refine ⟨hdetached.sound.dropRecord hr' fun e b hb => ((hentry e b).1 hb).2, fun i => ?_, ?_, ?_⟩
  · rw [identity?, record?_dropRecord]
    split
    · rfl
    · exact hdetached.identity?_eq i
  · intro e b
    rw [entryOf?_dropRecord]
    exact hentry e b
  · rw [root_dropRecord, hdetached.root_eq]

/-- Destroying a record that is not there does nothing but forget that it waits. -/
theorem destroy_of_none {l : Ledger} (hnone : l.tree.record? x = none) :
    l.destroy clock x =
      (false, { l with tree := { l.tree with orphans := l.tree.orphans.erase x } }) := by
  simp [destroy, hnone]

theorem grows_destroy (l : Ledger) : l.tree.Grows (l.destroy clock x).2.tree := by
  cases hr : l.tree.record? x with
  | none =>
    rw [destroy_of_none clock x hr]
    exact ⟨Nat.le_refl _, Nat.le_refl _⟩
  | some r =>
    have hfold := grows_foldl_detach clock x l (r.links.elements ++ r.childList.map Prod.snd)
    rw [tree_destroy clock x hr]
    exact hfold.trans grows_dropRecord

theorem sound_destroy {l : Ledger} (h : l.tree.Sound) : (l.destroy clock x).2.tree.Sound := by
  cases hr : l.tree.record? x with
  | none =>
    rw [destroy_of_none clock x hr]
    refine ⟨⟨h.link_iff, h.child_iff, h.parent_live, h.child_live, h.directory_iff, h.ino_iff⟩,
      h.inodes_wellFormed, h.entries_wellFormed, fun {i} hi => ?_⟩
    rw [isOrphan, OrderedMap.contains, OrderedMap.get?_erase] at hi
    split at hi
    · simp at hi
    · exact h.waiting hi
  | some r => exact (destroyed_destroy clock x h hr).sound

@[simp] theorem tree_invalidate (l : Ledger) :
    (l.invalidate clock x).tree = (l.destroy clock x).2.tree := by
  unfold invalidate
  obtain ⟨destroyed, l'⟩ := l.destroy clock x
  cases destroyed <;> rfl

@[simp] theorem tree_insertRecord (l : Ledger) (attributes : Attributes) (token : IdentityToken) :
    (l.insertRecord attributes token).2.tree = (l.tree.insertRecord attributes token).2 := by
  unfold insertRecord
  simp only
  split <;> rfl

@[simp] theorem fst_insertRecord (l : Ledger) (attributes : Attributes) (token : IdentityToken) :
    (l.insertRecord attributes token).1 = (l.tree.insertRecord attributes token).1 := by
  unfold insertRecord
  simp only
  split <;> rfl

theorem journal_insertRecord (l : Ledger) (attributes : Attributes) (token : IdentityToken) :
    (l.insertRecord attributes token).2.journal = l.journal := by
  unfold insertRecord
  simp only
  split <;> rfl

theorem reads_insertRecord (l : Ledger) (attributes : Attributes) (token : IdentityToken) :
    (l.insertRecord attributes token).2.reads = l.reads := by
  unfold insertRecord
  simp only
  split <;> rfl

end Ledger

end TreeWatch

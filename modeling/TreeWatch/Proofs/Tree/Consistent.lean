import TreeWatch.Proofs.Tree.Edit
import TreeWatch.Tree.Consistency

/-!
# Consistent trees

The tree keeps every entry in three places and every record in two. This module says when these
places agree, and that the check of the program then finds nothing wrong.

## Main definitions

- `Tree.Consistent` : entries, links, child maps and the table of inode numbers agree

## Main results

- `Tree.Consistent.checkConsistency_eq_ok` : the check of the program finds nothing wrong
- `Tree.Consistent.child?_eq_some_iff` : names lead exactly along the entries
-/

namespace TreeWatch.Tree

/-- The places in which records and entries are kept agree. -/
structure Consistent (t : Tree) : Prop where
  /-- The links of a record are exactly the entries that bind it. -/
  link_iff : ∀ {i r}, t.record? i = some r → ∀ e,
    r.links.contains e ↔ ∃ b, t.entryOf? e = some b ∧ b.child = i
  /-- The child map of a record holds exactly the entries inside it, under their names. -/
  child_iff : ∀ {i r}, t.record? i = some r → ∀ name e,
    r.childEntryOf? name = some e ↔ ∃ b, t.entryOf? e = some b ∧ b.parent = i ∧ b.name = name
  parent_live : ∀ {e b}, t.entryOf? e = some b → ∃ r, t.record? b.parent = some r
  child_live : ∀ {e b}, t.entryOf? e = some b → ∃ r, t.record? b.child = some r
  /-- Exactly directories have child maps. -/
  directory_iff : ∀ {i r}, t.record? i = some r → (r.isDirectory ↔ r.kind = .directory)
  /-- The table of inode numbers leads to the record of each number, and holds nothing else. -/
  ino_iff : ∀ ino i, t.lookupIno ino = some i ↔ ∃ r, t.record? i = some r ∧ r.ino = ino

namespace Consistent

variable {t : Tree}

/-- No two records share an inode number. -/
theorem eq_of_ino_eq (h : t.Consistent) {i j : InodeId} {r r' : InodeRecord}
    (hr : t.record? i = some r) (hr' : t.record? j = some r') (hino : r.ino = r'.ino) : i = j := by
  have hi : t.lookupIno r'.ino = some i := (h.ino_iff _ i).2 ⟨r, hr, hino⟩
  have hj : t.lookupIno r'.ino = some j := (h.ino_iff _ j).2 ⟨r', hr', rfl⟩
  rw [hi] at hj
  exact Option.some.inj hj

/-- A directory binds each name to one entry. -/
theorem eq_of_name_eq (h : t.Consistent) {e e' : EntryId} {b b' : DirectoryEntry}
    (hb : t.entryOf? e = some b) (hb' : t.entryOf? e' = some b') (hparent : b.parent = b'.parent)
    (hname : b.name = b'.name) : e = e' := by
  obtain ⟨r, hr⟩ := h.parent_live hb
  have he : r.childEntryOf? b.name = some e := (h.child_iff hr _ _).2 ⟨b, hb, rfl, rfl⟩
  have he' : r.childEntryOf? b.name = some e' :=
    (h.child_iff hr _ _).2 ⟨b', hb', hparent.symm, hname.symm⟩
  rw [he] at he'
  exact Option.some.inj he'

theorem childEntryOf?_eq_some_iff (h : t.Consistent) {p : InodeId} {name : Bytes} {e : EntryId} :
    t.childEntryOf? p name = some e ↔
      ∃ b, t.entryOf? e = some b ∧ b.parent = p ∧ b.name = name := by
  unfold Tree.childEntryOf?
  cases hr : t.record? p with
  | some r => exact h.child_iff hr name e
  | none =>
    constructor
    · intro he
      cases he
    · rintro ⟨b, hb, rfl, rfl⟩
      obtain ⟨r, hr'⟩ := h.parent_live hb
      rw [hr] at hr'
      cases hr'

theorem child?_eq_some_iff (h : t.Consistent) {p c : InodeId} {name : Bytes} :
    t.child? p name = some c ↔ ∃ e, t.entryOf? e = some ⟨p, c, name⟩ := by
  simp only [child?, Option.bind_eq_some_iff, Option.map_eq_some_iff, h.childEntryOf?_eq_some_iff]
  constructor
  · rintro ⟨e, ⟨⟨p', c', name'⟩, hb, rfl, rfl⟩, b', hb', rfl⟩
    rw [hb] at hb'
    cases hb'
    exact ⟨e, hb⟩
  · rintro ⟨e, he⟩
    exact ⟨e, ⟨_, he, rfl, rfl⟩, _, he, rfl⟩

/-! ### The check of the program -/

theorem entryFault?_eq_none (h : t.Consistent) {e : EntryId} {b : DirectoryEntry}
    (hb : t.entryOf? e = some b) : t.entryFault? e b = none := by
  obtain ⟨parent, hparent⟩ := h.parent_live hb
  obtain ⟨child, hchild⟩ := h.child_live hb
  have hname : parent.childEntryOf? b.name = some e := (h.child_iff hparent _ _).2 ⟨b, hb, rfl, rfl⟩
  have hlink : child.links.contains e := (h.link_iff hchild e).2 ⟨b, hb, rfl⟩
  simp [entryFault?, hparent, hchild, hname, hlink]

theorem foreignLink?_eq_none (h : t.Consistent) {i : InodeId} {r : InodeRecord}
    (hr : t.record? i = some r) : t.foreignLink? i r = none := by
  rw [foreignLink?, List.find?_eq_none]
  intro e he
  obtain ⟨b, hb, hchild⟩ := (h.link_iff hr e).1 ((SortedSet.mem_elements _ _).1 he)
  simp [hb, hchild]

theorem foreignChild?_eq_none (h : t.Consistent) {i : InodeId} {r : InodeRecord}
    (hr : t.record? i = some r) : t.foreignChild? i r = none := by
  rw [foreignChild?, List.find?_eq_none]
  rintro ⟨name, e⟩ he
  obtain ⟨b, hb, hparent, hname⟩ := (h.child_iff hr name e).1 ((r.mem_childList name e).1 he)
  simp [binds, hb, hparent, hname]

theorem recordFault?_eq_none (h : t.Consistent) {i : InodeId} {r : InodeRecord}
    (hr : t.record? i = some r) : t.recordFault? i r = none := by
  have hkind : ¬(r.isDirectory ≠ (r.kind = .directory)) :=
    not_not_intro (propext (h.directory_iff hr))
  have hino : t.lookupIno r.ino = some i := (h.ino_iff _ i).2 ⟨r, hr, rfl⟩
  rw [recordFault?, if_neg hkind, h.foreignLink?_eq_none hr, h.foreignChild?_eq_none hr]
  simp [hino]

/-- The check of the program finds nothing wrong with a consistent tree. -/
theorem checkConsistency_eq_ok (h : t.Consistent) (fits : t.Fits) :
    t.checkConsistency = .ok () := by
  have hentries : (t.entries.toList.findSome? fun p => t.entryFault? ⟨p.1⟩ p.2) = none := by
    rw [List.findSome?_eq_none_iff]
    rintro ⟨e, b⟩ hb
    exact h.entryFault?_eq_none (e := ⟨e⟩) ((Arena.mem_toList fits.entries).1 hb)
  have hrecords : (t.inodes.toList.findSome? fun p => t.recordFault? ⟨p.1⟩ p.2) = none := by
    rw [List.findSome?_eq_none_iff]
    rintro ⟨i, r⟩ hr
    exact h.recordFault?_eq_none (i := ⟨i⟩) ((Arena.mem_toList fits.inodes).1 hr)
  simp [checkConsistency, inconsistency?, hentries, hrecords]

end Consistent

end TreeWatch.Tree

import TreeWatch.Proofs.Arena
import TreeWatch.Proofs.Tree.Record

/-!
# What a change of the tree does

One equation per change of the tree and per question to it. The equations about `record?` say how
the links and child maps of records move; those about `identity?` and `entryOf?` say what stays.

## Main definitions

- `Tree.Fits` : the slots of both arenas have numbers of their own
- `Tree.identity?` : what a record says of its object

## Main results

- `Tree.addEntry_eq_ok`, `Tree.removeEntry_eq_ok` : when a change is made, and the tree after it
- `Tree.record?_insertRecord`, `Tree.record?_withEntry` and so on
-/

namespace TreeWatch.Tree

/-- The slots of both arenas have numbers of their own. Each slot was made for a record or an entry
of its own, so this holds as long as fewer than 2³² of either were ever made. -/
structure Fits (t : Tree) : Prop where
  inodes : t.inodes.Fits
  entries : t.entries.Fits

instance (t : Tree) : Decidable t.Fits :=
  decidable_of_iff (t.inodes.slots.size ≤ UInt32.size ∧ t.entries.slots.size ≤ UInt32.size)
    ⟨fun h => ⟨h.1, h.2⟩, fun h => ⟨h.1, h.2⟩⟩

/-- No slots have been given up. -/
structure Grows (t t' : Tree) : Prop where
  inodes : t.inodes.slots.size ≤ t'.inodes.slots.size
  entries : t.entries.slots.size ≤ t'.entries.slots.size

theorem Grows.refl (t : Tree) : t.Grows t := ⟨Nat.le_refl _, Nat.le_refl _⟩

theorem Grows.trans {t t' t'' : Tree} (h : t.Grows t') (h' : t'.Grows t'') : t.Grows t'' :=
  ⟨Nat.le_trans h.inodes h'.inodes, Nat.le_trans h.entries h'.entries⟩

theorem Grows.fits {t t' : Tree} (h : t.Grows t') (fits : t'.Fits) : t.Fits :=
  ⟨Nat.le_trans h.inodes fits.inodes, Nat.le_trans h.entries fits.entries⟩

/-- What a record says of its object. -/
def identity? (t : Tree) (inode : InodeId) : Option (Attributes × IdentityToken) :=
  (t.record? inode).map InodeRecord.identity

theorem identity?_eq_some_iff {t : Tree} {i : InodeId} {x : Attributes × IdentityToken} :
    t.identity? i = some x ↔ ∃ r, t.record? i = some r ∧ r.identity = x :=
  Option.map_eq_some_iff

theorem identity?_eq_none_iff {t : Tree} {i : InodeId} :
    t.identity? i = none ↔ t.record? i = none :=
  Option.map_eq_none_iff

/-! ### Changing one record -/

variable (t : Tree) (i j : InodeId) (f : InodeRecord → InodeRecord)

theorem record?_modifyRecord :
    (t.modifyRecord i f).record? j = (t.record? j).map fun r => if j = i then f r else r := by
  obtain ⟨i⟩ := i
  obtain ⟨j⟩ := j
  simp only [record?, modifyRecord, Arena.get?_modify, InodeId.mk.injEq]
  split <;> simp

@[simp] theorem entryOf?_modifyRecord (e : EntryId) :
    (t.modifyRecord i f).entryOf? e = t.entryOf? e := rfl

@[simp] theorem entries_modifyRecord : (t.modifyRecord i f).entries = t.entries := rfl

@[simp] theorem byIno_modifyRecord : (t.modifyRecord i f).byIno = t.byIno := rfl

@[simp] theorem root_modifyRecord : (t.modifyRecord i f).root = t.root := rfl

@[simp] theorem orphans_modifyRecord : (t.modifyRecord i f).orphans = t.orphans := rfl

/-! ### New records -/

section insertRecord

variable {t} {attributes : Attributes} {token : IdentityToken}

theorem insertRecord_eq :
    t.insertRecord attributes token =
      (⟨(t.inodes.insert (.ofObject attributes token)).1⟩,
        { t with
          inodes := (t.inodes.insert (.ofObject attributes token)).2
          byIno := t.byIno.insert attributes.ino
            ⟨(t.inodes.insert (.ofObject attributes token)).1⟩ }) := rfl

theorem grows_insertRecord : t.Grows (t.insertRecord attributes token).2 :=
  ⟨Arena.size_slots_insert .., Nat.le_refl _⟩

variable (wf : t.inodes.WellFormed) (fits : (t.insertRecord attributes token).2.Fits)
include wf fits

theorem record?_fst_insertRecord : t.record? (t.insertRecord attributes token).1 = none :=
  Arena.get?_fst_insert wf fits.inodes

theorem record?_insertRecord (j : InodeId) :
    (t.insertRecord attributes token).2.record? j =
      if j = (t.insertRecord attributes token).1 then some (.ofObject attributes token)
      else t.record? j := by
  obtain ⟨j⟩ := j
  simp only [record?, insertRecord_eq, InodeId.mk.injEq]
  exact Arena.get?_insert wf fits.inodes j

theorem ne_fst_insertRecord {i : InodeId} {r : InodeRecord} (hr : t.record? i = some r) :
    i ≠ (t.insertRecord attributes token).1 := by
  rintro rfl
  rw [record?_fst_insertRecord wf fits] at hr
  cases hr

/-- A new record leaves the old ones alone. -/
theorem record?_insertRecord_of_some {i : InodeId} {r : InodeRecord} (hr : t.record? i = some r) :
    (t.insertRecord attributes token).2.record? i = some r := by
  rw [record?_insertRecord wf fits, if_neg (ne_fst_insertRecord wf fits hr), hr]

omit wf fits in
theorem lookupIno_insertRecord (ino : UInt64) :
    (t.insertRecord attributes token).2.lookupIno ino =
      if ino = attributes.ino then some (t.insertRecord attributes token).1 else t.lookupIno ino :=
  SortedMap.get?_insert ..

end insertRecord

/-! ### Binding a name -/

section addEntry

variable {t} {parent child : InodeId} {name : Bytes} {e : EntryId} {t' : Tree} {o : Observation}

/-- The tree with a new entry, which both of its ends know. -/
def withEntry (t : Tree) (parent : InodeId) (name : Bytes) (child : InodeId) : Tree :=
  let (index, entries) := t.entries.insert { parent, child, name }
  let bound := ({ t with entries }.modifyRecord parent (·.bindChild name ⟨index⟩)).modifyRecord child
    (·.addLink ⟨index⟩)
  { bound with
    orphans := t.orphans.erase child
    touched := t.touched.add child }

/-- When a name is bound, and the tree after it. -/
theorem addEntry_eq_ok (h : t.addEntry parent name child = .ok (e, t', o)) :
    (∃ r, t.record? child = some r) ∧
      (∃ r, t.record? parent = some r ∧ r.isDirectory ∧ r.childEntryOf? name = none) ∧
      e = ⟨(t.entries.insert { parent, child, name }).1⟩ ∧ t' = t.withEntry parent name child := by
  unfold addEntry at h
  split at h
  · next hlive =>
    refine ⟨Option.isSome_iff_exists.1 hlive, ?_⟩
    split at h
    · cases h
    · next r hr =>
      split at h
      · cases h
      · next children hchildren =>
        split at h
        · cases h
        · next hname =>
          cases h
          refine ⟨⟨r, hr, by simp [InodeRecord.isDirectory, hchildren], ?_⟩, rfl, rfl⟩
          simpa [InodeRecord.childEntryOf?, hchildren, OrderedMap.contains] using hname
  · cases h

/-- A name that is free in a directory is bound to any record, and the name is reported with the path
that the directory has then. -/
theorem addEntry_of_free {r r' : InodeRecord} (hchild : t.record? child = some r)
    (hparent : t.record? parent = some r') (hdir : r'.isDirectory)
    (hfree : r'.childEntryOf? name = none) :
    t.addEntry parent name child =
      .ok (⟨(t.entries.insert { parent, child, name }).1⟩, t.withEntry parent name child,
        { kind := .linked
          path := ((t.withEntry parent name child).resolvePath parent).join name
          ino := (t.withEntry parent name child).inoOf child
          parentIno := r'.ino }) := by
  obtain ⟨children, hchildren⟩ := Option.isSome_iff_exists.1 hdir
  have hlive : t.isLive child = true := by
    simpa [isLive, Arena.contains, record?] using Option.isSome_of_eq_some hchild
  have hname : children.contains name = false := by
    simpa [InodeRecord.childEntryOf?, hchildren, OrderedMap.contains] using hfree
  simp only [addEntry, hlive, hparent, hchildren, hname, if_true, Bool.false_eq_true, if_false]
  rfl

theorem grows_withEntry : t.Grows (t.withEntry parent name child) := by
  refine ⟨?_, Arena.size_slots_insert ..⟩
  simp [withEntry, modifyRecord]

theorem record?_withEntry (j : InodeId) :
    (t.withEntry parent name child).record? j =
      (t.record? j).map fun r =>
        let bound :=
          if j = parent then
            r.bindChild name ⟨(t.entries.insert { parent, child, name }).1⟩
          else r
        if j = child then bound.addLink ⟨(t.entries.insert { parent, child, name }).1⟩ else bound := by
  have h : (t.withEntry parent name child).record? j =
      (({ t with entries := (t.entries.insert { parent, child, name }).2 }.modifyRecord parent
        (·.bindChild name ⟨(t.entries.insert { parent, child, name }).1⟩)).modifyRecord child
        (·.addLink ⟨(t.entries.insert { parent, child, name }).1⟩)).record? j := rfl
  rw [h, record?_modifyRecord, record?_modifyRecord, Option.map_map]
  rfl

/-- What becomes of a record when a name is bound in a directory: the entry joins the links of its
object and the child map of the directory. -/
theorem exists_record?_withEntry {r : InodeRecord} (hparent : t.record? parent = some r)
    (hdir : r.isDirectory) {j : InodeId} {s' : InodeRecord}
    (hs' : (t.withEntry parent name child).record? j = some s') :
    ∃ s, t.record? j = some s ∧ s'.identity = s.identity ∧ s'.isDirectory = s.isDirectory ∧
      (∀ e, s'.links.contains e ↔
        j = child ∧ e = ⟨(t.entries.insert { parent, child, name }).1⟩ ∨ s.links.contains e) ∧
      ∀ name', s'.childEntryOf? name' =
        if j = parent ∧ name' = name then some ⟨(t.entries.insert { parent, child, name }).1⟩
        else s.childEntryOf? name' := by
  rw [record?_withEntry, Option.map_eq_some_iff] at hs'
  obtain ⟨s, hs, rfl⟩ := hs'
  have hdir' : j = parent → s.isDirectory := by
    rintro rfl
    rw [hs] at hparent
    cases hparent
    exact hdir
  refine ⟨s, hs, ?_, ?_, ?_, ?_⟩
  · split <;> split <;> rfl
  · split <;> split <;> simp
  · intro e
    by_cases hchild : j = child
    · rw [if_pos hchild, InodeRecord.contains_links_addLink]
      split <;> simp [hchild]
    · rw [if_neg hchild]
      split <;> simp [hchild]
  · intro name'
    by_cases hj : j = parent
    · have hbound := InodeRecord.childEntryOf?_bindChild s name name'
        ⟨(t.entries.insert { parent, child, name }).1⟩ (hdir' hj)
      simp only [hj, if_true, true_and]
      split <;> simpa using hbound
    · simp only [hj, if_false, false_and]
      split <;> simp

theorem exists_record?_withEntry_iff {j : InodeId} :
    (∃ s, (t.withEntry parent name child).record? j = some s) ↔ ∃ s, t.record? j = some s := by
  rw [record?_withEntry]
  cases t.record? j <;> simp

@[simp] theorem identity?_withEntry (j : InodeId) :
    (t.withEntry parent name child).identity? j = t.identity? j := by
  rw [identity?, record?_withEntry, identity?, Option.map_map]
  congr 1
  funext r
  simp only [Function.comp_apply]
  split <;> split <;> rfl

variable (wf : t.entries.WellFormed) (fits : (t.withEntry parent name child).Fits)
include wf fits

theorem entryOf?_insert_withEntry :
    t.entryOf? ⟨(t.entries.insert { parent, child, name }).1⟩ = none :=
  Arena.get?_fst_insert wf fits.entries

theorem entryOf?_withEntry (e : EntryId) :
    (t.withEntry parent name child).entryOf? e =
      if e = ⟨(t.entries.insert { parent, child, name }).1⟩ then some { parent, child, name }
      else t.entryOf? e := by
  obtain ⟨e⟩ := e
  simp only [EntryId.mk.injEq]
  exact Arena.get?_insert wf fits.entries e

end addEntry

/-! ### Unbinding a name -/

section removeEntry

variable {t} {now : Instant} {e : EntryId} {t' : Tree} {o : Observation}

/-- The tree without an entry, which neither of its ends knows any more. -/
def withoutEntry (t : Tree) (e : EntryId) (b : DirectoryEntry) (entries : Arena DirectoryEntry) :
    Tree :=
  ({ t with entries }.modifyRecord b.parent (·.unbindChild b.name)).modifyRecord b.child
    (·.removeLink e)

/-- When an entry is unbound, and the tree after it. -/
theorem removeEntry_eq_ok (h : t.removeEntry now e = .ok (t', o)) :
    ∃ b entries, t.entries.remove e.index = some (b, entries) ∧
      t' = (t.withoutEntry e b entries).waitIfUnlinked b.child now := by
  unfold removeEntry at h
  split at h
  · cases h
  · next b entries hremove =>
    cases h
    exact ⟨b, entries, hremove, rfl⟩

/-- An entry that is there is unbound, and its name is reported with the path that the directory had
before. -/
theorem removeEntry_of_bound {b : DirectoryEntry} {entries : Arena DirectoryEntry}
    (h : t.entries.remove e.index = some (b, entries)) :
    t.removeEntry now e =
      .ok ((t.withoutEntry e b entries).waitIfUnlinked b.child now,
        { kind := .unlinked
          path := (t.resolvePath b.parent).join b.name
          ino := t.inoOf b.child
          parentIno := t.inoOf b.parent }) := by
  simp only [removeEntry, h]
  rfl

/-- An entry that is not there cannot be unbound. -/
theorem removeEntry_eq_error {x : TreeError} (h : t.removeEntry now e = .error x) :
    t.entryOf? e = none := by
  unfold removeEntry at h
  split at h
  · next hremove => exact Arena.remove_eq_none_iff.1 hremove
  · cases h

theorem exists_removeEntry_eq_ok {b : DirectoryEntry} (h : t.entryOf? e = some b) :
    ∃ p, t.removeEntry now e = .ok p := by
  cases hremove : t.removeEntry now e with
  | ok p => exact ⟨p, rfl⟩
  | error x =>
    rw [removeEntry_eq_error hremove] at h
    cases h

variable {b : DirectoryEntry} {entries : Arena DirectoryEntry}

theorem record?_withoutEntry (j : InodeId) :
    (t.withoutEntry e b entries).record? j =
      (t.record? j).map fun r =>
        let unbound := if j = b.parent then r.unbindChild b.name else r
        if j = b.child then unbound.removeLink e else unbound := by
  rw [withoutEntry, record?_modifyRecord, record?_modifyRecord, Option.map_map]
  rfl

/-- What becomes of a record when an entry is unbound: the entry leaves the links of its object and
the child map of its directory. -/
theorem exists_record?_withoutEntry {j : InodeId} {s' : InodeRecord}
    (hs' : (t.withoutEntry e b entries).record? j = some s') :
    ∃ s, t.record? j = some s ∧ s'.identity = s.identity ∧ s'.isDirectory = s.isDirectory ∧
      (∀ e', s'.links.contains e' ↔ s.links.contains e' ∧ ¬(j = b.child ∧ e' = e)) ∧
      ∀ name', s'.childEntryOf? name' =
        if j = b.parent ∧ name' = b.name then none else s.childEntryOf? name' := by
  rw [record?_withoutEntry, Option.map_eq_some_iff] at hs'
  obtain ⟨s, hs, rfl⟩ := hs'
  refine ⟨s, hs, ?_, ?_, ?_, ?_⟩
  · split <;> split <;> rfl
  · split <;> split <;> simp
  · intro e'
    by_cases hchild : j = b.child
    · rw [if_pos hchild, InodeRecord.contains_links_removeLink]
      split <;> simp [hchild, and_comm]
    · rw [if_neg hchild]
      split <;> simp [hchild]
  · intro name'
    by_cases hj : j = b.parent
    · simp only [hj, if_true, true_and]
      split <;> simp [InodeRecord.childEntryOf?_unbindChild]
    · simp only [hj, if_false, false_and]
      split <;> simp

theorem exists_record?_withoutEntry_iff {j : InodeId} :
    (∃ s, (t.withoutEntry e b entries).record? j = some s) ↔ ∃ s, t.record? j = some s := by
  rw [record?_withoutEntry]
  cases t.record? j <;> simp

@[simp] theorem identity?_withoutEntry (j : InodeId) :
    (t.withoutEntry e b entries).identity? j = t.identity? j := by
  rw [identity?, record?_withoutEntry, identity?, Option.map_map]
  congr 1
  funext r
  simp only [Function.comp_apply]
  split <;> split <;> rfl

theorem entryOf?_withoutEntry (h : t.entries.remove e.index = some (b, entries)) (e' : EntryId) :
    (t.withoutEntry e b entries).entryOf? e' = if e' = e then none else t.entryOf? e' := by
  obtain ⟨e⟩ := e
  obtain ⟨e'⟩ := e'
  simp only [EntryId.mk.injEq]
  exact Arena.get?_remove h e'

/-- Whether a record begins to wait concerns the table of waiting records only. -/
theorem waitIfUnlinked_cases (inode : InodeId) (now : Instant) :
    t.waitIfUnlinked inode now = t ∨
      (t.waitIfUnlinked inode now = t.startWaiting inode now ∧ t.root ≠ some inode ∧
        ∃ r, t.record? inode = some r ∧ r.isUnlinked) := by
  unfold waitIfUnlinked
  split
  · next r hr =>
    split
    · next h => exact .inr ⟨rfl, h.2, r, hr, h.1⟩
    · exact .inl rfl
  · exact .inl rfl

@[simp] theorem entries_waitIfUnlinked (i : InodeId) (now : Instant) :
    (t.waitIfUnlinked i now).entries = t.entries := by
  rcases waitIfUnlinked_cases (t := t) i now with heq | ⟨heq, -⟩ <;> rw [heq]
  rfl

@[simp] theorem entries_orphanIfUnlinked (i : InodeId) (now : Instant) :
    (t.orphanIfUnlinked i now).2.entries = t.entries := by
  unfold orphanIfUnlinked
  split
  · split <;> rfl
  · rfl

variable (now) in
/-- Questions to a tree whose answers do not depend on which records wait. -/
theorem waitIfUnlinked_frame (i : InodeId) :
    (∀ j, (t.waitIfUnlinked i now).record? j = t.record? j) ∧
      (∀ e, (t.waitIfUnlinked i now).entryOf? e = t.entryOf? e) ∧
      (t.waitIfUnlinked i now).root = t.root ∧ t.Grows (t.waitIfUnlinked i now) := by
  rcases waitIfUnlinked_cases (t := t) i now with heq | ⟨heq, -⟩
  · rw [heq]
    exact ⟨fun _ => rfl, fun _ => rfl, rfl, Grows.refl t⟩
  · rw [heq]
    exact ⟨fun _ => rfl, fun _ => rfl, rfl, ⟨Nat.le_refl _, Nat.le_refl _⟩⟩

theorem grows_withoutEntry (h : t.entries.remove e.index = some (b, entries)) :
    t.Grows (t.withoutEntry e b entries) := by
  refine ⟨?_, Nat.le_of_eq (Arena.size_slots_remove h).symm⟩
  simp [withoutEntry, modifyRecord]

end removeEntry

/-! ### Taking out a record -/

section dropRecord

variable {t} {i : InodeId}

/-- Taking out a record that is not there forgets what else mentions it. -/
theorem dropRecord_of_none (h : t.record? i = none) :
    t.dropRecord i =
      (false, { t with
        orphans := t.orphans.erase i
        touched := t.touched.erase i
        root := if t.root = some i then none else t.root }) := by
  have hremove : t.inodes.remove i.index = none := Arena.remove_eq_none_iff.2 h
  simp [dropRecord, hremove]

theorem dropRecord_of_some {r : InodeRecord} {inodes : Arena InodeRecord}
    (h : t.inodes.remove i.index = some (r, inodes)) :
    t.dropRecord i =
      (true, { t with
        inodes
        orphans := t.orphans.erase i
        touched := t.touched.erase i
        root := if t.root = some i then none else t.root
        byIno := if t.byIno.get? r.ino = some i then t.byIno.erase r.ino else t.byIno }) := by
  simp [dropRecord, h]

theorem exists_remove_of_some {r : InodeRecord} (h : t.record? i = some r) :
    ∃ inodes, t.inodes.remove i.index = some (r, inodes) := by
  have hget : t.inodes.get? i.index = some r := h
  simp [Arena.remove, hget]

@[simp] theorem entries_dropRecord : (t.dropRecord i).2.entries = t.entries := by
  cases hremove : t.inodes.remove i.index with
  | none => simp [dropRecord, hremove]
  | some p => simp [dropRecord, hremove]

@[simp] theorem orphans_dropRecord : (t.dropRecord i).2.orphans = t.orphans.erase i := by
  cases hremove : t.inodes.remove i.index with
  | none => simp [dropRecord, hremove]
  | some p => simp [dropRecord, hremove]

@[simp] theorem root_dropRecord :
    (t.dropRecord i).2.root = if t.root = some i then none else t.root := by
  cases hremove : t.inodes.remove i.index with
  | none => simp [dropRecord, hremove]
  | some p => simp [dropRecord, hremove]

@[simp] theorem entryOf?_dropRecord (e : EntryId) :
    (t.dropRecord i).2.entryOf? e = t.entryOf? e := by
  rw [entryOf?, entries_dropRecord, entryOf?]

theorem record?_dropRecord (j : InodeId) :
    (t.dropRecord i).2.record? j = if j = i then none else t.record? j := by
  cases hremove : t.inodes.remove i.index with
  | none =>
    have hnone : t.record? i = none := Arena.remove_eq_none_iff.1 hremove
    rw [dropRecord_of_none hnone]
    by_cases hji : j = i
    · subst hji
      rw [if_pos rfl]
      exact hnone
    · rw [if_neg hji]
      rfl
  | some p =>
    obtain ⟨r, inodes⟩ := p
    obtain ⟨i⟩ := i
    obtain ⟨j⟩ := j
    rw [dropRecord_of_some hremove]
    simp only [InodeId.mk.injEq]
    exact Arena.get?_remove hremove j

theorem grows_dropRecord : t.Grows (t.dropRecord i).2 := by
  cases hremove : t.inodes.remove i.index with
  | none => exact ⟨by simp [dropRecord, hremove], by simp⟩
  | some p =>
    obtain ⟨r, inodes⟩ := p
    refine ⟨?_, by simp⟩
    rw [dropRecord_of_some hremove]
    exact Nat.le_of_eq (Arena.size_slots_remove hremove).symm

end dropRecord

end TreeWatch.Tree

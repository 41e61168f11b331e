import TreeWatch.Proofs.Tree.Destroy

/-!
# Trees without fingerprints

A tree whose fingerprints have all been wiped out. Every question to a tree but the one for
fingerprints, and every change of a tree, is the same for the blank tree.

## Main definitions

- `Arena.map` : an arena with every value changed
- `Tree.blank` : the tree without fingerprints

## Main results

- `Tree.resolvePath_blank`, `Tree.child?_blank` and so on : one equation per question
- `Tree.addEntry_blank`, `Tree.removeEntry_blank` and so on : one equation per change
-/

namespace TreeWatch

namespace Arena

variable {α β : Type}

def map (f : α → β) (a : Arena α) : Arena β where
  slots := a.slots.map fun s => ⟨s.generation, s.value.map f⟩
  free := a.free
  size := a.size

variable (f : α → β) (a : Arena α) (i : Index)

theorem getElem?_slots_map (k : Nat) :
    (a.map f).slots[k]? = a.slots[k]?.map fun s => ⟨s.generation, s.value.map f⟩ :=
  Array.getElem?_map ..

@[simp] theorem size_slots_map : (a.map f).slots.size = a.slots.size :=
  Array.size_map ..

@[simp] theorem get?_map : (a.map f).get? i = (a.get? i).map f := by
  rw [get?, slot?, getElem?_slots_map, get?, slot?]
  cases a.slots[i.slot.toNat]? with
  | none => rfl
  | some s => by_cases h : s.generation = i.generation <;> simp [h]

@[simp] theorem contains_map : (a.map f).contains i = a.contains i := by
  simp [contains]

theorem insert_map (v : α) :
    (a.map f).insert (f v) = ((a.insert v).1, (a.insert v).2.map f) := by
  unfold insert
  cases hfree : a.free with
  | nil => simp [map, hfree]
  | cons slot rest =>
    cases hslot : a.slots[slot.toNat]? with
    | none => simp [map, hfree, hslot]
    | some s => simp [map, hfree, hslot]

theorem set_map (v : α) : (a.map f).set i (f v) = (a.set i v).map f := by
  unfold set
  rw [contains_map]
  split
  · simp [map]
  · rfl

theorem modify_map {g : α → α} {g' : β → β} (h : ∀ v, g' (f v) = f (g v)) :
    (a.map f).modify i g' = (a.modify i g).map f := by
  unfold modify
  rw [get?_map]
  cases a.get? i with
  | none => rfl
  | some v => simp [h, set_map]

/-- A change that does not show leaves every slot as it is. -/
theorem map_modify_of_eq {g : α → α} (h : ∀ v, f (g v) = f v) : (a.modify i g).map f = a.map f := by
  unfold modify
  cases hget : a.get? i with
  | none => rfl
  | some v =>
    have hslot := slots_of_get? hget
    have hpresent : a.contains i = true := by simp [contains, hget]
    rw [← set_map, h, set, contains_map, if_pos hpresent]
    have hslots : (a.map f).slots.setIfInBounds i.slot.toNat ⟨i.generation, some (f v)⟩ =
        (a.map f).slots := by
      refine Array.ext_getElem? fun k => ?_
      rw [Array.getElem?_setIfInBounds]
      split
      · next hk =>
        obtain ⟨hinside, -⟩ := Array.getElem?_eq_some_iff.1 hslot
        rw [← hk, getElem?_slots_map, hslot]
        simp [hinside]
      · rfl
    rw [hslots]

end Arena

namespace InodeRecord

/-- The record without its fingerprint. -/
def blank (r : InodeRecord) : InodeRecord := { r with fingerprint := .zero }

variable (r : InodeRecord)

@[simp] theorem ino_blank : r.blank.ino = r.ino := rfl

@[simp] theorem token_blank : r.blank.token = r.token := rfl

@[simp] theorem links_blank : r.blank.links = r.links := rfl

@[simp] theorem children_blank : r.blank.children = r.children := rfl

@[simp] theorem isUnlinked_blank : r.blank.isUnlinked = r.isUnlinked := rfl

@[simp] theorem childEntryOf?_blank (name : Bytes) :
    r.blank.childEntryOf? name = r.childEntryOf? name := rfl

end InodeRecord

namespace Tree

/-- The tree without fingerprints. -/
def blank (t : Tree) : Tree := { t with inodes := t.inodes.map InodeRecord.blank }

variable (t : Tree) (i : InodeId)

/-! ### Questions -/

@[simp] theorem record?_blank : t.blank.record? i = (t.record? i).map InodeRecord.blank :=
  Arena.get?_map ..

@[simp] theorem entryOf?_blank (e : EntryId) : t.blank.entryOf? e = t.entryOf? e := rfl

@[simp] theorem lookupIno_blank (ino : UInt64) : t.blank.lookupIno ino = t.lookupIno ino := rfl

@[simp] theorem isOrphan_blank : t.blank.isOrphan i = t.isOrphan i := rfl

@[simp] theorem root_blank : t.blank.root = t.root := rfl

@[simp] theorem isLive_blank : t.blank.isLive i = t.isLive i :=
  Arena.contains_map ..

@[simp] theorem inoOf_blank : t.blank.inoOf i = t.inoOf i := by
  rw [inoOf, record?_blank, inoOf]
  cases t.record? i <;> rfl

@[simp] theorem childEntryOf?_blank (name : Bytes) :
    t.blank.childEntryOf? i name = t.childEntryOf? i name := by
  rw [childEntryOf?, record?_blank, childEntryOf?]
  cases t.record? i <;> rfl

@[simp] theorem child?_blank (name : Bytes) : t.blank.child? i name = t.child? i name := by
  rw [child?, childEntryOf?_blank, child?]
  rfl

@[simp] theorem childList_blank : t.blank.childList i = t.childList i := by
  rw [childList, record?_blank, childList]
  cases t.record? i <;> rfl

@[simp] theorem firstLink?_blank : t.blank.firstLink? i = t.firstLink? i := by
  rw [firstLink?, record?_blank, firstLink?]
  cases t.record? i <;> rfl

theorem namesUp_blank (steps : Nat) : t.blank.namesUp i steps = t.namesUp i steps := by
  induction steps generalizing i with
  | zero => rfl
  | succ steps ih =>
    rw [namesUp, firstLink?_blank, namesUp]
    cases t.firstLink? i with
    | none => rfl
    | some entry => exact congrArg (entry.name :: ·) (ih entry.parent)

@[simp] theorem resolvePath_blank : t.blank.resolvePath i = t.resolvePath i := by
  rw [resolvePath, namesUp_blank]
  rfl

/-! ### Changes -/

theorem modifyRecord_blank (f : InodeRecord → InodeRecord) (h : ∀ r, f r.blank = (f r).blank) :
    t.blank.modifyRecord i f = (t.modifyRecord i f).blank := by
  have hinodes : (t.inodes.map InodeRecord.blank).modify i.index f =
      (t.inodes.modify i.index f).map InodeRecord.blank := Arena.modify_map _ _ _ h
  rw [modifyRecord, blank, hinodes]
  rfl

theorem blank_refreshFingerprint (fingerprint : Fingerprint) :
    (t.refreshFingerprint i fingerprint).blank = t.blank := by
  have hinodes : (t.inodes.modify i.index fun r => { r with fingerprint }).map InodeRecord.blank =
      t.inodes.map InodeRecord.blank := Arena.map_modify_of_eq _ _ _ fun _ => rfl
  rw [blank, refreshFingerprint, modifyRecord, hinodes]
  rfl

theorem insertRecord_blank (attributes : Attributes) (token : IdentityToken) :
    t.blank.insertRecord { attributes with fingerprint := .zero } token =
      ((t.insertRecord attributes token).1, (t.insertRecord attributes token).2.blank) := by
  have hinsert := Arena.insert_map InodeRecord.blank t.inodes (.ofObject attributes token)
  rw [insertRecord_eq, insertRecord_eq]
  have hrecord : InodeRecord.ofObject { attributes with fingerprint := .zero } token =
    (InodeRecord.ofObject attributes token).blank := rfl
  rw [hrecord]
  simp only [blank, hinsert]

theorem withEntry_blank (parent : InodeId) (name : Bytes) (child : InodeId) :
    t.blank.withEntry parent name child = (t.withEntry parent name child).blank := by
  have hbind := modifyRecord_blank
    { t with entries := (t.entries.insert { parent, child, name }).2 } parent
    (·.bindChild name ⟨(t.entries.insert { parent, child, name }).1⟩) fun _ => rfl
  have hlink := modifyRecord_blank
    ({ t with entries := (t.entries.insert { parent, child, name }).2 }.modifyRecord parent
      (·.bindChild name ⟨(t.entries.insert { parent, child, name }).1⟩)) child
    (·.addLink ⟨(t.entries.insert { parent, child, name }).1⟩) fun _ => rfl
  rw [← hbind] at hlink
  exact congrArg (fun u : Tree =>
    { u with orphans := t.orphans.erase child, touched := t.touched.add child }) hlink

theorem addEntry_blank (parent : InodeId) (name : Bytes) (child : InodeId) :
    t.blank.addEntry parent name child =
      (t.addEntry parent name child).map fun p => (p.1, p.2.1.blank, p.2.2) := by
  have hwith := withEntry_blank t parent name child
  unfold addEntry
  rw [isLive_blank, record?_blank]
  split
  · cases t.record? parent with
    | none => rfl
    | some r =>
      simp only [Option.map_some, InodeRecord.children_blank]
      cases r.children with
      | none => rfl
      | some children =>
        simp only
        split
        · rfl
        · change Except.ok (_, t.blank.withEntry parent name child, (⟨.linked,
            ((t.blank.withEntry parent name child).resolvePath parent).join name,
            (t.blank.withEntry parent name child).inoOf child, r.ino⟩ : Observation)) = _
          rw [hwith, resolvePath_blank, inoOf_blank]
          rfl
  · rfl

theorem waitIfUnlinked_blank (now : Instant) :
    t.blank.waitIfUnlinked i now = (t.waitIfUnlinked i now).blank := by
  unfold waitIfUnlinked
  rw [record?_blank]
  cases t.record? i with
  | none => rfl
  | some r =>
    by_cases h : r.isUnlinked = true ∧ t.root ≠ some i
    · refine (if_pos h).trans ?_
      simp only [if_pos h]
      rfl
    · refine (if_neg h).trans ?_
      simp only [if_neg h]

theorem orphanIfUnlinked_blank (now : Instant) :
    t.blank.orphanIfUnlinked i now =
      ((t.orphanIfUnlinked i now).1, (t.orphanIfUnlinked i now).2.blank) := by
  unfold orphanIfUnlinked
  rw [record?_blank]
  cases t.record? i with
  | none => rfl
  | some r =>
    by_cases h : (r.isUnlinked && t.root ≠ some i && !t.isOrphan i) = true
    · refine (if_pos h).trans ?_
      simp only [if_pos h]
      rfl
    · refine (if_neg h).trans ?_
      simp only [if_neg h]

theorem withoutEntry_blank (e : EntryId) (b : DirectoryEntry) (entries : Arena DirectoryEntry) :
    t.blank.withoutEntry e b entries = (t.withoutEntry e b entries).blank := by
  have hunbind := modifyRecord_blank { t with entries } b.parent (·.unbindChild b.name)
    fun _ => rfl
  have hunlink := modifyRecord_blank
    ({ t with entries }.modifyRecord b.parent (·.unbindChild b.name)) b.child (·.removeLink e)
    fun _ => rfl
  rw [← hunbind] at hunlink
  exact hunlink

theorem removeEntry_blank (now : Instant) (e : EntryId) :
    t.blank.removeEntry now e = (t.removeEntry now e).map fun p => (p.1.blank, p.2) := by
  unfold removeEntry
  have hentries : t.blank.entries = t.entries := rfl
  rw [hentries]
  cases t.entries.remove e.index with
  | none => rfl
  | some p =>
    obtain ⟨b, entries⟩ := p
    change Except.ok ((t.blank.withoutEntry e b entries).waitIfUnlinked b.child now,
      (⟨.unlinked, (t.blank.resolvePath b.parent).join b.name, t.blank.inoOf b.child,
        t.blank.inoOf b.parent⟩ : Observation)) = _
    rw [withoutEntry_blank, waitIfUnlinked_blank, resolvePath_blank, inoOf_blank, inoOf_blank]
    rfl

end Tree

end TreeWatch

import TreeWatch.Tree.Edit

/-!
# Links and children of records

What the changes of one record do to the names inside it and to the entries that bind it.

## Main definitions

- `InodeRecord.identity` : what a record says of its object, as opposed to its place in the tree

## Main results

- `SortedSet.contains_add`, `SortedSet.contains_erase`, `SortedSet.mem_elements`
- `InodeRecord.childEntryOf?_bindChild` and its companions : one equation per change
-/

namespace TreeWatch

namespace SortedSet

variable {κ : Type} [Ord κ] [DecidableEq κ]

theorem contains_erase (s : SortedSet κ) (k k' : κ) :
    SortedMap.contains (s.erase k) k' = (decide (k' ≠ k) && s.contains k') := by
  rw [SortedMap.contains, SortedMap.get?_erase]
  by_cases h : k' = k <;> simp [h, SortedMap.contains]

theorem mem_elements (s : SortedSet κ) (k : κ) : k ∈ s.elements ↔ s.contains k := by
  rw [SortedMap.contains, SortedMap.get?, Assoc.get?_isSome_iff]
  rfl

theorem contains_add [Std.TransOrd κ] [Std.LawfulEqOrd κ] (s : SortedSet κ) (k k' : κ) :
    (s.add k).contains k' = (decide (k' = k) || s.contains k') := by
  rw [add, SortedMap.contains, SortedMap.get?_insert]
  by_cases h : k' = k <;> simp [h, SortedMap.contains]

/-- A set is empty if it contains nothing. -/
theorem isEmpty_iff (s : SortedSet κ) : s.isEmpty ↔ ∀ k, s.contains k = false := by
  rw [SortedMap.isEmpty, List.isEmpty_iff]
  constructor
  · intro h k
    simp [SortedMap.contains, SortedMap.get?, h]
  · intro h
    refine List.eq_nil_iff_forall_not_mem.2 fun p hp => ?_
    have hk : p.1 ∈ s.elements := List.mem_map_of_mem hp
    rw [mem_elements, h] at hk
    simp at hk

end SortedSet

namespace OrderedMap

variable {κ α : Type} [DecidableEq κ]

/-- A map is empty if no key has a value. -/
theorem isEmpty_iff (m : OrderedMap κ α) : m.isEmpty ↔ ∀ k, m.get? k = none := by
  rw [isEmpty, List.isEmpty_iff]
  constructor
  · intro h k
    simp [get?, h]
  · intro h
    refine List.eq_nil_iff_forall_not_mem.2 fun p hp => ?_
    have := get?_eq_some_iff.2 (show (p.1, p.2) ∈ m.toList from hp)
    simp [h] at this

end OrderedMap

namespace InodeRecord

/-- What a record says of its object, as opposed to its place in the tree. -/
def identity (r : InodeRecord) : Attributes × IdentityToken :=
  (⟨r.ino, r.mode, r.fingerprint⟩, r.token)

theorem kind_eq_of_identity_eq {r s : InodeRecord} (h : r.identity = s.identity) :
    r.kind = s.kind := by
  have := congrArg (fun x => x.1.kind) h
  exact this

/-- The record of an object that has just been found. -/
def ofObject (attributes : Attributes) (token : IdentityToken) : InodeRecord where
  ino := attributes.ino
  mode := attributes.mode
  token := token
  fingerprint := attributes.fingerprint
  links := .empty
  children := if attributes.kind = .directory then some .empty else none

variable (r : InodeRecord) (name name' : Bytes) (e e' : EntryId)

@[simp] theorem identity_ofObject (attributes : Attributes) (token : IdentityToken) :
    (ofObject attributes token).identity = (attributes, token) := rfl

theorem isDirectory_ofObject (attributes : Attributes) (token : IdentityToken) :
    (ofObject attributes token).isDirectory ↔ attributes.kind = .directory := by
  by_cases h : attributes.kind = .directory <;> simp [isDirectory, ofObject, h]

@[simp] theorem contains_links_ofObject (attributes : Attributes) (token : IdentityToken) :
    (ofObject attributes token).links.contains e = false := rfl

@[simp] theorem childEntryOf?_ofObject (attributes : Attributes) (token : IdentityToken) :
    (ofObject attributes token).childEntryOf? name = none := by
  by_cases h : attributes.kind = .directory <;> simp [childEntryOf?, ofObject, h]

@[simp] theorem identity_bindChild : (r.bindChild name e).identity = r.identity := rfl

@[simp] theorem identity_unbindChild : (r.unbindChild name).identity = r.identity := rfl

@[simp] theorem identity_addLink : (r.addLink e).identity = r.identity := rfl

@[simp] theorem identity_removeLink : (r.removeLink e).identity = r.identity := rfl

@[simp] theorem isDirectory_bindChild : (r.bindChild name e).isDirectory = r.isDirectory := by
  simp [bindChild, isDirectory]

@[simp] theorem isDirectory_unbindChild : (r.unbindChild name).isDirectory = r.isDirectory := by
  simp [unbindChild, isDirectory]

@[simp] theorem isDirectory_addLink : (r.addLink e).isDirectory = r.isDirectory := rfl

@[simp] theorem isDirectory_removeLink : (r.removeLink e).isDirectory = r.isDirectory := rfl

@[simp] theorem links_bindChild : (r.bindChild name e).links = r.links := rfl

@[simp] theorem links_unbindChild : (r.unbindChild name).links = r.links := rfl

@[simp] theorem childEntryOf?_addLink : (r.addLink e).childEntryOf? name = r.childEntryOf? name :=
  rfl

@[simp] theorem childEntryOf?_removeLink :
    (r.removeLink e).childEntryOf? name = r.childEntryOf? name := rfl

theorem contains_links_addLink :
    (r.addLink e).links.contains e' = (decide (e' = e) || r.links.contains e') :=
  SortedSet.contains_add ..

theorem contains_links_removeLink :
    (r.removeLink e).links.contains e' = (decide (e' ≠ e) && r.links.contains e') :=
  SortedSet.contains_erase ..

theorem childEntryOf?_bindChild (h : r.isDirectory) :
    (r.bindChild name e).childEntryOf? name' =
      if name' = name then some e else r.childEntryOf? name' := by
  obtain ⟨children, hchildren⟩ := Option.isSome_iff_exists.1 h
  simp [bindChild, childEntryOf?, hchildren, OrderedMap.get?_insert]

theorem childEntryOf?_unbindChild :
    (r.unbindChild name).childEntryOf? name' =
      if name' = name then none else r.childEntryOf? name' := by
  cases hchildren : r.children with
  | none => simp [unbindChild, childEntryOf?, hchildren]
  | some children => simp [unbindChild, childEntryOf?, hchildren, OrderedMap.get?_erase]

theorem mem_childList : (name, e) ∈ r.childList ↔ r.childEntryOf? name = some e := by
  cases hchildren : r.children with
  | none => simp [childList, childEntryOf?, hchildren]
  | some children => simp [childList, childEntryOf?, hchildren, OrderedMap.get?_eq_some_iff]

theorem isUnlinked_iff : r.isUnlinked ↔ ∀ e, ¬r.links.contains e := by
  rw [isUnlinked, SortedSet.isEmpty_iff]
  simp only [Bool.not_eq_true]

theorem isEmptyDirectory_iff :
    r.isEmptyDirectory ↔ r.isDirectory ∧ ∀ name, r.childEntryOf? name = none := by
  cases hchildren : r.children with
  | none => simp [isEmptyDirectory, isDirectory, hchildren]
  | some children =>
    simp [isEmptyDirectory, isDirectory, childEntryOf?, hchildren, OrderedMap.isEmpty_iff]

end InodeRecord

end TreeWatch

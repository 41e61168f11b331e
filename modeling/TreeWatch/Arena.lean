/-!
# Generational arenas

A table of slots that are used again. Every reuse of a slot raises the slot's generation, so an
index handed out for an earlier occupant does not find the new one.

## Main definitions

- `Index` : a slot number together with a generation
- `Arena` : slots, the list of vacant ones and the number of occupied ones
- `Arena.insert`, `Arena.remove`, `Arena.get?`, `Arena.set`, `Arena.toList`

## Design notes

Slot numbers and generations are 32-bit words and wrap around. The slot vacated last is the first
to be used again.
-/

namespace TreeWatch

universe u

/-- A slot number and the generation of the slot that it means. -/
structure Index where
  slot : UInt32
  generation : UInt32
deriving DecidableEq, Inhabited

namespace Index

/-- Indexes are ordered by slot, then by generation. -/
instance : Ord Index where
  compare a b := (compare a.slot b.slot).then (compare a.generation b.generation)

/-- The index as text, `<slot>v<generation>`. -/
def name (i : Index) : String :=
  s!"{i.slot.toNat}v{i.generation.toNat}"

theorem compare_def (a b : Index) :
    compare a b = compareLex (compareOn Index.slot) (compareOn Index.generation) a b := rfl

instance : Std.TransOrd Index :=
  inferInstanceAs (Std.TransCmp (compareLex (compareOn Index.slot) (compareOn Index.generation)))

instance : Std.LawfulEqOrd Index where
  eq_of_compare {a b} h := by
    rw [compare_def, compareLex_eq_eq] at h
    obtain ⟨slot_eq, generation_eq⟩ := h
    cases a
    cases b
    simp only [compareOn, Std.LawfulEqCmp.compare_eq_iff_eq] at slot_eq generation_eq
    simp [slot_eq, generation_eq]

end Index

/-- A slot: how often it has been used again, and its occupant. -/
structure Slot (α : Type u) where
  generation : UInt32
  value : Option α
deriving DecidableEq

/-- A table of values under indexes that stay valid until their value is removed. -/
structure Arena (α : Type u) where
  /-- All slots ever made. -/
  slots : Array (Slot α) := #[]
  /-- The vacant slots, the one vacated last first. -/
  free : List UInt32 := []
  /-- The number of values. -/
  size : Nat := 0
deriving DecidableEq

namespace Arena

variable {α : Type u}

/-- The arena without values. -/
def empty : Arena α := {}

instance : Inhabited (Arena α) := ⟨empty⟩

/-- The slot that an index means, if the index is not out of date. -/
def slot? (a : Arena α) (i : Index) : Option (Slot α) :=
  match a.slots[i.slot.toNat]? with
  | some s => if s.generation = i.generation then some s else none
  | none => none

/-- The value under an index. -/
def get? (a : Arena α) (i : Index) : Option α :=
  (a.slot? i).bind Slot.value

/-- Whether there is a value under an index. -/
def contains (a : Arena α) (i : Index) : Bool :=
  (a.get? i).isSome

/-- Puts a value into the slot vacated last, or into a new slot if none is vacant. -/
def insert (a : Arena α) (value : α) : Index × Arena α :=
  match a.free with
  | slot :: free =>
    let generation := match a.slots[slot.toNat]? with
      | some s => s.generation + 1
      | none => 0
    (⟨slot, generation⟩,
      { slots := a.slots.setIfInBounds slot.toNat ⟨generation, some value⟩
        free
        size := a.size + 1 })
  | [] =>
    (⟨UInt32.ofNat a.slots.size, 0⟩,
      { slots := a.slots.push ⟨0, some value⟩
        free := []
        size := a.size + 1 })

/-- Replaces the value under an index; without one there the arena stays as it is. -/
def set (a : Arena α) (i : Index) (value : α) : Arena α :=
  if a.contains i then
    { a with slots := a.slots.setIfInBounds i.slot.toNat ⟨i.generation, some value⟩ }
  else
    a

/-- Changes the value under an index; without one there the arena stays as it is. -/
def modify (a : Arena α) (i : Index) (f : α → α) : Arena α :=
  match a.get? i with
  | some value => a.set i (f value)
  | none => a

/-- Removes the value under an index. The index never finds a value again. -/
def remove (a : Arena α) (i : Index) : Option (α × Arena α) :=
  (a.get? i).map fun value =>
    (value,
      { slots := a.slots.setIfInBounds i.slot.toNat ⟨i.generation, none⟩
        free := i.slot :: a.free
        size := a.size - 1 })

/-- The occupied slots among `slots`, whose first has the number `first`. -/
def occupied (first : Nat) : List (Slot α) → List (Index × α)
  | [] => []
  | s :: rest =>
    match s.value with
    | some value => (⟨UInt32.ofNat first, s.generation⟩, value) :: occupied (first + 1) rest
    | none => occupied (first + 1) rest

/-- All values with their indexes, by slot. -/
def toList (a : Arena α) : List (Index × α) :=
  occupied 0 a.slots.toList

@[simp] theorem get?_empty (i : Index) : (empty : Arena α).get? i = none := rfl

theorem get?_set (a : Arena α) (i j : Index) (value : α) :
    (a.set i value).get? j = if i = j ∧ a.contains i then some value else a.get? j := by
  unfold set
  by_cases present : a.contains i
  · have inside : i.slot.toNat < a.slots.size := by
      rw [contains, get?, slot?] at present
      cases slot_eq : a.slots[i.slot.toNat]? with
      | none => simp [slot_eq] at present
      | some s => exact (Array.getElem?_eq_some_iff.1 slot_eq).1
    simp only [present, if_true, and_true]
    by_cases same_slot : i.slot = j.slot
    · by_cases same : i = j
      · subst same
        simp [get?, slot?, inside]
      · have generation_ne : i.generation ≠ j.generation := fun generation_eq =>
          same (by
            cases i
            cases j
            simp_all)
        have i_current : ∃ s, a.slots[i.slot.toNat]? = some s ∧ s.generation = i.generation := by
          rw [contains, get?, slot?] at present
          cases slot_eq : a.slots[i.slot.toNat]? with
          | none => simp [slot_eq] at present
          | some s =>
            by_cases current : s.generation = i.generation
            · exact ⟨s, rfl, current⟩
            · simp [slot_eq, current] at present
        obtain ⟨s, slot_eq, generation_eq⟩ := i_current
        rw [same_slot] at slot_eq inside
        have stale : a.slots[j.slot.toNat].generation ≠ j.generation := by
          rw [(Array.getElem?_eq_some_iff.1 slot_eq).2, generation_eq]
          exact generation_ne
        simp [get?, slot?, same_slot, inside, same, generation_ne, stale]
    · have ne : i.slot.toNat ≠ j.slot.toNat := fun h => same_slot (UInt32.toNat_inj.1 h)
      have different : i ≠ j := fun h => same_slot (h ▸ rfl)
      simp [get?, slot?, ne, different]
  · simp [present]

end Arena

end TreeWatch

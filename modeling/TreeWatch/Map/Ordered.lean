import TreeWatch.Map.Assoc

/-!
# Maps in insertion order

A finite map that remembers the order in which its keys were put in. Putting in a key again moves
it to the end.

## Main definitions

- `OrderedMap` : pairs with distinct keys, oldest first
- `OrderedMap.insert`, `OrderedMap.erase`, `OrderedMap.get?`
-/

namespace TreeWatch

universe u v

/-- A finite map whose pairs are listed in the order of their insertion. -/
structure OrderedMap (κ : Type u) (α : Type v) where
  /-- The pairs, oldest first. -/
  toList : List (κ × α)
  /-- No key occurs twice. -/
  distinct : (Assoc.keys toList).Nodup := by exact List.nodup_nil

namespace OrderedMap

variable {κ : Type u} {α : Type v}

@[ext] theorem ext {m n : OrderedMap κ α} (h : m.toList = n.toList) : m = n := by
  cases m
  cases n
  cases h
  rfl

instance [DecidableEq κ] [DecidableEq α] : DecidableEq (OrderedMap κ α) := fun m n =>
  decidable_of_iff (m.toList = n.toList) ⟨ext, fun h => h ▸ rfl⟩

/-- The map without pairs. -/
def empty : OrderedMap κ α where
  toList := []

instance : Inhabited (OrderedMap κ α) := ⟨empty⟩

/-- Whether the map has no pairs. -/
def isEmpty (m : OrderedMap κ α) : Bool := m.toList.isEmpty

/-- The number of pairs. -/
def size (m : OrderedMap κ α) : Nat := m.toList.length

/-- The keys, oldest first. -/
def keys (m : OrderedMap κ α) : List κ := m.toList.map Prod.fst

/-- The values, oldest first. -/
def values (m : OrderedMap κ α) : List α := m.toList.map Prod.snd

variable [DecidableEq κ]

/-- The value of `k`. -/
def get? (m : OrderedMap κ α) (k : κ) : Option α := Assoc.get? k m.toList

/-- Whether `k` has a value. -/
def contains (m : OrderedMap κ α) (k : κ) : Bool := (m.get? k).isSome

/-- The map without `k`; the others keep their order. -/
def erase (m : OrderedMap κ α) (k : κ) : OrderedMap κ α where
  toList := Assoc.erase k m.toList
  distinct := by
    rw [Assoc.keys_erase]
    exact m.distinct.filter _

/-- The map with `k` as its newest key. -/
def insert (m : OrderedMap κ α) (k : κ) (a : α) : OrderedMap κ α where
  toList := (m.erase k).toList ++ [(k, a)]
  distinct := by
    have h := (m.erase k).distinct
    have hk : k ∉ Assoc.keys (m.erase k).toList := by
      simp [erase, Assoc.keys_erase]
    simp only [Assoc.keys, List.map_append, List.map_cons, List.map_nil] at h hk ⊢
    exact List.nodup_append.2 ⟨h, by simp, by
      intro a ha b hb
      simp only [List.mem_singleton] at hb
      subst hb
      rintro rfl
      exact hk ha⟩

@[simp] theorem get?_empty (k : κ) : (empty : OrderedMap κ α).get? k = none := rfl

theorem get?_erase (m : OrderedMap κ α) (k k' : κ) :
    (m.erase k).get? k' = if k' = k then none else m.get? k' :=
  Assoc.get?_erase k k' m.toList

theorem get?_insert (m : OrderedMap κ α) (k k' : κ) (a : α) :
    (m.insert k a).get? k' = if k' = k then some a else m.get? k' := by
  change Assoc.get? k' ((m.erase k).toList ++ [(k, a)]) = _
  rw [Assoc.get?_append]
  have h : Assoc.get? k' (m.erase k).toList = if k' = k then none else m.get? k' :=
    get?_erase m k k'
  rw [h]
  by_cases hk : k' = k
  · simp [hk, Assoc.get?_cons]
  · simp [hk, Assoc.get?_cons, Ne.symm hk]

theorem get?_eq_some_iff {m : OrderedMap κ α} {k : κ} {a : α} :
    m.get? k = some a ↔ (k, a) ∈ m.toList :=
  Assoc.get?_eq_some_iff m.distinct

end OrderedMap

end TreeWatch

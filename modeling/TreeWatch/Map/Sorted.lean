import TreeWatch.Map.Assoc

/-!
# Maps and sets in key order

Finite maps and sets whose elements are listed in strictly increasing order, so that two of them
with the same content are equal.

## Main definitions

- `SortedMap` : pairs in strictly increasing order of their keys
- `SortedMap.insert`, `SortedMap.erase`, `SortedMap.get?`
- `SortedSet` : a sorted map without values
-/

namespace TreeWatch

universe u v

/-- The two keys are in strictly increasing order. -/
def Below {κ : Type u} [Ord κ] (a b : κ) : Prop := compare a b = .lt

instance {κ : Type u} [Ord κ] (a b : κ) : Decidable (Below a b) :=
  inferInstanceAs (Decidable (compare a b = .lt))

/-- A finite map whose pairs are listed in strictly increasing order of their keys. -/
structure SortedMap (κ : Type u) (α : Type v) [Ord κ] where
  /-- The pairs, smallest key first. -/
  toList : List (κ × α)
  /-- The keys increase strictly. -/
  sorted : (Assoc.keys toList).Pairwise Below := by exact List.Pairwise.nil

namespace SortedMap

variable {κ : Type u} {α : Type v} [Ord κ]

@[ext] theorem ext {m n : SortedMap κ α} (h : m.toList = n.toList) : m = n := by
  cases m
  cases n
  cases h
  rfl

instance [DecidableEq κ] [DecidableEq α] : DecidableEq (SortedMap κ α) := fun m n =>
  decidable_of_iff (m.toList = n.toList) ⟨ext, fun h => h ▸ rfl⟩

/-- The map without pairs. -/
def empty : SortedMap κ α where
  toList := []

instance : Inhabited (SortedMap κ α) := ⟨empty⟩

/-- Whether the map has no pairs. -/
def isEmpty (m : SortedMap κ α) : Bool := m.toList.isEmpty

/-- The number of pairs. -/
def size (m : SortedMap κ α) : Nat := m.toList.length

/-- The keys in increasing order. -/
def keys (m : SortedMap κ α) : List κ := m.toList.map Prod.fst

/-- The values in increasing order of their keys. -/
def values (m : SortedMap κ α) : List α := m.toList.map Prod.snd

/-- Puts a pair into its place in a sorted list, in the stead of one with the same key. -/
def place (k : κ) (a : α) : List (κ × α) → List (κ × α)
  | [] => [(k, a)]
  | (k', b) :: rest =>
    match compare k k' with
    | .lt => (k, a) :: (k', b) :: rest
    | .eq => (k, a) :: rest
    | .gt => (k', b) :: place k a rest

theorem mem_keys_place {k k' : κ} {a : α} {l : List (κ × α)} (h : k' ∈ Assoc.keys (place k a l)) :
    k' = k ∨ k' ∈ Assoc.keys l := by
  induction l with
  | nil => simpa [place, Assoc.keys] using h
  | cons p rest ih =>
    obtain ⟨k₀, b⟩ := p
    rw [place] at h
    split at h
    · simpa [Assoc.keys] using h
    · simp only [Assoc.keys, List.map_cons, List.mem_cons] at h ⊢
      exact h.imp_right Or.inr
    · simp only [Assoc.keys, List.map_cons, List.mem_cons] at h ih ⊢
      rcases h with h | h
      · exact .inr (.inl h)
      · exact (ih h).imp_right Or.inr

theorem sorted_place [Std.TransOrd κ] {k : κ} {a : α} {l : List (κ × α)}
    (h : (Assoc.keys l).Pairwise Below) : (Assoc.keys (place k a l)).Pairwise Below := by
  induction l with
  | nil => exact List.pairwise_singleton ..
  | cons p rest ih =>
    obtain ⟨k₀, b⟩ := p
    simp only [Assoc.keys, List.map_cons, List.pairwise_cons] at h
    rw [place]
    split
    · next hlt =>
      simp only [Assoc.keys, List.map_cons, List.pairwise_cons, List.mem_cons]
      refine ⟨?_, h⟩
      rintro k' (rfl | hk')
      · exact hlt
      · exact Std.TransCmp.lt_trans hlt (h.1 _ hk')
    · next heq =>
      simp only [Assoc.keys, List.map_cons, List.pairwise_cons]
      exact ⟨fun k' hk' => Std.TransCmp.lt_of_eq_of_lt heq (h.1 _ hk'), h.2⟩
    · next hgt =>
      simp only [Assoc.keys, List.map_cons, List.pairwise_cons]
      refine ⟨fun k' hk' => ?_, ih h.2⟩
      rcases mem_keys_place hk' with rfl | hk'
      · exact Std.OrientedCmp.lt_of_gt hgt
      · exact h.1 _ hk'

/-- The map with `a` as the value of `k`. -/
def insert [Std.TransOrd κ] (m : SortedMap κ α) (k : κ) (a : α) : SortedMap κ α where
  toList := place k a m.toList
  sorted := sorted_place m.sorted

theorem not_below_self [Std.TransOrd κ] (k : κ) : ¬ Below k k := by
  simp [Below, Std.ReflCmp.compare_self]

/-- A map is determined by its pairs, in whatever order they are given. -/
theorem eq_of_perm [Std.TransOrd κ] {m n : SortedMap κ α} (h : m.toList.Perm n.toList) : m = n := by
  refine ext (h.eq_of_pairwise (fun p q _ _ hpq hqp => ?_) (List.pairwise_map.1 m.sorted)
    (List.pairwise_map.1 n.sorted))
  exact absurd (Std.TransCmp.lt_trans hpq hqp) (not_below_self p.1)

theorem distinct [Std.TransOrd κ] (m : SortedMap κ α) : (Assoc.keys m.toList).Nodup :=
  List.Pairwise.imp (fun {a b} h => by
    rintro rfl
    exact not_below_self a h) m.sorted

variable [DecidableEq κ]

/-- The value of `k`. -/
def get? (m : SortedMap κ α) (k : κ) : Option α := Assoc.get? k m.toList

/-- Whether `k` has a value. -/
def contains (m : SortedMap κ α) (k : κ) : Bool := (m.get? k).isSome

/-- The map without `k`. -/
def erase (m : SortedMap κ α) (k : κ) : SortedMap κ α where
  toList := Assoc.erase k m.toList
  sorted := by
    rw [Assoc.keys_erase]
    exact m.sorted.filter _

/-- The map with every value changed as its pair demands; the keys stay. -/
def mapValues (m : SortedMap κ α) (f : κ → α → α) : SortedMap κ α where
  toList := m.toList.map fun p => (p.1, f p.1 p.2)
  sorted := by
    have : Assoc.keys (m.toList.map fun p => (p.1, f p.1 p.2)) = Assoc.keys m.toList := by
      simp [Assoc.keys, Function.comp_def]
    rw [this]
    exact m.sorted

@[simp] theorem get?_empty (k : κ) : (empty : SortedMap κ α).get? k = none := rfl

theorem get?_erase (m : SortedMap κ α) (k k' : κ) :
    (m.erase k).get? k' = if k' = k then none else m.get? k' :=
  Assoc.get?_erase k k' m.toList

theorem get?_place [Std.LawfulEqOrd κ] (k k' : κ) (a : α) (l : List (κ × α)) :
    Assoc.get? k' (place k a l) = if k' = k then some a else Assoc.get? k' l := by
  induction l with
  | nil => simp [place, Assoc.get?_cons, eq_comm]
  | cons p rest ih =>
    obtain ⟨k₀, b⟩ := p
    rw [place]
    split
    · simp [Assoc.get?_cons, eq_comm]
    · next heq =>
      obtain rfl := Std.LawfulEqCmp.eq_of_compare heq
      by_cases h : k = k' <;> simp [Assoc.get?_cons, h, eq_comm]
    · next hgt =>
      have hne : k₀ ≠ k := by
        rintro rfl
        simp [Std.ReflCmp.compare_self] at hgt
      rw [Assoc.get?_cons, Assoc.get?_cons, ih]
      by_cases h : k' = k
      · simp [h, hne]
      · simp [h]

theorem get?_insert [Std.TransOrd κ] [Std.LawfulEqOrd κ] (m : SortedMap κ α) (k k' : κ) (a : α) :
    (m.insert k a).get? k' = if k' = k then some a else m.get? k' :=
  get?_place k k' a m.toList

theorem get?_eq_some_iff [Std.TransOrd κ] {m : SortedMap κ α} {k : κ} {a : α} :
    m.get? k = some a ↔ (k, a) ∈ m.toList :=
  Assoc.get?_eq_some_iff m.distinct

theorem get?_mapValues (m : SortedMap κ α) (f : κ → α → α) (k : κ) :
    (m.mapValues f).get? k = (m.get? k).map (f k) :=
  Assoc.get?_map k m.toList f

/-- Two maps are the same if all keys have the same values in both. -/
theorem eq_of_get?_eq [Std.TransOrd κ] {m n : SortedMap κ α} (h : ∀ k, m.get? k = n.get? k) :
    m = n := by
  have nodup (m : SortedMap κ α) : m.toList.Nodup :=
    (List.pairwise_map.1 m.distinct).imp fun hne heq => hne (congrArg Prod.fst heq)
  refine eq_of_perm ((List.perm_ext_iff_of_nodup (nodup m) (nodup n)).2 fun p => ?_)
  rw [← get?_eq_some_iff, ← get?_eq_some_iff, h]

end SortedMap

/-- A finite set whose elements are listed in strictly increasing order. -/
abbrev SortedSet (κ : Type u) [Ord κ] := SortedMap κ Unit

namespace SortedSet

variable {κ : Type u} [Ord κ]

/-- The elements in increasing order. -/
def elements (s : SortedSet κ) : List κ := SortedMap.keys s

/-- The smallest element. -/
def first? (s : SortedSet κ) : Option κ := s.elements.head?

/-- The set with `k`. -/
def add [Std.TransOrd κ] (s : SortedSet κ) (k : κ) : SortedSet κ := SortedMap.insert s k ()

end SortedSet

end TreeWatch

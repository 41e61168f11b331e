import Mathlib
import TreeWatch.Proofs.Arena.Count

/-!
# The ages of slots

A slot is occupied and vacated in turn, and each new occupant has the next generation. So a slot
only ever grows older while fewer than 2³² values are put into the arena, and an index that has lost
its value never finds one again.

## Main definitions

- `Slot.age` : how often a slot was occupied or vacated
- `Arena.made` : how many values were ever put into an arena
- `Arena.Ages` : no slot is younger in the second arena than in the first

## Main results

- `Arena.made_insert`, `Arena.ages_insert` : putting in a value makes one more
- `Arena.Shrinks.made_eq`, `Arena.Shrinks.ages` : nothing else does, and slots grow older
- `Arena.Ages.get?_between` : what an index finds before and after, it finds in between

## Design notes

Generations are 32-bit words, and the count of values is read off them. The first generation to wrap
around would be that of a slot which had 2³² occupants already. So the count is right as long as it
is below 2³², and it is below if fewer values were ever put in.
-/

namespace TreeWatch

/-- How often the slot was occupied or vacated before it came to be as it is. -/
def Slot.age {α : Type} (s : Slot α) : Nat :=
  2 * s.generation.toNat + if s.value.isSome then 0 else 1

namespace Arena

variable {α : Type} {a b c : Arena α} {i : Index} {value : α}

/-- How many values were ever put in: each slot had one for each of its generations. -/
def made (a : Arena α) : Nat :=
  (a.slots.toList.map fun s => s.generation.toNat + 1).sum

/-- No slot of the first arena is younger in the second. -/
def Ages (a b : Arena α) : Prop :=
  ∀ (k : Nat) s, a.slots[k]? = some s → ∃ s', b.slots[k]? = some s' ∧ s.age ≤ s'.age

theorem Ages.refl (a : Arena α) : a.Ages a :=
  fun _ s hs => ⟨s, hs, le_rfl⟩

theorem Ages.trans (h : a.Ages b) (h' : b.Ages c) : a.Ages c := by
  intro k s hs
  obtain ⟨s', hs', hle⟩ := h k s hs
  obtain ⟨s'', hs'', hle'⟩ := h' k s' hs'
  exact ⟨s'', hs'', hle.trans hle'⟩

/-- Generations are even ages, so the slot that an index finds has just one age. -/
theorem get?_isSome_iff_age :
    (a.get? i).isSome ↔ ∃ s, a.slots[i.slot.toNat]? = some s ∧ s.age = 2 * i.generation.toNat := by
  rw [Option.isSome_iff_exists]
  constructor
  · rintro ⟨value, hget⟩
    exact ⟨_, get?_eq_some_iff.1 hget, by simp [Slot.age]⟩
  · rintro ⟨⟨generation, value⟩, hs, hage⟩
    cases value with
    | none =>
      simp only [Slot.age, Option.isSome_none, Bool.false_eq_true, if_false] at hage
      omega
    | some value =>
      simp only [Slot.age, Option.isSome_some, if_true, Nat.add_zero] at hage
      have hgeneration : generation = i.generation := UInt32.toNat_inj.1 (by omega)
      exact ⟨value, get?_eq_some_iff.2 (hgeneration ▸ hs)⟩

/-- An index that finds a value before and after finds one in between. -/
theorem Ages.get?_between (h : a.Ages b) (h' : b.Ages c) (ha : (a.get? i).isSome)
    (hc : (c.get? i).isSome) : (b.get? i).isSome := by
  obtain ⟨s, hs, hage⟩ := get?_isSome_iff_age.1 ha
  obtain ⟨s', hs', hle⟩ := h _ _ hs
  obtain ⟨s'', hs'', hle'⟩ := h' _ _ hs'
  obtain ⟨t, ht, hage'⟩ := get?_isSome_iff_age.1 hc
  rw [hs''] at ht
  cases ht
  exact get?_isSome_iff_age.2 ⟨s', hs', by omega⟩

/-! ### Counting the values that were put in -/

theorem sum_set_add (l : List Nat) {k : Nat} (hk : k < l.length) (n : Nat) :
    (l.set k n).sum + l[k] = l.sum + n := by
  have hnew := l.sum_set k n
  have hold := l.sum_set k l[k]
  rw [List.set_getElem_self] at hold
  rw [if_pos hk] at hnew hold
  omega

/-- The count when a slot is overwritten. -/
theorem made_setIfInBounds {k : Nat} {s : Slot α} (hs : a.slots[k]? = some s) (s' : Slot α)
    (free : List UInt32) (size : Nat) :
    (Arena.mk (a.slots.setIfInBounds k s') free size).made + s.generation.toNat =
      a.made + s'.generation.toNat := by
  obtain ⟨hk, rfl⟩ := Array.getElem?_eq_some_iff.1 hs
  have hsum := sum_set_add (a.slots.toList.map fun s => s.generation.toNat + 1)
    (k := k) (by simpa using hk) (s'.generation.toNat + 1)
  simp only [List.getElem_map, Array.getElem_toList] at hsum
  simp only [made, Array.toList_setIfInBounds, List.map_set]
  omega

@[simp] theorem made_set (a : Arena α) (i : Index) (value : α) : (a.set i value).made = a.made := by
  unfold set
  split
  · next present =>
    obtain ⟨old, hold⟩ := Option.isSome_iff_exists.1 present
    exact Nat.add_right_cancel
      (made_setIfInBounds (get?_eq_some_iff.1 hold) ⟨i.generation, some value⟩ a.free a.size)
  · rfl

@[simp] theorem made_modify (a : Arena α) (i : Index) (f : α → α) :
    (a.modify i f).made = a.made := by
  unfold modify
  split
  · exact made_set ..
  · rfl

theorem made_remove (h : a.remove i = some (value, b)) : b.made = a.made := by
  rw [remove, Option.map_eq_some_iff] at h
  obtain ⟨old, hold, hpair⟩ := h
  cases hpair
  have hmade := made_setIfInBounds (get?_eq_some_iff.1 hold) ⟨i.generation, none⟩ (i.slot :: a.free)
    (a.size - 1)
  exact Nat.add_right_cancel hmade

theorem size_slots_le_made (a : Arena α) : a.slots.size ≤ a.made := by
  have hle := List.length_le_sum_of_one_le (a.slots.toList.map fun s => s.generation.toNat + 1)
  simp only [List.length_map, Array.length_toList] at hle
  refine hle fun n hn => ?_
  obtain ⟨s, -, rfl⟩ := List.mem_map.1 hn
  exact Nat.le_add_left 1 _

/-- An arena into which fewer than 2³² values were put fits its slot numbers. -/
theorem fits_of_made (h : a.made < UInt32.size) : a.Fits :=
  (size_slots_le_made a).trans h.le

/-- As long as fewer than 2³² values were put in, no generation is the last. -/
theorem toNat_add_one_of_made (h : a.made < UInt32.size) {k : Nat} {s : Slot α}
    (hs : a.slots[k]? = some s) : (s.generation + 1).toNat = s.generation.toNat + 1 := by
  have hmem : s.generation.toNat + 1 ∈ a.slots.toList.map fun s => s.generation.toNat + 1 :=
    List.mem_map_of_mem (Array.mem_toList_iff.2 (Array.mem_of_getElem? hs))
  have hle : s.generation.toNat + 1 ≤ a.made := List.le_sum_of_mem hmem
  rw [UInt32.toNat_add]
  exact Nat.mod_eq_of_lt (lt_of_le_of_lt hle h)

theorem made_insert (wf : a.WellFormed) (h : a.made < UInt32.size) (value : α) :
    (a.insert value).2.made = a.made + 1 := by
  unfold insert
  split
  · next slot free hfree =>
    obtain ⟨s, hs, -⟩ := wf.vacant slot (by simp [hfree])
    have hmade := made_setIfInBounds hs ⟨s.generation + 1, some value⟩ free (a.size + 1)
    simp only [toNat_add_one_of_made h hs] at hmade
    simp only [hs]
    omega
  · simp [made]

theorem fits_insert (wf : a.WellFormed) (h : a.made < UInt32.size) (value : α) :
    (a.insert value).2.Fits := by
  refine (size_slots_le_made _).trans ?_
  rw [made_insert wf h]
  exact h

/-! ### Slots grow older -/

theorem ages_setIfInBounds {k : Nat} {s s' : Slot α} (hs : a.slots[k]? = some s)
    (hage : s.age ≤ s'.age) (free : List UInt32) (size : Nat) :
    a.Ages ⟨a.slots.setIfInBounds k s', free, size⟩ := by
  obtain ⟨hk, -⟩ := Array.getElem?_eq_some_iff.1 hs
  intro j t ht
  by_cases hjk : k = j
  · subst hjk
    rw [hs] at ht
    cases ht
    exact ⟨s', by simp [hk], hage⟩
  · exact ⟨t, by simpa [Array.getElem?_setIfInBounds, hjk] using ht, le_rfl⟩

theorem ages_set (a : Arena α) (i : Index) (value : α) : a.Ages (a.set i value) := by
  unfold set
  split
  · next present =>
    obtain ⟨old, hold⟩ := Option.isSome_iff_exists.1 present
    exact ages_setIfInBounds (get?_eq_some_iff.1 hold) (by simp [Slot.age]) _ _
  · exact Ages.refl a

theorem ages_modify (a : Arena α) (i : Index) (f : α → α) : a.Ages (a.modify i f) := by
  unfold modify
  split
  · exact ages_set a i _
  · exact Ages.refl a

theorem ages_remove (h : a.remove i = some (value, b)) : a.Ages b := by
  rw [remove, Option.map_eq_some_iff] at h
  obtain ⟨old, hold, hpair⟩ := h
  cases hpair
  exact ages_setIfInBounds (get?_eq_some_iff.1 hold) (by simp [Slot.age]) _ _

theorem ages_insert (wf : a.WellFormed) (h : a.made < UInt32.size) (value : α) :
    a.Ages (a.insert value).2 := by
  unfold insert
  split
  · next slot free hfree =>
    obtain ⟨s, hs, hvacant⟩ := wf.vacant slot (by simp [hfree])
    simp only [hs]
    refine ages_setIfInBounds hs ?_ _ _
    simp only [Slot.age, hvacant, Option.isSome_none, Bool.false_eq_true, if_false,
      Option.isSome_some, if_true, toNat_add_one_of_made h hs]
    omega
  · intro k s hs
    have hk := (Array.getElem?_eq_some_iff.1 hs).1
    refine ⟨s, ?_, le_rfl⟩
    rw [Array.getElem?_push_lt hk, (Array.getElem?_eq_some_iff.1 hs).2]

/-! ### Putting in nothing -/

theorem Shrinks.made_eq (h : a.Shrinks b) : b.made = a.made := by
  induction h with
  | refl => rfl
  | modify i f _ ih => rw [made_modify, ih]
  | remove _ hremove ih => rw [made_remove hremove, ih]

theorem Shrinks.ages (h : a.Shrinks b) : a.Ages b := by
  induction h with
  | refl => exact .refl a
  | modify i f _ ih => exact ih.trans (ages_modify _ i f)
  | remove _ hremove ih => exact ih.trans (ages_remove hremove)

end Arena

end TreeWatch

import Mathlib.Data.List.Perm.Subperm
import Mathlib.Data.Set.Card
import TreeWatch.Proofs.Arena

/-!
# How many values an arena holds

The number that an arena keeps is that of its occupied slots, and so that of the indexes that find a
value.

## Main definitions

- `Arena.Shrinks` : values are changed and removed, and none is put in
- `Arena.Counted` : the number kept is that of the occupied slots

## Main results

- `Arena.Counted.insert`, `Arena.Shrinks.counted` : the number stays right
- `Arena.Counted.encard_eq` : the number is that of the indexes that find a value
- `Arena.Counted.length_le` : no more indexes find a value than the number says
-/

namespace TreeWatch.Arena

variable {α : Type} {a b c : Arena α} {i : Index} {value : α}

/-! ### Putting in nothing -/

/-- Values are changed and removed, and none is put in. -/
inductive Shrinks (a : Arena α) : Arena α → Prop
  | refl : Shrinks a a
  | modify {b : Arena α} (i : Index) (f : α → α) : Shrinks a b → Shrinks a (b.modify i f)
  | remove {b c : Arena α} {i : Index} {value : α} :
    Shrinks a b → b.remove i = some (value, c) → Shrinks a c

theorem Shrinks.trans (h : a.Shrinks b) (h' : b.Shrinks c) : a.Shrinks c := by
  induction h' with
  | refl => exact h
  | modify i f _ ih => exact ih.modify i f
  | remove _ hremove ih => exact ih.remove hremove

theorem Shrinks.wellFormed (h : a.Shrinks b) (wf : a.WellFormed) : b.WellFormed := by
  induction h with
  | refl => exact wf
  | modify i f _ ih => exact ih.modify i f
  | remove _ hremove ih => exact ih.remove hremove

/-! ### Occupied slots -/

/-- The number that the arena keeps is that of its occupied slots. -/
def Counted (a : Arena α) : Prop := a.size = a.live

theorem counted_empty : (empty : Arena α).Counted := rfl

theorem live_insert (wf : a.WellFormed) (value : α) : (a.insert value).2.live = a.live + 1 := by
  unfold Arena.insert
  split
  · next slot rest hfree =>
    obtain ⟨s, hs, hvacant⟩ := wf.vacant slot (by simp [hfree])
    obtain ⟨hinside, rfl⟩ := Array.getElem?_eq_some_iff.1 hs
    simp only [live, Array.toList_setIfInBounds]
    rw [List.countP_set (by simpa using hinside)]
    simp [hvacant]
  · simp [live]

theorem Counted.insert (h : a.Counted) (wf : a.WellFormed) (value : α) :
    (a.insert value).2.Counted := by
  rw [Counted, size_insert, live_insert wf, h]

theorem Shrinks.counted (h : a.Shrinks b) (ha : a.Counted) : b.Counted := by
  induction h with
  | refl => exact ha
  | modify i f _ ih => rw [Counted, size_modify, live_modify, ih]
  | remove _ hremove ih =>
    have hlive := live_remove hremove
    have hsize := size_remove hremove
    have hbefore : _ = _ := ih
    rw [Counted]
    omega

/-! ### Indexes that find a value -/

theorem length_occupied (first : Nat) (l : List (Slot α)) :
    (occupied first l).length = l.countP (·.value.isSome) := by
  induction l generalizing first with
  | nil => rfl
  | cons s rest ih =>
    rw [occupied]
    split
    · next hvalue => simp [ih, hvalue]
    · next hvalue => simp [ih, hvalue]

theorem Counted.length_toList (h : a.Counted) : a.toList.length = a.size := by
  rw [toList, length_occupied, h]
  rfl

/-- The number kept is that of the indexes that find a value. -/
theorem Counted.encard_eq (h : a.Counted) (fits : a.Fits) :
    {i | (a.get? i).isSome}.encard = a.size := by
  have hset : {i | (a.get? i).isSome} = ((a.toList.map Prod.fst).toFinset : Set Index) := by
    ext i
    simp [← mem_toList fits, Option.isSome_iff_exists]
  rw [hset, Set.encard_coe_eq_coe_finsetCard, List.toFinset_card_of_nodup (nodup_toList fits),
    List.length_map, h.length_toList]

/-- No more indexes find a value than the number says. -/
theorem Counted.length_le (h : a.Counted) (fits : a.Fits) {indexes : List Index}
    (hnodup : indexes.Nodup) (hfound : ∀ i ∈ indexes, (a.get? i).isSome) :
    indexes.length ≤ a.size := by
  have hsub : indexes ⊆ a.toList.map Prod.fst := by
    intro i hi
    obtain ⟨value, hvalue⟩ := Option.isSome_iff_exists.1 (hfound i hi)
    exact List.mem_map.2 ⟨(i, value), (mem_toList fits).2 hvalue, rfl⟩
  have hle := (List.subperm_of_subset hnodup hsub).length_le
  rwa [List.length_map, h.length_toList] at hle

end TreeWatch.Arena

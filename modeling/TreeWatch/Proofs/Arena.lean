import TreeWatch.Tree.Ledger

/-!
# Arenas as finite maps

What each operation of an arena does to the values found under indexes.

## Main definitions

- `Arena.WellFormed` : vacant slots are listed once and hold nothing
- `Arena.Fits` : there are enough slot numbers for the slots

## Main results

- `Arena.get?_insert`, `Arena.get?_modify`, `Arena.get?_remove` : one equation per operation
- `Arena.mem_toList`, `Arena.sorted_toList` : listing the arena gives what its indexes find, by index
- `Arena.WellFormed.insert` and its companions : well-formedness is kept

## Design notes

Slot numbers are 32-bit words. Every slot was made by an insertion of its own, so an arena into
which fewer than 2³² values were ever put fits its slot numbers. Generations may wrap around: no
equation here needs them to be new, only the slot to be vacant.
-/

namespace TreeWatch

theorem Index.eq_iff {i j : Index} :
    i = j ↔ i.slot = j.slot ∧ i.generation = j.generation := by
  cases i
  cases j
  simp

theorem Index.below_of_slot_lt {i j : Index} (h : i.slot < j.slot) : Below i j := by
  have hslot : compare i.slot j.slot = .lt := Std.compare_eq_lt.2 h
  show (compare i.slot j.slot).then _ = .lt
  rw [hslot]
  rfl

namespace Arena

variable {α : Type}

/-- Vacant slots are listed once and hold nothing. -/
structure WellFormed (a : Arena α) : Prop where
  vacant : ∀ slot ∈ a.free, ∃ s, a.slots[slot.toNat]? = some s ∧ s.value = none
  distinct : a.free.Nodup

/-- Every slot has a number of its own. -/
def Fits (a : Arena α) : Prop := a.slots.size ≤ UInt32.size

theorem wellFormed_empty : (empty : Arena α).WellFormed :=
  ⟨fun _ h => by simp [empty] at h, List.nodup_nil⟩

theorem get?_eq_some_iff {a : Arena α} {i : Index} {value : α} :
    a.get? i = some value ↔ a.slots[i.slot.toNat]? = some ⟨i.generation, some value⟩ :=
  ⟨slots_of_get?, fun h => by simp [get?, slot?, h]⟩

/-- An occupied slot is not listed as vacant. -/
theorem WellFormed.slot_notMem_free {a : Arena α} (wf : a.WellFormed) {i : Index} {value : α}
    (h : a.get? i = some value) : i.slot ∉ a.free := by
  intro hfree
  obtain ⟨s, hs, hvalue⟩ := wf.vacant _ hfree
  rw [get?_eq_some_iff.1 h] at hs
  cases hs
  simp at hvalue

/-- Overwriting a slot that is not listed as vacant keeps the vacant slots as they are. -/
theorem WellFormed.setIfInBounds {a : Arena α} (wf : a.WellFormed) {slot : UInt32} {s : Slot α}
    (h : slot ∉ a.free) :
    ({ a with slots := a.slots.setIfInBounds slot.toNat s } : Arena α).WellFormed := by
  refine ⟨fun other hother => ?_, wf.distinct⟩
  have hne : slot.toNat ≠ other.toNat := fun heq => h (UInt32.toNat_inj.1 heq ▸ hother)
  obtain ⟨s', hs', hvalue⟩ := wf.vacant other hother
  exact ⟨s', by simpa [Array.getElem?_setIfInBounds, hne] using hs', hvalue⟩

/-! ### Changing values -/

theorem WellFormed.set {a : Arena α} (wf : a.WellFormed) (i : Index) (value : α) :
    (a.set i value).WellFormed := by
  unfold Arena.set
  split
  · next present =>
    obtain ⟨old, hold⟩ := Option.isSome_iff_exists.1 present
    exact wf.setIfInBounds (wf.slot_notMem_free hold)
  · exact wf

theorem WellFormed.modify {a : Arena α} (wf : a.WellFormed) (i : Index) (f : α → α) :
    (a.modify i f).WellFormed := by
  unfold Arena.modify
  split
  · exact wf.set ..
  · exact wf

theorem get?_modify (a : Arena α) (i j : Index) (f : α → α) :
    (a.modify i f).get? j = if j = i then (a.get? j).map f else a.get? j := by
  unfold modify
  split
  · next value hvalue =>
    rw [get?_set]
    by_cases h : j = i
    · simp [h, contains, hvalue]
    · simp [h, Ne.symm h]
  · next hnone =>
    by_cases h : j = i
    · simp [h, hnone]
    · simp [h]

@[simp] theorem size_slots_set (a : Arena α) (i : Index) (value : α) :
    (a.set i value).slots.size = a.slots.size := by
  unfold set
  split <;> simp

@[simp] theorem size_slots_modify (a : Arena α) (i : Index) (f : α → α) :
    (a.modify i f).slots.size = a.slots.size := by
  unfold modify
  split <;> simp

@[simp] theorem size_modify (a : Arena α) (i : Index) (f : α → α) : (a.modify i f).size = a.size := by
  unfold modify set
  split
  · split <;> rfl
  · rfl

/-! ### Inserting values -/

theorem size_slots_insert (a : Arena α) (value : α) :
    a.slots.size ≤ (a.insert value).2.slots.size := by
  unfold insert
  split <;> simp

@[simp] theorem size_insert (a : Arena α) (value : α) : (a.insert value).2.size = a.size + 1 := by
  unfold insert
  split <;> rfl

/-- The slot of a new value: the one vacated last, or else the next one. -/
theorem insert_cases {a : Arena α} (wf : a.WellFormed) {value : α}
    (fits : (a.insert value).2.Fits) :
    (∀ s, a.slots[(a.insert value).1.slot.toNat]? = some s → s.value = none) ∧
      ∀ k, (a.insert value).2.slots[k]? =
        if k = (a.insert value).1.slot.toNat then some ⟨(a.insert value).1.generation, some value⟩
        else a.slots[k]? := by
  unfold insert at fits ⊢
  cases hfree : a.free with
  | cons slot rest =>
    obtain ⟨s, hs, hvalue⟩ := wf.vacant slot (by simp [hfree])
    have hinside : slot.toNat < a.slots.size := (Array.getElem?_eq_some_iff.1 hs).1
    simp only [hs]
    refine ⟨fun s' h => ?_, fun k => ?_⟩
    · cases h
      exact hvalue
    · rw [Array.getElem?_setIfInBounds]
      by_cases h : slot.toNat = k
      · simp [← h, hinside]
      · simp [h, Ne.symm h]
  | nil =>
    simp only [hfree, Fits, Array.size_push] at fits ⊢
    have hnat : (UInt32.ofNat a.slots.size).toNat = a.slots.size := by
      rw [UInt32.toNat_ofNat']
      exact Nat.mod_eq_of_lt (Nat.lt_of_succ_le fits)
    simp [hnat, Array.getElem?_push]

/-- The index of a new value found nothing before. -/
theorem get?_fst_insert {a : Arena α} (wf : a.WellFormed) {value : α}
    (fits : (a.insert value).2.Fits) : a.get? (a.insert value).1 = none := by
  rw [Option.eq_none_iff_forall_ne_some]
  intro v h
  have := (insert_cases wf fits).1 _ (get?_eq_some_iff.1 h)
  simp at this

theorem get?_insert {a : Arena α} (wf : a.WellFormed) {value : α}
    (fits : (a.insert value).2.Fits) (j : Index) :
    (a.insert value).2.get? j = if j = (a.insert value).1 then some value else a.get? j := by
  obtain ⟨hvacant, hslots⟩ := insert_cases wf fits
  generalize (a.insert value).1 = i at *
  ext v
  rw [get?_eq_some_iff, hslots]
  by_cases hslot : j.slot.toNat = i.slot.toNat
  · have hold : a.get? j ≠ some v := fun h => by
      have := hvacant _ (hslot ▸ get?_eq_some_iff.1 h)
      simp at this
    have hsame : j.slot = i.slot := UInt32.toNat_inj.1 hslot
    by_cases hgen : j.generation = i.generation
    · simp [Index.eq_iff, hsame, hgen]
    · simp [Index.eq_iff, hsame, hgen, Ne.symm hgen, hold]
  · have hne : j ≠ i := fun h => hslot (by rw [h])
    rw [if_neg hslot, if_neg hne, get?_eq_some_iff]

theorem WellFormed.insert {a : Arena α} (wf : a.WellFormed) (value : α) :
    (a.insert value).2.WellFormed := by
  unfold Arena.insert
  split
  · next slot rest hfree =>
    have hdistinct : (slot :: rest).Nodup := hfree ▸ wf.distinct
    obtain ⟨hslot, hrest⟩ := List.nodup_cons.1 hdistinct
    have wf' : ({ a with free := rest } : Arena α).WellFormed :=
      ⟨fun other hother => wf.vacant other (by simp [hfree, hother]), hrest⟩
    obtain ⟨vacant, distinct⟩ := wf'.setIfInBounds (s := ⟨_, some value⟩) hslot
    exact ⟨vacant, distinct⟩
  · exact ⟨fun _ h => by simp at h, List.nodup_nil⟩

/-! ### Removing values -/

theorem remove_eq_none_iff {a : Arena α} {i : Index} : a.remove i = none ↔ a.get? i = none := by
  simp [remove]

theorem get?_of_remove {a b : Arena α} {i : Index} {value : α} (h : a.remove i = some (value, b)) :
    a.get? i = some value := by
  rw [remove, Option.map_eq_some_iff] at h
  obtain ⟨old, hold, hpair⟩ := h
  cases hpair
  exact hold

theorem get?_remove {a b : Arena α} {i : Index} {value : α} (h : a.remove i = some (value, b))
    (j : Index) : b.get? j = if j = i then none else a.get? j := by
  rw [remove, Option.map_eq_some_iff] at h
  obtain ⟨old, hold, hpair⟩ := h
  cases hpair
  have hslot := get?_eq_some_iff.1 hold
  have hinside : i.slot.toNat < a.slots.size := (Array.getElem?_eq_some_iff.1 hslot).1
  ext v
  rw [get?_eq_some_iff, Array.getElem?_setIfInBounds]
  by_cases hsame : i.slot = j.slot
  · by_cases hgen : i.generation = j.generation
    · have hij : j = i := Index.eq_iff.2 ⟨hsame.symm, hgen.symm⟩
      simp [hij, hinside]
    · have hij : j ≠ i := fun h => hgen (by rw [h])
      rw [if_neg hij, get?_eq_some_iff, ← hsame, hslot]
      simp [hinside, hgen]
  · have hne : i.slot.toNat ≠ j.slot.toNat := fun heq => hsame (UInt32.toNat_inj.1 heq)
    have hij : j ≠ i := fun h => hsame (by rw [h])
    rw [if_neg hne, if_neg hij, get?_eq_some_iff]

theorem WellFormed.remove {a b : Arena α} (wf : a.WellFormed) {i : Index} {value : α}
    (h : a.remove i = some (value, b)) : b.WellFormed := by
  have hold := get?_of_remove h
  have hinside : i.slot.toNat < a.slots.size :=
    (Array.getElem?_eq_some_iff.1 (get?_eq_some_iff.1 hold)).1
  have hnew := wf.slot_notMem_free hold
  obtain ⟨vacant, _⟩ := wf.setIfInBounds (s := ⟨i.generation, none⟩) hnew
  simp only [Arena.remove, hold, Option.map_some, Option.some.injEq, Prod.mk.injEq] at h
  obtain ⟨-, rfl⟩ := h
  refine ⟨fun slot hslot => ?_, List.nodup_cons.2 ⟨hnew, wf.distinct⟩⟩
  rcases List.mem_cons.1 hslot with rfl | hslot
  · exact ⟨⟨i.generation, none⟩, by simp [hinside], rfl⟩
  · exact vacant slot hslot

theorem size_slots_remove {a b : Arena α} {i : Index} {value : α}
    (h : a.remove i = some (value, b)) : b.slots.size = a.slots.size := by
  rw [remove, Option.map_eq_some_iff] at h
  obtain ⟨old, hold, hpair⟩ := h
  cases hpair
  simp

theorem size_remove {a b : Arena α} {i : Index} {value : α} (h : a.remove i = some (value, b)) :
    b.size = a.size - 1 := by
  rw [remove, Option.map_eq_some_iff] at h
  obtain ⟨old, hold, hpair⟩ := h
  cases hpair
  rfl

/-! ### Listing values -/

theorem mem_occupied {first : Nat} {l : List (Slot α)} {i : Index} {value : α} :
    (i, value) ∈ occupied first l ↔
      ∃ k s, l[k]? = some s ∧ s.value = some value ∧ i = ⟨UInt32.ofNat (first + k), s.generation⟩ := by
  induction l generalizing first with
  | nil => simp [occupied]
  | cons s rest ih =>
    have hsplit : (∃ k s', (s :: rest)[k]? = some s' ∧ s'.value = some value ∧
          i = ⟨UInt32.ofNat (first + k), s'.generation⟩) ↔
        (s.value = some value ∧ i = ⟨UInt32.ofNat first, s.generation⟩) ∨
          ∃ k s', rest[k]? = some s' ∧ s'.value = some value ∧
            i = ⟨UInt32.ofNat (first + 1 + k), s'.generation⟩ := by
      constructor
      · rintro ⟨k, s', hk, hvalue, hi⟩
        cases k with
        | zero =>
          cases hk
          exact .inl ⟨hvalue, hi⟩
        | succ k => exact .inr ⟨k, s', hk, hvalue, by rw [hi, Nat.add_right_comm, Nat.add_assoc]⟩
      · rintro (⟨hvalue, hi⟩ | ⟨k, s', hk, hvalue, hi⟩)
        · exact ⟨0, s, rfl, hvalue, hi⟩
        · exact ⟨k + 1, s', hk, hvalue, by rw [hi, Nat.add_right_comm, Nat.add_assoc]⟩
    rw [hsplit, ← ih, occupied]
    cases hvalue : s.value with
    | none => simp
    | some v => simp [and_comm, eq_comm]

theorem mem_toList {a : Arena α} (fits : a.Fits) {i : Index} {value : α} :
    (i, value) ∈ a.toList ↔ a.get? i = some value := by
  rw [toList, mem_occupied, get?_eq_some_iff]
  simp only [Nat.zero_add, Array.getElem?_toList]
  constructor
  · rintro ⟨k, s, hk, hvalue, rfl⟩
    have hlt : k < a.slots.size := (Array.getElem?_eq_some_iff.1 hk).1
    have hnat : (UInt32.ofNat k).toNat = k := by
      rw [UInt32.toNat_ofNat']
      exact Nat.mod_eq_of_lt (Nat.lt_of_lt_of_le hlt fits)
    rw [hnat, hk, ← hvalue]
  · intro h
    exact ⟨i.slot.toNat, _, h, rfl, by simp⟩

theorem sorted_occupied {first : Nat} {l : List (Slot α)} (h : first + l.length ≤ UInt32.size) :
    ((occupied first l).map Prod.fst).Pairwise Below := by
  induction l generalizing first with
  | nil => exact List.Pairwise.nil
  | cons s rest ih =>
    simp only [List.length_cons, UInt32.size] at h
    have hrest : ((occupied (first + 1) rest).map Prod.fst).Pairwise Below :=
      ih (by simp only [UInt32.size]; omega)
    rw [occupied]
    split
    · refine List.pairwise_cons.2 ⟨fun i hi => ?_, hrest⟩
      obtain ⟨⟨_, value⟩, hmem, rfl⟩ := List.mem_map.1 hi
      obtain ⟨k, s', hk, -, rfl⟩ := mem_occupied.1 hmem
      have hlt : k < rest.length := (List.getElem?_eq_some_iff.1 hk).1
      refine Index.below_of_slot_lt (UInt32.lt_iff_toNat_lt.2 ?_)
      rw [UInt32.toNat_ofNat', UInt32.toNat_ofNat', Nat.mod_eq_of_lt (by omega),
        Nat.mod_eq_of_lt (by omega)]
      omega
    · exact hrest

/-- Values are listed in increasing order of their indexes. -/
theorem sorted_toList {a : Arena α} (fits : a.Fits) : (a.toList.map Prod.fst).Pairwise Below := by
  refine sorted_occupied ?_
  rw [Nat.zero_add, Array.length_toList]
  exact fits

/-- No index is listed twice. -/
theorem nodup_toList {a : Arena α} (fits : a.Fits) : (a.toList.map Prod.fst).Nodup :=
  List.Pairwise.imp (fun {i j} hbelow => by
    rintro rfl
    exact SortedMap.not_below_self i hbelow) (sorted_toList fits)

end Arena

end TreeWatch

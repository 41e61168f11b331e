import TreeWatch.Proofs.Arena.Age

/-!
# The history of an arena

An arena is a finite map whose keys are never used again. Each value that is put in gets an index that no
value had before, and what the arena gives for that index is its latest value, from then until the value is
removed, whatever is done with other indexes meanwhile. Before and after that it gives nothing.

## Main definitions

- `Arena.Event`, `Arena.Step` : what happens to an arena, and what it leads to
- `Arena.History` : the events that led from the empty arena to an arena
- `Arena.given`, `Arena.latest` : which indexes values got, and what became of them, read off the events
- `Arena.ActsAsMap` : an arena is such a map

## Main results

- `Arena.not_reached_insert` : the index of a new value is later than all that its slot had
- `Arena.Step.get?_eq` : what one event does to one index
- `Arena.History.nodup_given` : no two values get the same index
- `Arena.History.get?_eq` : what an index finds is its latest value
- `Arena.History.actsAsMap` : as long as fewer than 2³² values are put in, an arena is such a map

## Design notes

Reading an arena leaves it as it is, so it is no event. What is read is told of every arena to which events
lead. An event may be about any index: also one whose value was removed, or one that no value has had yet.
-/

namespace TreeWatch.Arena

/-- What happens to an arena. -/
inductive Event (α : Type) where
  /-- The value was put in and got the index. -/
  | inserted (i : Index) (value : α)
  /-- The value under the index was changed, if there was one. -/
  | modified (i : Index) (f : α → α)
  /-- The value under the index was removed, if there was one. -/
  | removed (i : Index)

variable {α : Type} {a b : Arena α} {e : Event α} {events before after : List (Event α)} {i : Index}

/-- What an event leads to. -/
inductive Step : Arena α → Event α → Arena α → Prop where
  | insert (a : Arena α) (value : α) :
      Step a (.inserted (a.insert value).1 value) (a.insert value).2
  | modify (a : Arena α) (i : Index) (f : α → α) : Step a (.modified i f) (a.modify i f)
  | remove (a : Arena α) (i : Index) : Step a (.removed i) ((a.remove i).elim a Prod.snd)

/-- The events, oldest first, that led from the empty arena to an arena. -/
inductive History : List (Event α) → Arena α → Prop where
  | empty : History [] .empty
  | step {events : List (Event α)} {e : Event α} {a b : Arena α} :
      History events a → Step a e b → History (events ++ [e]) b

namespace Event

/-- The index that a value got. -/
def given? : Event α → Option Index
  | .inserted i _ => some i
  | .modified _ _ => none
  | .removed _ => none

/-- What becomes of the value under an index. -/
def valueAfter (i : Index) (old? : Option α) : Event α → Option α
  | .inserted j value => if j = i then some value else old?
  | .modified j f => if j = i then old?.map f else old?
  | .removed j => if j = i then none else old?

end Event

/-- The indexes that values got, oldest first. -/
def given (events : List (Event α)) : List Index :=
  events.filterMap Event.given?

/-- The latest value of an index: the one that got it, changed as it was changed since, until it was
removed. -/
def latest (i : Index) (events : List (Event α)) : Option α :=
  events.foldl (fun value? e => e.valueAfter i value?) none

/-! ### Indexes that slots have reached -/

/-- The slot has had a value of the generation of the index. -/
def Reached (a : Arena α) (i : Index) : Prop :=
  ∃ s, a.slots[i.slot.toNat]? = some s ∧ 2 * i.generation.toNat ≤ s.age

theorem Ages.reached (h : a.Ages b) (hi : a.Reached i) : b.Reached i := by
  obtain ⟨s, hs, hle⟩ := hi
  obtain ⟨s', hs', hle'⟩ := h _ s hs
  exact ⟨s', hs', hle.trans hle'⟩

theorem reached_of_isSome (h : (a.get? i).isSome) : a.Reached i := by
  obtain ⟨s, hs, hage⟩ := get?_isSome_iff_age.1 h
  exact ⟨s, hs, hage.ge⟩

theorem isSome_get?_insert (wf : a.WellFormed) (few : a.made < UInt32.size) (value : α) :
    ((a.insert value).2.get? (a.insert value).1).isSome := by
  rw [get?_insert wf (fits_insert wf few value), if_pos rfl]
  rfl

/-- The index of a new value is later than all that its slot had. -/
theorem not_reached_insert (wf : a.WellFormed) (few : a.made < UInt32.size) (value : α) :
    ¬a.Reached (a.insert value).1 := by
  rintro ⟨s, hs, hle⟩
  obtain ⟨s', hs', hage⟩ := get?_isSome_iff_age.1 (isSome_get?_insert wf few value)
  obtain ⟨t, ht, hold⟩ := ages_insert wf few value _ s hs
  rw [hs'] at ht
  cases ht
  -- the slot would be as old before, so the index would have found a value already
  have hfound := get?_isSome_iff_age.2 ⟨s, hs, by omega⟩
  rw [get?_fst_insert wf (fits_insert wf few value)] at hfound
  cases hfound

/-! ### One event -/

namespace Step

/-- An event by which no value gets an index puts in nothing. -/
theorem shrinks (h : Step a e b) (hnone : e.given? = none) : a.Shrinks b := by
  cases h with
  | insert value => cases hnone
  | modify i f => exact Shrinks.refl.modify i f
  | remove i =>
    cases hremove : a.remove i with
    | none => exact .refl
    | some p => exact Shrinks.refl.remove hremove

theorem eq_insert (h : Step a e b) (hi : e.given? = some i) :
    ∃ value, i = (a.insert value).1 ∧ b = (a.insert value).2 := by
  cases h with
  | insert value =>
    cases hi
    exact ⟨value, rfl, rfl⟩
  | modify j f => cases hi
  | remove j => cases hi

theorem wellFormed (h : Step a e b) (wf : a.WellFormed) : b.WellFormed := by
  cases hgiven : e.given? with
  | none => exact (h.shrinks hgiven).wellFormed wf
  | some i =>
    obtain ⟨value, -, rfl⟩ := h.eq_insert hgiven
    exact wf.insert value

theorem counted (h : Step a e b) (wf : a.WellFormed) (hcounted : a.Counted) : b.Counted := by
  cases hgiven : e.given? with
  | none => exact (h.shrinks hgiven).counted hcounted
  | some i =>
    obtain ⟨value, -, rfl⟩ := h.eq_insert hgiven
    exact hcounted.insert wf value

theorem made_eq (h : Step a e b) (wf : a.WellFormed) (few : a.made < UInt32.size) :
    b.made = a.made + (given [e]).length := by
  cases hgiven : e.given? with
  | none => simp [given, hgiven, (h.shrinks hgiven).made_eq]
  | some i =>
    obtain ⟨value, -, rfl⟩ := h.eq_insert hgiven
    simp [given, hgiven, made_insert wf few]

theorem ages (h : Step a e b) (wf : a.WellFormed) (few : a.made < UInt32.size) : a.Ages b := by
  cases hgiven : e.given? with
  | none => exact (h.shrinks hgiven).ages
  | some i =>
    obtain ⟨value, -, rfl⟩ := h.eq_insert hgiven
    exact ages_insert wf few value

/-- What an index finds depends on nothing but what it found before. -/
theorem get?_eq (h : Step a e b) (wf : a.WellFormed) (few : a.made < UInt32.size) (i : Index) :
    b.get? i = e.valueAfter i (a.get? i) := by
  cases h with
  | insert value =>
    rw [get?_insert wf (fits_insert wf few value), Event.valueAfter]
    simp only [eq_comm]
  | modify j f =>
    rw [get?_modify, Event.valueAfter]
    simp only [eq_comm]
  | remove j =>
    rw [Event.valueAfter]
    cases hremove : a.remove j with
    | none =>
      split
      · next hij => exact remove_eq_none_iff.1 (hij ▸ hremove)
      · rfl
    | some p =>
      rw [Option.elim_some, get?_remove hremove]
      simp only [eq_comm]

end Step

/-! ### Many events -/

theorem given_append (before after : List (Event α)) :
    given (before ++ after) = given before ++ given after :=
  List.filterMap_append

/-- If few values were put in by now, few were by any time before. -/
theorem few_of_append (few : (given (before ++ after)).length < UInt32.size) :
    (given before).length < UInt32.size := by
  rw [given_append, List.length_append] at few
  exact Nat.lt_of_le_of_lt (Nat.le_add_right _ _) few

theorem latest_append_singleton (i : Index) (events : List (Event α)) (e : Event α) :
    latest i (events ++ [e]) = e.valueAfter i (latest i events) := by
  simp [latest]

/-- After a removal it is as if nothing had been done with the index. -/
theorem latest_removed (i : Index) (before after : List (Event α)) :
    latest i (before ++ .removed i :: after) = latest i after := by
  simp [latest, Event.valueAfter]

/-- An index that no value got has no value. -/
theorem latest_of_notMem_given (h : i ∉ given events) : latest i events = none := by
  induction events using List.reverseRecOn with
  | nil => rfl
  | append_singleton events e ih =>
    rw [given_append, List.mem_append, not_or] at h
    rw [latest_append_singleton, ih h.1]
    cases e with
    | inserted j value =>
      have hne : j ≠ i := fun heq => h.2 (by simp [given, Event.given?, heq])
      simp [Event.valueAfter, hne]
    | modified j f => simp [Event.valueAfter]
    | removed j => simp [Event.valueAfter]

namespace History

theorem wellFormed (h : History events a) : a.WellFormed := by
  induction h with
  | empty => exact wellFormed_empty
  | step _ hstep ih => exact hstep.wellFormed ih

theorem counted (h : History events a) : a.Counted := by
  induction h with
  | empty => exact counted_empty
  | step hbefore hstep ih => exact hstep.counted hbefore.wellFormed ih

/-- The values put in are those that got an index. -/
theorem made_eq (h : History events a) (few : (given events).length < UInt32.size) :
    a.made = (given events).length := by
  induction h with
  | empty => rfl
  | step hbefore hstep ih =>
    have hlt := few_of_append few
    have hmade := ih hlt
    rw [hstep.made_eq hbefore.wellFormed (hmade ▸ hlt), hmade, given_append, List.length_append]

theorem made_lt (h : History events a) (few : (given events).length < UInt32.size) :
    a.made < UInt32.size := by
  rw [h.made_eq few]
  exact few

/-- Slots have reached all indexes that values got. -/
theorem reached (h : History events a) (few : (given events).length < UInt32.size) :
    ∀ i ∈ given events, a.Reached i := by
  induction h with
  | empty => simp [given]
  | @step events e a b hbefore hstep ih =>
    have hlt := few_of_append few
    have hmade := hbefore.made_lt hlt
    intro i hi
    rw [given_append, List.mem_append] at hi
    rcases hi with hi | hi
    · exact (hstep.ages hbefore.wellFormed hmade).reached (ih hlt i hi)
    · have hgiven : e.given? = some i := by simpa [given] using hi
      obtain ⟨value, rfl, rfl⟩ := hstep.eq_insert hgiven
      exact reached_of_isSome (isSome_get?_insert hbefore.wellFormed hmade value)

theorem insert_notMem_given (h : History events a) (few : (given events).length < UInt32.size)
    (value : α) : (a.insert value).1 ∉ given events :=
  fun hmem => not_reached_insert h.wellFormed (h.made_lt few) value (h.reached few _ hmem)

/-- No two values get the same index. -/
theorem nodup_given (h : History events a) (few : (given events).length < UInt32.size) :
    (given events).Nodup := by
  induction h with
  | empty => exact List.nodup_nil
  | @step events e a b hbefore hstep ih =>
    have hlt := few_of_append few
    cases hgiven : e.given? with
    | none => simpa [given_append, given, hgiven] using ih hlt
    | some i =>
      obtain ⟨value, rfl, rfl⟩ := hstep.eq_insert hgiven
      have hnew := hbefore.insert_notMem_given hlt value
      have hlast : given [e] = [(a.insert value).1] := by simp [given, hgiven]
      rw [given_append, hlast]
      exact (ih hlt).append (List.nodup_singleton _) (List.disjoint_singleton.2 hnew)

/-- What an index finds is its latest value. -/
theorem get?_eq (h : History events a) (few : (given events).length < UInt32.size) (i : Index) :
    a.get? i = latest i events := by
  induction h with
  | empty => rfl
  | step hbefore hstep ih =>
    have hlt := few_of_append few
    rw [hstep.get?_eq hbefore.wellFormed (hbefore.made_lt hlt), ih hlt, latest_append_singleton]

/-- An index whose value was removed never has one again. -/
theorem latest_of_removed (h : History (before ++ .removed i :: after) a)
    (few : (given (before ++ .removed i :: after)).length < UInt32.size) (hi : i ∈ given before) :
    latest i (before ++ .removed i :: after) = none := by
  have hnodup := h.nodup_given few
  rw [given_append] at hnodup
  have hlater : i ∉ given after := fun hafter => List.disjoint_of_nodup_append hnodup hi hafter
  rw [latest_removed, latest_of_notMem_given hlater]

end History

/-! ### The arena as a map -/

/-- After the events the arena is a finite map whose keys are never used again. -/
structure ActsAsMap (a : Arena α) (events : List (Event α)) : Prop where
  /-- A new value gets an index that no value had before. -/
  insert_new : ∀ value, (a.insert value).1 ∉ given events
  /-- A slot that is to be used again is in the table, where the next value is put into it. -/
  free_inside : ∀ slot ∈ a.free, slot.toNat < a.slots.size
  /-- An index finds its latest value. -/
  get?_eq : ∀ i, a.get? i = latest i events
  /-- An index is present as long as it has a value. -/
  contains_eq : ∀ i, a.contains i = (latest i events).isSome
  /-- The latest value is what is removed. -/
  remove_eq : ∀ i, (a.remove i).map Prod.fst = latest i events
  /-- The latest value is what is changed; without one the arena stays as it is. -/
  modify_eq : ∀ i f, a.modify i f = (latest i events).elim a fun value => a.set i (f value)
  /-- An index finds nothing until a value gets it. -/
  get?_of_not_given : ∀ i ∉ given events, a.get? i = none
  /-- An index finds nothing once its value was removed, whatever was put into its slot since. -/
  get?_of_removed : ∀ before i after, events = before ++ .removed i :: after → i ∈ given before →
    a.get? i = none
  /-- The size is the number of indexes that have a value. -/
  size_eq : {i | (latest i events).isSome}.encard = a.size
  /-- The indexes that have a value are listed with it, and no others. -/
  mem_toList : ∀ i value, (i, value) ∈ a.toList ↔ latest i events = some value
  /-- They are listed in increasing order, each once. -/
  sorted_toList : (a.toList.map Prod.fst).Pairwise Below

/-- Whatever is done with an arena, it is a map whose keys are never used again, as long as fewer than 2³²
values are put in. -/
theorem History.actsAsMap (h : History events a) (few : (given events).length < UInt32.size) :
    a.ActsAsMap events := by
  have fits := fits_of_made (h.made_lt few)
  have hget := h.get?_eq few
  exact
    { insert_new := h.insert_notMem_given few
      free_inside := fun slot hslot => by
        obtain ⟨s, hs, -⟩ := h.wellFormed.vacant slot hslot
        exact (Array.getElem?_eq_some_iff.1 hs).1
      get?_eq := hget
      contains_eq := fun i => by rw [contains, hget]
      remove_eq := fun i => by
        rw [← hget, remove, Option.map_map]
        exact Option.map_id'
      modify_eq := fun i f => by
        rw [← hget, modify]
        cases a.get? i <;> rfl
      get?_of_not_given := fun i hi => by rw [hget, latest_of_notMem_given hi]
      get?_of_removed := by
        rintro before i after rfl hi
        rw [hget, h.latest_of_removed few hi]
      size_eq := by
        simp only [← hget]
        exact h.counted.encard_eq fits
      mem_toList := fun i value => by rw [Arena.mem_toList fits, hget]
      sorted_toList := Arena.sorted_toList fits }

/-- Of two values the second is removed, and a third takes its slot. Then the first is changed, and the
second is to be removed once more. -/
def slotUsedAgain : List (Event Char) :=
  [.inserted ⟨0, 0⟩ 'a', .inserted ⟨1, 0⟩ 'b', .removed ⟨1, 0⟩, .inserted ⟨1, 1⟩ 'c',
    .modified ⟨0, 0⟩ Char.toUpper, .removed ⟨1, 0⟩]

theorem actsAsMap_slotUsedAgain : ∃ a : Arena Char, History slotUsedAgain a ∧
    (given slotUsedAgain).length < UInt32.size ∧ a.ActsAsMap slotUsedAgain ∧ a.get? ⟨1, 0⟩ = none ∧
    a.toList = [(⟨0, 0⟩, 'A'), (⟨1, 1⟩, 'c')] ∧ a.size = 2 := by
  have hinserted := (History.empty.step (.insert _ 'a')).step (.insert _ 'b')
  have hagain := (hinserted.step (.remove _ ⟨1, 0⟩)).step (.insert _ 'c')
  have hall := (hagain.step (.modify _ ⟨0, 0⟩ Char.toUpper)).step (.remove _ ⟨1, 0⟩)
  have hfew : (given slotUsedAgain).length < UInt32.size := by decide
  exact ⟨_, hall, hfew, History.actsAsMap hall hfew, by decide, by decide, by decide⟩

end TreeWatch.Arena

/-!
# Association lists

Lookup and erasure on lists of key-value pairs: the part that the two kinds of finite map of this
library share.

## Main definitions

- `Assoc.get?` : the value of the first pair with a key
- `Assoc.erase` : the list without the pairs of a key
- `Assoc.keys` : the keys, in order
-/

namespace TreeWatch.Assoc

universe u v
variable {κ : Type u} {α : Type v} [DecidableEq κ]

/-- The keys of the pairs, in order. -/
def keys (l : List (κ × α)) : List κ :=
  l.map Prod.fst

/-- The value of the first pair whose key is `k`. -/
def get? (k : κ) : List (κ × α) → Option α
  | [] => none
  | (k', a) :: rest => if k' = k then some a else get? k rest

/-- The list without the pairs whose key is `k`. -/
def erase (k : κ) (l : List (κ × α)) : List (κ × α) :=
  l.filter fun p => p.1 ≠ k

@[simp] theorem get?_nil (k : κ) : get? k ([] : List (κ × α)) = none := rfl

theorem get?_cons (k k' : κ) (a : α) (l : List (κ × α)) :
    get? k ((k', a) :: l) = if k' = k then some a else get? k l := rfl

theorem get?_append (k : κ) (l m : List (κ × α)) :
    get? k (l ++ m) = (get? k l).or (get? k m) := by
  induction l with
  | nil => simp
  | cons p l ih =>
    obtain ⟨k', a⟩ := p
    by_cases h : k' = k <;> simp [get?_cons, h, ih]

theorem get?_erase (k k' : κ) (l : List (κ × α)) :
    get? k' (erase k l) = if k' = k then none else get? k' l := by
  induction l with
  | nil => simp [erase]
  | cons p l ih =>
    obtain ⟨k₀, a⟩ := p
    rw [erase] at ih ⊢
    by_cases h : k₀ = k
    · -- the first pair goes; a look-up that found it asked for its key
      subst h
      rw [List.filter_cons_of_neg (by simp), ih, get?_cons]
      by_cases h' : k' = k₀
      · simp [h']
      · simp [h', Ne.symm h']
    · rw [List.filter_cons_of_pos (by simpa using h), get?_cons, get?_cons, ih]
      by_cases h' : k₀ = k'
      · subst h'
        simp [h]
      · simp [h']

/-- Changing every value as its pair demands changes the value of each key. -/
theorem get?_map (k : κ) (l : List (κ × α)) (f : κ → α → α) :
    get? k (l.map fun p => (p.1, f p.1 p.2)) = (get? k l).map (f k) := by
  induction l with
  | nil => rfl
  | cons p l ih =>
    rw [List.map_cons, get?_cons, get?_cons, ih]
    split
    · next heq => rw [heq, Option.map_some]
    · rfl

theorem mem_of_get? {k : κ} {a : α} {l : List (κ × α)} (h : get? k l = some a) : (k, a) ∈ l := by
  induction l with
  | nil => simp at h
  | cons p l ih =>
    obtain ⟨k', b⟩ := p
    rw [get?_cons] at h
    split at h
    · next heq =>
      cases h
      exact heq ▸ List.mem_cons_self
    · exact List.mem_cons_of_mem _ (ih h)

/-- With distinct keys a pair is a member exactly if its key looks it up. -/
theorem get?_eq_some_iff {k : κ} {a : α} {l : List (κ × α)} (distinct : (keys l).Nodup) :
    get? k l = some a ↔ (k, a) ∈ l := by
  refine ⟨mem_of_get?, fun h => ?_⟩
  induction l with
  | nil => simp at h
  | cons p l ih =>
    obtain ⟨k', b⟩ := p
    rw [get?_cons]
    simp only [keys, List.map_cons, List.nodup_cons] at distinct
    rcases List.mem_cons.1 h with h | h
    · cases h
      simp
    · have : k' ≠ k := by
        rintro rfl
        exact distinct.1 (List.mem_map.2 ⟨_, h, rfl⟩)
      simp [this, ih distinct.2 h]

theorem get?_isSome_iff {k : κ} {l : List (κ × α)} : (get? k l).isSome ↔ k ∈ keys l := by
  induction l with
  | nil => simp [keys]
  | cons p l ih =>
    obtain ⟨k', b⟩ := p
    rw [get?_cons]
    by_cases h : k' = k
    · simp [h, keys]
    · simp only [h, if_false, ih]
      simp [keys, Ne.symm h]

theorem keys_erase (k : κ) (l : List (κ × α)) : keys (erase k l) = (keys l).filter (· ≠ k) := by
  simp [keys, erase, List.filter_map, Function.comp_def]

end TreeWatch.Assoc

import TreeWatch.Filesystem

/-!
# Names in paths

A name that was put at the end of a path is found there again, and so is every name that a path was
put together of.

## Main definitions

- `Path.Undivided` : names that a directory can list
- `Path.Named` : names that a directory can bind

## Main results

- `Path.components_join`, `Path.fileName?_join` : the name that was put at the end
- `Path.named_of_mem_components` : a path is made of names that a directory can bind
-/

namespace TreeWatch.Path

/-- The name stays in one piece when it is part of a path. -/
def Undivided (name : Bytes) : Prop := name ≠ [] ∧ separator ∉ name

instance (name : Bytes) : Decidable (Undivided name) :=
  inferInstanceAs (Decidable (name ≠ [] ∧ separator ∉ name))

/-- The name stands neither for the directory itself nor for the one above either. -/
structure Named (name : Bytes) : Prop where
  undivided : Undivided name
  proper : isPseudoName name = false

variable {p q name : Bytes}

theorem split_ne_nil (p : Path) : split p ≠ [] := by
  cases p with
  | nil => simp [split]
  | cons b rest =>
    rw [split]
    split
    · simp
    · split <;> simp

theorem split_of_undivided (h : separator ∉ q) : split q = [q] := by
  induction q with
  | nil => rfl
  | cons b rest ih =>
    have hb : separator ≠ b := fun heq => h (heq ▸ .head rest)
    have hrest : separator ∉ rest := fun hmem => h (.tail b hmem)
    rw [split, if_neg fun heq => hb heq.symm, ih hrest]

/-- A separator divides the stretches before it from those behind. -/
theorem split_append_separator (p q : Path) : split (p ++ separator :: q) = split p ++ split q := by
  induction p with
  | nil => simp [split]
  | cons b rest ih =>
    rw [List.cons_append, split, ih, split]
    split
    · rfl
    · cases hrest : split rest with
      | nil => exact absurd hrest (split_ne_nil rest)
      | cons s more => rfl

theorem isAbsolute_of_undivided (h : separator ∉ name) : isAbsolute name = false := by
  cases name with
  | nil => rfl
  | cons b rest =>
    have hb : b ≠ separator := fun heq => h (heq ▸ .head rest)
    simp [isAbsolute, hb]

/-- The last stretch of a path to which a name was added is that name. The ones before are those of
the path, but for an empty one at its end. -/
theorem exists_split_join (p : Path) (h : separator ∉ name) :
    ∃ front, split (join p name) = front ++ [name] ∧
      (split p = front ∨ split p = front ++ [[]]) := by
  rw [join, isAbsolute_of_undivided h, if_neg Bool.false_ne_true]
  split
  · next hend =>
    rcases p.eq_nil_or_concat with rfl | ⟨before, b, rfl⟩
    · exact ⟨[], split_of_undivided h, .inr rfl⟩
    · have hb : b = separator := by simpa using hend
      refine ⟨split before, ?_, .inr ?_⟩
      · rw [hb, List.concat_eq_append, List.append_assoc, List.singleton_append,
          split_append_separator, split_of_undivided h]
      · rw [hb, List.concat_eq_append, split_append_separator]
        rfl
  · exact ⟨split p, by rw [split_append_separator, split_of_undivided h], .inl rfl⟩

theorem isAbsolute_join (p : Path) (h : separator ∉ name) :
    isAbsolute (join p name) = isAbsolute p := by
  have hrelative := isAbsolute_of_undivided h
  rw [join, hrelative, if_neg Bool.false_ne_true]
  cases p with
  | nil => exact hrelative
  | cons b rest => split <;> rfl

theorem Named.component?_eq (h : Named name) : component? name = some (.name name) := by
  have hproper := h.proper
  simp only [isPseudoName, Bool.or_eq_false_iff, decide_eq_false_iff_not] at hproper
  simp [component?, h.undivided.1, hproper.1, hproper.2]

theorem Named.ne_dot (h : Named name) : name ≠ dot := by
  rintro rfl
  exact absurd h.proper (by decide)

/-- A name that is put at the end is a component more. -/
theorem components_join (p : Path) (h : Named name) :
    components (join p name) = components p ++ [.name name] := by
  obtain ⟨front, hjoin, hp⟩ := exists_split_join p h.undivided.2
  have hfront : (split p).filterMap component? = front.filterMap component? := by
    rcases hp with hp | hp <;> simp [hp, component?]
  have hhead : (split (join p name)).head? = some dot ↔ (split p).head? = some dot := by
    cases front with
    | nil =>
      have hempty : dot ≠ [] := by decide
      simp [hjoin, hp.resolve_left (split_ne_nil p), h.ne_dot, hempty.symm]
    | cons s rest => rcases hp with hp | hp <;> simp [hjoin, hp]
  simp only [components, isAbsolute_join p h.undivided.2, hhead]
  rw [hjoin, List.filterMap_append, List.filterMap_cons, h.component?_eq, List.filterMap_nil,
    hfront, List.append_assoc]

/-- The name put at the end of a path is its last component. -/
theorem fileName?_join (p : Path) (h : Named name) : fileName? (join p name) = some name := by
  rw [fileName?, components_join p h, List.getLast?_concat]

/-! ### Names of paths -/

theorem separator_notMem_of_mem_split {s : Bytes} (h : s ∈ split p) : separator ∉ s := by
  induction p generalizing s with
  | nil => simp_all [split]
  | cons b rest ih =>
    rw [split] at h
    split at h
    · rcases List.mem_cons.mp h with rfl | hrest
      · simp
      · exact ih hrest
    · next hb =>
      split at h
      · next hrest => exact absurd hrest (split_ne_nil rest)
      · next first more hsplit =>
        rw [hsplit] at ih
        rcases List.mem_cons.mp h with rfl | hmore
        · have hfirst := ih (.head more)
          simp [hfirst, Ne.symm hb]
        · exact ih (.tail first hmore)

theorem named_of_component? {s : Bytes} (hs : separator ∉ s)
    (h : component? s = some (.name name)) : Named name := by
  unfold component? at h
  split at h
  · cases h
  · next hdot =>
    split at h
    · cases h
    · next hdotDot =>
      cases h
      simp only [Bool.or_eq_true, decide_eq_true_eq, not_or] at hdot
      exact ⟨⟨hdot.1, hs⟩, by simp [isPseudoName, hdot.2, hdotDot]⟩

/-- The names that a path is made of can be bound in directories. -/
theorem named_of_mem_components (h : Component.name name ∈ components p) : Named name := by
  simp only [components, List.mem_append, List.mem_filterMap] at h
  rcases h with hfront | ⟨s, hs, hname⟩
  · split at hfront
    · simp at hfront
    · split at hfront <;> simp at hfront
  · exact named_of_component? (separator_notMem_of_mem_split hs) hname

theorem named_of_fileName? (h : fileName? p = some name) : Named name := by
  unfold fileName? at h
  split at h
  · next hlast =>
    cases h
    exact named_of_mem_components (List.mem_of_getLast? hlast)
  · cases h

theorem components_foldl_join (p : Path) {names : List Bytes} (h : ∀ name ∈ names, Named name) :
    components (names.foldl join p) = components p ++ names.map .name := by
  induction names generalizing p with
  | nil => simp
  | cons name rest ih =>
    obtain ⟨hname, hrest⟩ := List.forall_mem_cons.mp h
    rw [List.foldl_cons, ih _ hrest, components_join p hname, List.append_assoc]
    rfl

end TreeWatch.Path

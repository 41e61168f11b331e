import TreeWatch.Disk.Basic

/-!
# Disks in order

What holds of every disk that operations on disks lead to, and that each building block of the
operations keeps it.

## Main definitions

- `Node.Ordinary` : an object about which all calls succeed
- `Disk.nameCount` : how many names an object has
- `Disk.Named` : the root, and every object with a name
- `Disk.Owing` : a disk in order, but for some names taken away and not yet counted
- `Disk.Regular` : a disk in order

## Main results

- `Disk.Regular.named_iff` : exactly the objects with a positive count have names
- `Disk.Owing.bind`, `Disk.Owing.unbind`, `Disk.Owing.release`, `Disk.Owing.addNode`
- `Disk.Owing.exists_release` : counting down what is owed does not fail

## Design notes

An object is counted down after its name has been taken out of the directory. In between, and while
the objects inside a vanishing directory wait for their turn, counts are too high by what is still
owed; `Owing` carries the list of these debts, which is also the work list of `Disk.release`.
-/

namespace TreeWatch

namespace Assoc

variable {κ α : Type} [DecidableEq κ] [DecidableEq α]

/-- Taking a key out takes its value out once. -/
theorem count_erase {l : List (κ × α)} (distinct : (keys l).Nodup) {k : κ} {a : α}
    (h : get? k l = some a) (b : α) :
    (l.map Prod.snd).count b = ((erase k l).map Prod.snd).count b + if a = b then 1 else 0 := by
  induction l with
  | nil => cases h
  | cons p l ih =>
    obtain ⟨k', a'⟩ := p
    simp only [keys, List.map_cons, List.nodup_cons] at distinct
    rw [get?_cons] at h
    by_cases hk : k' = k
    · rw [if_pos hk] at h
      obtain rfl := Option.some.inj h
      have hrest : erase k l = l := by
        rw [erase, List.filter_eq_self]
        intro q hq
        have hne : q.1 ≠ k := fun heq => distinct.1 (hk ▸ heq ▸ List.mem_map_of_mem hq)
        simp [hne]
      have herase : erase k ((k', a') :: l) = l := by
        rw [erase, List.filter_cons_of_neg (by simp [hk]), ← erase, hrest]
      rw [herase, List.map_cons, List.count_cons]
      simp
    · rw [if_neg hk] at h
      have herase : erase k ((k', a') :: l) = (k', a') :: erase k l := by
        rw [erase, List.filter_cons_of_pos (by simp [hk]), ← erase]
      rw [herase, List.map_cons, List.map_cons, List.count_cons, List.count_cons,
        ih distinct.2 h]
      omega

end Assoc

namespace SortedMap

variable {κ α : Type} [Ord κ] [DecidableEq κ] [DecidableEq α]

theorem count_values_erase [Std.TransOrd κ] {m : SortedMap κ α} {k : κ} {a : α}
    (h : m.get? k = some a) (b : α) :
    m.values.count b = (m.erase k).values.count b + if a = b then 1 else 0 :=
  Assoc.count_erase m.distinct h b

/-- A new key brings its value in once. -/
theorem count_place [Std.TransOrd κ] [Std.LawfulEqOrd κ] {l : List (κ × α)} {k : κ}
    (h : Assoc.get? k l = none) (a b : α) :
    ((place k a l).map Prod.snd).count b =
      (l.map Prod.snd).count b + if a = b then 1 else 0 := by
  induction l with
  | nil => simp [place, List.count_cons]
  | cons p rest ih =>
    obtain ⟨k', a'⟩ := p
    rw [Assoc.get?_cons] at h
    rw [place]
    split
    · simp [List.count_cons]
    · next heq =>
      rw [if_pos (Std.LawfulEqCmp.eq_of_compare heq).symm] at h
      cases h
    · split at h
      · cases h
      · rw [List.map_cons, List.map_cons, List.count_cons, List.count_cons, ih h]
        omega

theorem count_values_insert [Std.TransOrd κ] [Std.LawfulEqOrd κ] {m : SortedMap κ α} {k : κ}
    (h : m.get? k = none) (a b : α) :
    (m.insert k a).values.count b = m.values.count b + if a = b then 1 else 0 :=
  count_place h a b

omit [DecidableEq α] in
theorem mem_values_iff [Std.TransOrd κ] {m : SortedMap κ α} {a : α} :
    a ∈ m.values ↔ ∃ k, m.get? k = some a := by
  unfold values
  rw [List.mem_map]
  constructor
  · rintro ⟨⟨k, a'⟩, hp, rfl⟩
    exact ⟨k, get?_eq_some_iff.2 hp⟩
  · rintro ⟨k, hk⟩
    exact ⟨(k, a), get?_eq_some_iff.1 hk, rfl⟩

end SortedMap

/-- The object has a token, everything listed in it has an object, and it can be listed. -/
def Node.Ordinary (n : Node) : Prop :=
  n.oversized = false ∧ n.phantoms = [] ∧ n.unlistable = false

instance (n : Node) : Decidable n.Ordinary := inferInstanceAs (Decidable (_ ∧ _))

namespace Disk

/-- How many names an object has. -/
def nameCount (d : Disk) (s : Serial) : Nat :=
  total (fun n => n.childMap.values.count s) d.nodes

/-- The object has a name, or is the root. -/
def Named (d : Disk) (s : Serial) : Prop :=
  s = rootSerial ∨ ∃ dir name, d.child? dir name = some s

/-- A disk in order, but that the objects in the list are counted with a name too many, once for
each time they occur. -/
structure Owing (d : Disk) (owed : List Serial) : Prop where
  root_directory : ∃ n, d.node? rootSerial = some n ∧ n.children.isSome
  fits : d.nodes.length < capacity
  bound_exists : ∀ {dir name s}, d.child? dir name = some s → ∃ n, d.node? s = some n
  bound_proper : ∀ {dir name s}, d.child? dir name = some s → isPseudoName name = false
  directory_iff : ∀ {s n}, d.node? s = some n →
    (n.children.isSome ↔ FileKind.ofMode n.mode = .directory)
  links_eq : ∀ {s n}, d.node? s = some n →
    n.links = d.nameCount s + (if s = rootSerial then 1 else 0) + owed.count s

/-- A disk in order. -/
abbrev Regular (d : Disk) : Prop := d.Owing []

variable {d d' : Disk} {s : Serial} {n m : Node} {owed : List Serial}

/-! ### Names -/

theorem total_pos_iff {α : Type} {f : α → Nat} {l : List α} :
    0 < total f l ↔ ∃ a ∈ l, 0 < f a := by
  induction l with
  | nil => simp [total]
  | cons a l ih =>
    rw [total]
    simp only [List.mem_cons, exists_eq_or_imp, ← ih]
    omega

theorem nameCount_pos_iff : 0 < d.nameCount s ↔ ∃ dir name, d.child? dir name = some s := by
  rw [nameCount, total_pos_iff]
  simp only [List.count_pos_iff, SortedMap.mem_values_iff, child?, node?, Option.bind_eq_some_iff]
  constructor
  · rintro ⟨n, hn, name, hname⟩
    obtain ⟨dir, hdir⟩ := List.mem_iff_getElem?.1 hn
    exact ⟨dir, name, n, hdir, hname⟩
  · rintro ⟨dir, name, n, hdir, hname⟩
    exact ⟨n, List.mem_of_getElem? hdir, name, hname⟩

/-- Exactly the objects that count a name have one. -/
theorem Regular.named_iff (h : d.Regular) (hn : d.node? s = some n) : d.Named s ↔ 0 < n.links := by
  have hlinks := h.links_eq hn
  rw [Named, ← nameCount_pos_iff]
  split at hlinks
  · next hroot =>
    simp only [hroot, true_or, true_iff]
    omega
  · next hroot =>
    simp only [hroot, false_or]
    simp only [List.count_nil] at hlinks
    omega

theorem Owing.exists_node_of_named (h : d.Owing owed) (hs : d.Named s) : ∃ n, d.node? s = some n := by
  rcases hs with rfl | ⟨dir, name, hbound⟩
  · obtain ⟨n, hn, -⟩ := h.root_directory
    exact ⟨n, hn⟩
  · exact h.bound_exists hbound

/-! ### Replacing an object -/

theorem node?_setNode (hn : d.node? s = some n) (x : Serial) :
    (d.setNode s m).node? x = if x = s then some m else d.node? x := by
  have hinside : s < d.nodes.length := (List.getElem?_eq_some_iff.1 hn).1
  simp only [node?, setNode, List.getElem?_set]
  by_cases h : x = s
  · subst h
    simp [hinside]
  · simp [h, Ne.symm h]

theorem child?_setNode (hn : d.node? s = some n) (dir : Serial) (name : Bytes) :
    (d.setNode s m).child? dir name =
      if dir = s then m.childMap.get? name else d.child? dir name := by
  rw [child?, node?_setNode hn]
  split <;> rfl

theorem nameCount_setNode (hn : d.node? s = some n) (x : Serial) :
    (d.setNode s m).nameCount x + n.childMap.values.count x =
      d.nameCount x + m.childMap.values.count x :=
  total_set (fun n => n.childMap.values.count x) d.nodes s m n hn

theorem node?_modifyNode (s : Serial) (f : Node → Node) (x : Serial) :
    (d.modifyNode s f).node? x = if x = s then (d.node? x).map f else d.node? x := by
  show (d.nodes.modify s f)[x]? = _
  rw [List.getElem?_modify]
  by_cases h : s = x
  · subst h
    simp [node?]
  · simp [node?, h, Ne.symm h]

theorem modifyNode_eq_setNode {f : Node → Node} (hn : d.node? s = some n) :
    d.modifyNode s f = d.setNode s (f n) := by
  have hnodes : d.nodes.modify s f = d.nodes.set s (f n) := by
    obtain ⟨hinside, hget⟩ := List.getElem?_eq_some_iff.1 hn
    refine List.ext_getElem? fun x => ?_
    rw [List.getElem?_modify, List.getElem?_set]
    by_cases h : s = x
    · subst h
      simp [hget, hinside]
    · simp [h]
  rw [modifyNode, setNode, hnodes]

/-- An object is replaced by one of the same kind whose names are all right. What has to be shown
besides is that the counts add up again. -/
theorem Owing.setNode {owed' : List Serial} (h : d.Owing owed) (hn : d.node? s = some n)
    (hmode : m.mode = n.mode) (hdir : m.children.isSome = n.children.isSome)
    (hnames : ∀ {name c}, m.childMap.get? name = some c →
      (∃ n', d.node? c = some n') ∧ isPseudoName name = false)
    (hsame : m.links + n.childMap.values.count s + owed.count s =
      n.links + m.childMap.values.count s + owed'.count s)
    (hothers : ∀ x, x ≠ s → n.childMap.values.count x + owed.count x =
      m.childMap.values.count x + owed'.count x) :
    (d.setNode s m).Owing owed' where
  root_directory := by
    obtain ⟨r, hr, hrdir⟩ := h.root_directory
    rw [node?_setNode hn]
    split
    · next hroot =>
      rw [hroot, hn] at hr
      cases hr
      exact ⟨m, rfl, hdir ▸ hrdir⟩
    · exact ⟨r, hr, hrdir⟩
  fits := by
    simpa [Disk.setNode] using h.fits
  bound_exists := by
    intro dir name c hc
    have hlive : ∃ n', d.node? c = some n' := by
      rw [child?_setNode hn] at hc
      split at hc
      · exact (hnames hc).1
      · exact h.bound_exists hc
    rw [node?_setNode hn]
    split
    · exact ⟨m, rfl⟩
    · exact hlive
  bound_proper := by
    intro dir name c hc
    rw [child?_setNode hn] at hc
    split at hc
    · exact (hnames hc).2
    · exact h.bound_proper hc
  directory_iff := by
    intro x n' hn'
    rw [node?_setNode hn] at hn'
    split at hn'
    · cases hn'
      rw [hdir, hmode]
      exact h.directory_iff hn
    · exact h.directory_iff hn'
  links_eq := by
    intro x n' hn'
    -- names inside the object count for others, and maybe for itself
    have hcount := nameCount_setNode (m := m) hn x
    rw [node?_setNode hn] at hn'
    split at hn'
    · next hx =>
      cases hn'
      subst hx
      have hlinks := h.links_eq hn
      omega
    · next hx =>
      have hlinks := h.links_eq hn'
      have hbalance := hothers x hx
      omega

/-! ### Binding and unbinding names -/

theorem bind_eq_ok {dir : Serial} {name : Bytes} (h : d.bind dir name s = .ok d') :
    ∃ n children, d.node? dir = some n ∧ n.children = some children ∧ children.get? name = none ∧
      d' = d.setNode dir { n with children := some (children.insert name s) } := by
  unfold bind at h
  split at h
  · cases h
  · next children hchildren =>
    split at h
    · cases h
    · next hfree =>
      obtain ⟨n, hn, hsome⟩ := Option.bind_eq_some_iff.1 hchildren
      cases h
      refine ⟨n, children, hn, hsome, by simpa [SortedMap.contains] using hfree, ?_⟩
      rw [modifyNode_eq_setNode hn]

theorem unbind_eq_ok {dir : Serial} {name : Bytes} (h : d.unbind dir name = .ok (s, d')) :
    ∃ n children, d.node? dir = some n ∧ n.children = some children ∧
      children.get? name = some s ∧
      d' = d.setNode dir { n with children := some (children.erase name) } := by
  unfold unbind at h
  split at h
  · cases h
  · next children hchildren =>
    split at h
    · cases h
    · next c hc =>
      obtain ⟨n, hn, hsome⟩ := Option.bind_eq_some_iff.1 hchildren
      cases h
      refine ⟨n, children, hn, hsome, hc, ?_⟩
      rw [modifyNode_eq_setNode hn]

theorem child?_eq_of_children {dir : Serial} {children : SortedMap Bytes Serial}
    (hn : d.node? dir = some n) (hchildren : n.children = some children) (name : Bytes) :
    d.child? dir name = children.get? name := by
  simp [child?, hn, Node.childMap, hchildren]

theorem child?_eq_of_unbind {dir : Serial} {name : Bytes} (h : d.unbind dir name = .ok (s, d')) :
    d.child? dir name = some s := by
  obtain ⟨n, children, hn, hchildren, hget, -⟩ := unbind_eq_ok h
  rw [child?_eq_of_children hn hchildren, hget]

/-- A name pays back what is owed to its object. -/
theorem Owing.bind {dir : Serial} {name : Bytes} (h : d.Owing (s :: owed))
    (hs : ∃ n, d.node? s = some n) (hproper : isPseudoName name = false)
    (hbind : d.bind dir name s = .ok d') : d'.Owing owed := by
  obtain ⟨n, children, hn, hchildren, hfree, rfl⟩ := bind_eq_ok hbind
  have hcount := SortedMap.count_values_insert hfree s
  refine h.setNode hn rfl (by simp [hchildren]) ?_ ?_ ?_
  · intro name' c hc
    simp only [Node.childMap, Option.getD_some, SortedMap.get?_insert] at hc
    split at hc
    · next hname =>
      cases hc
      exact ⟨hs, hname ▸ hproper⟩
    · rw [← child?_eq_of_children hn hchildren] at hc
      exact ⟨h.bound_exists hc, h.bound_proper hc⟩
  · have := hcount dir
    simp only [Node.childMap, hchildren, Option.getD_some, List.count_cons, beq_iff_eq] at this ⊢
    omega
  · intro x hx
    have := hcount x
    simp only [Node.childMap, hchildren, Option.getD_some, List.count_cons, beq_iff_eq] at this ⊢
    omega

/-- What loses a name is owed one. -/
theorem Owing.unbind {dir : Serial} {name : Bytes} (h : d.Owing owed)
    (hunbind : d.unbind dir name = .ok (s, d')) : d'.Owing (s :: owed) := by
  obtain ⟨n, children, hn, hchildren, hbound, rfl⟩ := unbind_eq_ok hunbind
  have hcount := SortedMap.count_values_erase hbound
  refine h.setNode hn rfl (by simp [hchildren]) ?_ ?_ ?_
  · intro name' c hc
    simp only [Node.childMap, Option.getD_some, SortedMap.get?_erase] at hc
    split at hc
    · cases hc
    · rw [← child?_eq_of_children hn hchildren] at hc
      exact ⟨h.bound_exists hc, h.bound_proper hc⟩
  · have := hcount dir
    simp only [Node.childMap, hchildren, Option.getD_some, List.count_cons, beq_iff_eq] at this ⊢
    omega
  · intro x hx
    have := hcount x
    simp only [Node.childMap, hchildren, Option.getD_some, List.count_cons, beq_iff_eq] at this ⊢
    omega

/-! ### Counting down -/

theorem childMap_emptied (n : Node) : n.emptied.childMap = .empty := by
  cases h : n.children <;> simp [Node.emptied, Node.childMap, h]

theorem release_cons_none {rest : List Serial} (hn : d.node? s = none) :
    d.release (s :: rest) = d.release rest := by
  rw [Disk.release]
  split
  · rfl
  · next heq =>
    rw [hn] at heq
    cases heq

/-- Counting down by one, according to how many names there were. -/
theorem release_cons_some {rest : List Serial} (hn : d.node? s = some n) :
    d.release (s :: rest) =
      match n.links with
      | 0 => .error .linkUnderflow
      | 1 => (d.setNode s n.emptied).release (n.childMap.values ++ rest)
      | links + 1 => (d.setNode s { n with links }).release rest := by
  rw [Disk.release]
  split
  · next heq =>
    rw [hn] at heq
    cases heq
  · next heq =>
    rw [hn] at heq
    cases heq
    rfl

/-- What counting down keeps, if each of its steps does. -/
theorem release_induction {motive : Disk → List Serial → Prop}
    (hskip : ∀ {d s rest}, d.node? s = none → motive d (s :: rest) → motive d rest)
    (hlast : ∀ {d s rest n}, d.node? s = some n → n.links = 1 → motive d (s :: rest) →
      motive (d.setNode s n.emptied) (n.childMap.values ++ rest))
    (hmore : ∀ {d s rest n links}, d.node? s = some n → n.links = links + 2 →
      motive d (s :: rest) → motive (d.setNode s { n with links := links + 1 }) rest)
    {pending : List Serial} (h : motive d pending) (hrelease : d.release pending = .ok d') :
    motive d' [] := by
  induction d, pending using Disk.release.induct with
  | case1 d =>
    rw [Disk.release] at hrelease
    cases hrelease
    exact h
  | case2 d s rest hn ih =>
    rw [release_cons_none hn] at hrelease
    exact ih (hskip hn h) hrelease
  | case3 d s rest n hn hlinks =>
    rw [release_cons_some hn, hlinks] at hrelease
    cases hrelease
  | case4 d s rest n hn hlinks hless ih =>
    rw [release_cons_some hn, hlinks] at hrelease
    exact ih (hlast hn hlinks h) hrelease
  | case5 d s rest n hn links hne hlinks hless ih =>
    obtain ⟨links, rfl⟩ := Nat.exists_eq_succ_of_ne_zero hne
    rw [release_cons_some hn, hlinks] at hrelease
    exact ih (hmore hn hlinks h) hrelease

/-- What is no object is owed nothing. -/
theorem Owing.release_none {rest : List Serial} (h : d.Owing (s :: rest ++ owed))
    (hnone : d.node? s = none) : d.Owing (rest ++ owed) := by
  refine { h with links_eq := fun {x n} hn => ?_ }
  have hlinks := h.links_eq hn
  have hne : s ≠ x := by
    rintro rfl
    rw [hnone] at hn
    cases hn
  rwa [List.cons_append, List.count_cons_of_ne hne] at hlinks

/-- An object that goes leaves debts to what was inside it. -/
theorem Owing.release_last {rest : List Serial} (h : d.Owing (s :: rest ++ owed))
    (hn : d.node? s = some n) (hlinks : n.links = 1) :
    (d.setNode s n.emptied).Owing (n.childMap.values ++ rest ++ owed) := by
  have hempty : n.emptied.childMap.values = [] := by
    rw [childMap_emptied]
    rfl
  refine h.setNode hn rfl (by simp [Node.emptied]) ?_ ?_ ?_
  · intro name c hc
    rw [childMap_emptied] at hc
    cases hc
  · have hzero : n.emptied.links = 0 := rfl
    rw [hempty, hzero]
    simp only [List.cons_append, List.append_assoc, List.count_append, List.count_cons_self,
      List.count_nil]
    omega
  · intro x hx
    rw [hempty]
    simp only [List.cons_append, List.append_assoc, List.count_append,
      List.count_cons_of_ne (Ne.symm hx), List.count_nil]
    omega

theorem Owing.release_more {rest : List Serial} {links : Nat} (h : d.Owing (s :: rest ++ owed))
    (hn : d.node? s = some n) (hlinks : n.links = links + 2) :
    (d.setNode s { n with links := links + 1 }).Owing (rest ++ owed) := by
  refine h.setNode hn rfl rfl ?_ ?_ ?_
  · intro name c hc
    have hbound : d.child? s name = some c := by
      rw [child?, hn]
      exact hc
    exact ⟨h.bound_exists hbound, h.bound_proper hbound⟩
  · simp only [Node.childMap, List.cons_append, List.count_cons_self]
    omega
  · intro x hx
    simp only [Node.childMap, List.cons_append, List.count_cons_of_ne (Ne.symm hx)]

/-- Paying back what is owed, also to the objects that vanish with their directories. -/
theorem Owing.release {pending : List Serial} (h : d.Owing (pending ++ owed))
    (hrelease : d.release pending = .ok d') : d'.Owing owed := by
  -- what is still pending is owed on top of the rest
  refine release_induction (motive := fun d pending => d.Owing (pending ++ owed)) ?_ ?_ ?_ h hrelease
  · exact fun hnone h => h.release_none hnone
  · exact fun hn hlinks h => h.release_last hn hlinks
  · exact fun hn hlinks h => h.release_more hn hlinks

/-- What is owed can be paid back: nothing that is counted down has no name. -/
theorem Owing.exists_release {pending : List Serial} (h : d.Owing (pending ++ owed)) :
    ∃ d', d.release pending = .ok d' := by
  induction d, pending using Disk.release.induct with
  | case1 d => exact ⟨d, by rw [Disk.release]⟩
  | case2 d s rest hn ih =>
    rw [release_cons_none hn]
    exact ih (h.release_none hn)
  | case3 d s rest n hn hzero =>
    have hlinks := h.links_eq hn
    rw [List.cons_append, List.count_cons_self] at hlinks
    omega
  | case4 d s rest n hn hlinks hless ih =>
    rw [release_cons_some hn, hlinks]
    exact ih (h.release_last hn hlinks)
  | case5 d s rest n hn links hne hlinks hless ih =>
    obtain ⟨links, rfl⟩ := Nat.exists_eq_succ_of_ne_zero hne
    rw [release_cons_some hn, hlinks]
    exact ih (h.release_more hn hlinks)

/-! ### New objects -/

/-- The object that is made. -/
def newNode (d : Disk) (ino : UInt64) (mode : UInt32) : Node where
  ino := ino
  mode := mode
  fingerprint := d.tick.freshFingerprint 0
  children := if FileKind.ofMode mode = .directory then some .empty else none

@[simp] theorem childMap_newNode (ino : UInt64) (mode : UInt32) :
    (d.newNode ino mode).childMap = .empty := by
  by_cases h : FileKind.ofMode mode = .directory <;> simp [newNode, Node.childMap, h]

theorem isSome_children_newNode (ino : UInt64) (mode : UInt32) :
    (d.newNode ino mode).children.isSome ↔ FileKind.ofMode mode = .directory := by
  by_cases h : FileKind.ofMode mode = .directory <;> simp [newNode, h]

theorem node?_addNode (ino : UInt64) (mode : UInt32) (x : Serial) :
    (d.addNode ino mode).node? x =
      if x = d.nodes.length then some (d.newNode ino mode) else d.node? x := by
  have heq : (d.addNode ino mode).node? x = (d.nodes ++ [d.newNode ino mode])[x]? := rfl
  rw [heq, List.getElem?_append]
  by_cases hx : x = d.nodes.length
  · simp [hx]
  · rw [if_neg hx]
    split
    · rfl
    · next hge =>
      have hlt : d.nodes.length < x := Nat.lt_of_le_of_ne (Nat.le_of_not_lt hge) (Ne.symm hx)
      have hnone : d.node? x = none := List.getElem?_eq_none (Nat.le_of_lt hlt)
      rw [hnone, List.getElem?_eq_none]
      exact Nat.succ_le_of_lt (Nat.sub_pos_of_lt hlt)

theorem node?_length (d : Disk) : d.node? d.nodes.length = none :=
  List.getElem?_eq_none (Nat.le_refl _)

theorem child?_addNode (ino : UInt64) (mode : UInt32) (dir : Serial) (name : Bytes) :
    (d.addNode ino mode).child? dir name = d.child? dir name := by
  rw [child?, node?_addNode]
  split
  · next hdir =>
    subst hdir
    rw [child?, node?_length]
    simp
  · rfl

theorem nameCount_addNode (ino : UInt64) (mode : UInt32) (x : Serial) :
    (d.addNode ino mode).nameCount x = d.nameCount x := by
  have happend : ∀ l : List Node, total (fun n => n.childMap.values.count x)
      (l ++ [d.newNode ino mode]) = total (fun n => n.childMap.values.count x) l := by
    intro l
    induction l with
    | nil =>
      rw [List.nil_append, total, total, childMap_newNode]
      rfl
    | cons n l ih => rw [List.cons_append, total, total, ih]
  exact happend d.nodes

/-- A new object is owed a name. -/
theorem Owing.addNode (h : d.Regular) (hroom : d.nodes.length + 1 < capacity) (ino : UInt64)
    (mode : UInt32) : (d.addNode ino mode).Owing [d.nodes.length] where
  root_directory := by
    obtain ⟨r, hr, hrdir⟩ := h.root_directory
    refine ⟨r, ?_, hrdir⟩
    rw [node?_addNode, if_neg, hr]
    intro hlength
    rw [hlength, node?_length] at hr
    cases hr
  fits := by
    have hlength : (d.addNode ino mode).nodes.length = d.nodes.length + 1 := by
      simp [Disk.addNode, tick]
    omega
  bound_exists := by
    intro dir name c hc
    rw [child?_addNode] at hc
    rw [node?_addNode]
    split
    · exact ⟨_, rfl⟩
    · exact h.bound_exists hc
  bound_proper := by
    intro dir name c hc
    rw [child?_addNode] at hc
    exact h.bound_proper hc
  directory_iff := by
    intro x n hn
    rw [node?_addNode] at hn
    split at hn
    · cases hn
      exact isSome_children_newNode ino mode
    · exact h.directory_iff hn
  links_eq := by
    intro x n hn
    rw [node?_addNode] at hn
    rw [nameCount_addNode]
    split at hn
    · next hx =>
      cases hn
      -- nothing leads to a serial number that has not been given out
      have hunnamed : ¬0 < d.nameCount x := by
        intro hpos
        obtain ⟨dir, name, hbound⟩ := nameCount_pos_iff.1 hpos
        obtain ⟨n, hn⟩ := h.bound_exists hbound
        rw [hx, node?_length] at hn
        cases hn
      have hroot : x ≠ rootSerial := by
        rintro rfl
        obtain ⟨r, hr, -⟩ := h.root_directory
        rw [hx, node?_length] at hr
        cases hr
      have hone : (d.newNode ino mode).links = 1 := rfl
      subst hx
      rw [hone, if_neg hroot, List.count_singleton_self]
      omega
    · next hx =>
      have hcount : [d.nodes.length].count x = 0 := by
        simp [Ne.symm hx]
      rw [hcount]
      exact h.links_eq hn

end Disk

end TreeWatch

import TreeWatch.Proofs.Disk.Operation

/-!
# Orderly operations

Operations that mark no object, give no directory a second name and put no directory below itself. They
leave a disk in plain order: what can be reached from the root, or through a handle, is without circles.

## Main definitions

- `Disk.Becomes` : objects are as before, but that names may have gone and one object been put in
- `Disk.Operation.Orderly` : an operation that keeps a disk in plain order
- `Disk.Uncircled` : no directory that matters lies below itself

## Main results

- `Disk.Operation.child?_back`, `Disk.Operation.node?_back` : where names and objects come from
- `Disk.Operation.uncircled`, `Disk.Operation.Orderly.acyclic` : orderly operations make no circles
-/

namespace TreeWatch.Disk

variable {d d' d'' : Disk} {new : Option (Serial × Serial)}

/-! ### Where names and objects come from -/

/-- Every object was there before. It counts no more names, is no less ordinary and has no further names
inside, but for the object that is put in. -/
def Becomes (new : Option (Serial × Serial)) (d d' : Disk) : Prop :=
  ∀ x n', d'.node? x = some n' → ∃ n, d.node? x = some n ∧ n'.links ≤ n.links ∧
    (n.Ordinary → n'.Ordinary) ∧ ∀ name c, n'.childMap.get? name = some c →
      n.childMap.get? name = some c ∨ new = some (x, c)

theorem Becomes.refl : d.Becomes new d :=
  fun _ n hn => ⟨n, hn, Nat.le_refl _, id, fun _ _ hc => .inl hc⟩

theorem Becomes.trans (h : d.Becomes new d') (h' : d'.Becomes new d'') : d.Becomes new d'' := by
  intro x n'' hn''
  obtain ⟨n', hn', hlinks', hordinary', hnames'⟩ := h' x n'' hn''
  obtain ⟨n, hn, hlinks, hordinary, hnames⟩ := h x n' hn'
  refine ⟨n, hn, Nat.le_trans hlinks' hlinks, fun hplain => hordinary' (hordinary hplain), ?_⟩
  intro name c hc
  rcases hnames' name c hc with hold | hnew
  · exact hnames name c hold
  · exact .inr hnew

theorem becomes_setNode {s : Serial} {n m : Node} (hn : d.node? s = some n)
    (hlinks : m.links ≤ n.links) (hordinary : n.Ordinary → m.Ordinary)
    (hnames : ∀ name c, m.childMap.get? name = some c →
      n.childMap.get? name = some c ∨ new = some (s, c)) : d.Becomes new (d.setNode s m) := by
  intro x n' hn'
  rw [node?_setNode hn] at hn'
  split at hn'
  · next hx =>
    subst hx
    cases hn'
    exact ⟨n, hn, hlinks, hordinary, hnames⟩
  · exact ⟨n', hn', Nat.le_refl _, id, fun _ _ hc => .inl hc⟩

theorem becomes_bind {dir s : Serial} {name : Bytes} (h : d.bind dir name s = .ok d') :
    d.Becomes (some (dir, s)) d' := by
  obtain ⟨n, children, hn, hchildren, -, rfl⟩ := bind_eq_ok h
  refine becomes_setNode hn (Nat.le_refl _) id fun name' c hc => ?_
  simp only [Node.childMap, Option.getD_some, SortedMap.get?_insert] at hc
  split at hc
  · cases hc
    exact .inr rfl
  · rw [Node.childMap, hchildren]
    exact .inl hc

theorem becomes_unbind {dir s : Serial} {name : Bytes} (h : d.unbind dir name = .ok (s, d')) :
    d.Becomes new d' := by
  obtain ⟨n, children, hn, hchildren, -, rfl⟩ := unbind_eq_ok h
  refine becomes_setNode hn (Nat.le_refl _) id fun name' c hc => ?_
  simp only [Node.childMap, Option.getD_some, SortedMap.get?_erase] at hc
  split at hc
  · cases hc
  · rw [Node.childMap, hchildren]
    exact .inl hc

theorem becomes_release {pending : List Serial} (h : d.release pending = .ok d') :
    d.Becomes new d' := by
  refine release_induction (motive := fun d₁ _ => d.Becomes new d₁) ?_ ?_ ?_ Becomes.refl h
  · exact fun _ hbecomes => hbecomes
  · intro d₁ s rest n hn _ hbecomes
    refine hbecomes.trans (becomes_setNode hn (Nat.zero_le _) ?_ fun name c hc => ?_)
    · exact fun hplain => ⟨hplain.1, rfl, hplain.2.2⟩
    · rw [childMap_emptied] at hc
      cases hc
  · intro d₁ s rest n links hn hlinks hbecomes
    refine hbecomes.trans (becomes_setNode hn ?_ id fun name c hc => .inl hc)
    rw [hlinks]
    exact Nat.le_succ _

variable {marks : Bool} {ps : List Serial}

/-- An object was there before or is new; in both cases it is ordinary unless objects are marked. If it
counts more names than before, it had one. -/
theorem Rewired.node?_back (h : Rewired marks ps new d d') {x : Serial} {n' : Node}
    (hn' : d'.node? x = some n') :
    (∃ n, d.node? x = some n ∧ (n'.links ≤ n.links ∨ d.Named x) ∧
      (marks = false → n.Ordinary → n'.Ordinary)) ∨ (d.node? x = none ∧ n'.Ordinary) := by
  have hold : ∀ {new}, d.Becomes new d' → ∃ n, d.node? x = some n ∧
      (n'.links ≤ n.links ∨ d.Named x) ∧ (marks = false → n.Ordinary → n'.Ordinary) := by
    intro new hbecomes
    obtain ⟨n, hn, hlinks, hordinary, -⟩ := hbecomes x n' hn'
    exact ⟨n, hn, .inl hlinks, fun _ => hordinary⟩
  cases h with
  | make _ _ hbind =>
    obtain ⟨n, hn, hlinks, hordinary, -⟩ := becomes_bind hbind x n' hn'
    rw [node?_addNode] at hn
    split at hn
    · next hx =>
      cases hn
      exact .inr ⟨hx ▸ node?_length d, hordinary ⟨rfl, rfl, rfl⟩⟩
    · exact .inl ⟨n, hn, .inl hlinks, fun _ => hordinary⟩
  | link _ _ hs hbind =>
    obtain ⟨m, hm, hlinks, hordinary, -⟩ := becomes_bind hbind x n' hn'
    rw [node?_modifyNode] at hm
    split at hm
    · next hx =>
      -- the object that is linked counts a name more, and has one
      obtain ⟨n, hn, rfl⟩ := Option.map_eq_some_iff.1 hm
      exact .inl ⟨n, hn, .inr (hx ▸ hs.named), fun _ => hordinary⟩
    · exact .inl ⟨m, hm, .inl hlinks, fun _ => hordinary⟩
  | remove hunbind hrelease =>
    have hbecomes : d.Becomes none d' := (becomes_unbind hunbind).trans (becomes_release hrelease)
    exact .inl (hold hbecomes)
  | move _ hunbind hbind => exact .inl (hold ((becomes_unbind hunbind).trans (becomes_bind hbind)))
  | replace _ hunbind hunbind' hrelease hbind =>
    exact .inl (hold (((becomes_unbind hunbind).trans (becomes_unbind hunbind')).trans
      ((becomes_release hrelease).trans (becomes_bind hbind))))
  | touch hf _ hmarks =>
    rw [node?_modifyNode] at hn'
    split at hn'
    · obtain ⟨n, hn, rfl⟩ := Option.map_eq_some_iff.1 hn'
      exact .inl ⟨n, hn, .inl (Nat.le_of_eq (hf n).2.2.1), fun hmark => hmarks hmark n⟩
    · exact .inl ⟨n', hn', .inl (Nat.le_refl _), fun _ => id⟩

theorem Becomes.child?_back (h : d.Becomes new d') {x c : Serial} {name : Bytes}
    (hc : d'.child? x name = some c) : d.child? x name = some c ∨ new = some (x, c) := by
  obtain ⟨n', hn', hget⟩ := Option.bind_eq_some_iff.1 hc
  obtain ⟨n, hn, -, -, hnames⟩ := h x n' hn'
  rw [child?, hn]
  exact hnames name c hget

/-- A name was there before or has been put in. -/
theorem Rewired.child?_back (h : Rewired marks ps new d d') {x c : Serial} {name : Bytes}
    (hc : d'.child? x name = some c) : d.child? x name = some c ∨ new = some (x, c) := by
  cases h with
  | make _ _ hbind =>
    have hback := (becomes_bind hbind).child?_back hc
    rwa [child?_addNode] at hback
  | link _ _ _ hbind =>
    have hback := (becomes_bind hbind).child?_back hc
    rw [child?_modifyNode] at hback
    · exact hback
    · exact fun _ => rfl
  | remove hunbind hrelease =>
    exact ((becomes_unbind hunbind).trans (becomes_release hrelease)).child?_back hc
  | move _ hunbind hbind => exact ((becomes_unbind hunbind).trans (becomes_bind hbind)).child?_back hc
  | replace _ hunbind hunbind' hrelease hbind =>
    exact (((becomes_unbind hunbind).trans (becomes_unbind hunbind')).trans
      ((becomes_release hrelease).trans (becomes_bind hbind))).child?_back hc
  | touch hf _ _ =>
    rw [child?_modifyNode fun n => (hf n).2.2.2] at hc
    exact .inl hc

/-! ### Parents -/

theorem isDirectory_iff_of_keeps (h : d.Keeps d') (hd : d.Regular) (hd' : d'.Regular) {x : Serial}
    {n : Node} (hn : d.node? x = some n) : d'.isDirectory x ↔ d.isDirectory x := by
  obtain ⟨n', hn', -, hmode, -⟩ := h x n hn
  rw [isDirectory_iff_of_node? hn', isDirectory_iff_of_node? hn, hd'.directory_iff hn',
    hd.directory_iff hn, hmode]

theorem isDirectory_of_bind {dir s : Serial} {name : Bytes} (h : d.bind dir name s = .ok d') :
    d.isDirectory dir := by
  obtain ⟨n, children, hn, hchildren, -⟩ := bind_eq_ok h
  exact (isDirectory_iff_of_node? hn).2 (by simp [hchildren])

theorem isDirectory_of_unbind {dir s : Serial} {name : Bytes} (h : d.unbind dir name = .ok (s, d')) :
    d.isDirectory dir := by
  obtain ⟨n, children, hn, hchildren, -⟩ := unbind_eq_ok h
  exact (isDirectory_iff_of_node? hn).2 (by simp [hchildren])

theorem isDirectory_setNode {s x : Serial} {n m : Node} (hn : d.node? s = some n)
    (hm : m.children.isSome = n.children.isSome) :
    (d.setNode s m).isDirectory x = d.isDirectory x := by
  rw [isDirectory, node?_setNode hn]
  split
  · next hx =>
    subst hx
    rw [isDirectory, hn, Option.bind_some, Option.bind_some, hm]
  · rfl

theorem isDirectory_modifyNode {s x : Serial} {f : Node → Node}
    (hf : ∀ n, (f n).children = n.children) :
    (d.modifyNode s f).isDirectory x = d.isDirectory x := by
  rw [isDirectory, node?_modifyNode, isDirectory]
  split
  · cases d.node? x with
    | none => rfl
    | some n => rw [Option.map_some, Option.bind_some, Option.bind_some, hf]
  · rfl

theorem isDirectory_eq_of_unbind {dir s x : Serial} {name : Bytes}
    (h : d.unbind dir name = .ok (s, d')) : d'.isDirectory x = d.isDirectory x := by
  obtain ⟨n, children, hn, hchildren, -, rfl⟩ := unbind_eq_ok h
  exact isDirectory_setNode hn (by simp [hchildren])

theorem Rewired.isDirectory_parent (h : Rewired marks ps new d d') {p : Serial} (hp : p ∈ ps)
    (hlive : ∃ n, d.node? p = some n) : d.isDirectory p := by
  obtain ⟨n, hn⟩ := hlive
  cases h with
  | make _ _ hbind =>
    obtain rfl := List.mem_singleton.1 hp
    have hdir := isDirectory_of_bind hbind
    have hne : p ≠ d.nodes.length := by
      rintro rfl
      rw [node?_length] at hn
      cases hn
    rwa [isDirectory, node?_addNode, if_neg hne] at hdir
  | link _ _ _ hbind =>
    obtain rfl := List.mem_singleton.1 hp
    have hdir := isDirectory_of_bind hbind
    rw [isDirectory_modifyNode] at hdir
    · exact hdir
    · exact fun _ => rfl
  | remove hunbind _ =>
    obtain rfl := List.mem_singleton.1 hp
    exact isDirectory_of_unbind hunbind
  | move _ hunbind hbind =>
    rcases List.mem_cons.1 hp with rfl | hp
    · exact isDirectory_of_unbind hunbind
    · obtain rfl := List.mem_singleton.1 hp
      have hdir := isDirectory_of_bind hbind
      rwa [isDirectory_eq_of_unbind hunbind] at hdir
  | replace _ hunbind hunbind' _ _ =>
    rcases List.mem_cons.1 hp with rfl | hp
    · exact isDirectory_of_unbind hunbind
    · obtain rfl := List.mem_singleton.1 hp
      have hdir := isDirectory_of_unbind hunbind'
      rwa [isDirectory_eq_of_unbind hunbind] at hdir
  | touch _ _ _ => cases hp

namespace Operation

variable {op : Operation}

theorem reachable_of_mem_parentOf {path : Path} {p : Serial} (hp : p ∈ d.parentOf path) :
    d.Reachable p := by
  unfold parentOf at hp
  split at hp
  · next hsplit =>
    obtain rfl := List.mem_singleton.1 hp
    exact (split_eq_ok hsplit).1
  · cases hp

/-- Paths lead to the parents of an operation. -/
theorem reachable_parent {p : Serial} (hp : p ∈ op.parents d) : d.Reachable p := by
  cases op with
  | rename source target =>
    rcases List.mem_append.1 hp with hp | hp <;> exact reachable_of_mem_parentOf hp
  | write _ _ => cases hp
  | markOversized _ => cases hp
  | addPhantom _ _ _ => cases hp
  | failListing _ => cases hp
  | mkdir _ => exact reachable_of_mem_parentOf hp
  | create _ => exact reachable_of_mem_parentOf hp
  | createWithIno _ _ => exact reachable_of_mem_parentOf hp
  | link _ _ => exact reachable_of_mem_parentOf hp
  | remove _ => exact reachable_of_mem_parentOf hp

theorem isDirectory_parent (h : op.apply d = .ok d') (hd : d.Regular) {p : Serial}
    (hp : p ∈ op.parents d) : d.isDirectory p := by
  obtain ⟨d₀, hnodes, hrewired⟩ := op.rewired h
  have hsame : d₀.isDirectory p = d.isDirectory p := by rw [isDirectory, node?, hnodes]; rfl
  rw [← hsame]
  refine hrewired.isDirectory_parent hp ?_
  rw [node?, hnodes]
  exact hd.exists_node_of_named (reachable_parent hp).named

/-- Serial numbers go on to mean directories or other objects. -/
theorem isDirectory_iff (h : op.apply d = .ok d') (hd : d.Regular) {x : Serial} {n : Node}
    (hn : d.node? x = some n) : d'.isDirectory x ↔ d.isDirectory x :=
  isDirectory_iff_of_keeps (Operation.keeps h) hd (Operation.regular h hd) hn

theorem node?_back (h : op.apply d = .ok d') {x : Serial} {n' : Node} (hn' : d'.node? x = some n') :
    (∃ n, d.node? x = some n ∧ (n'.links ≤ n.links ∨ d.Named x) ∧
      (op.marks = false → n.Ordinary → n'.Ordinary)) ∨ (d.node? x = none ∧ n'.Ordinary) := by
  obtain ⟨d₀, hnodes, hrewired⟩ := op.rewired h
  have hback := hrewired.node?_back hn'
  rw [Named, node?, hnodes] at hback
  simp only [child?, node?, hnodes] at hback
  exact hback

theorem child?_back (h : op.apply d = .ok d') {x c : Serial} {name : Bytes}
    (hc : d'.child? x name = some c) : d.child? x name = some c ∨ op.added d = some (x, c) := by
  obtain ⟨d₀, hnodes, hrewired⟩ := op.rewired h
  have hback := hrewired.child?_back hc
  rw [child?, node?, hnodes] at hback
  exact hback

/-- What has a name after an operation had one before, or it is new. -/
theorem named_back (h : op.apply d = .ok d') (hd : d.Regular) {x : Serial} (hx : d'.Named x) :
    d.Named x ∨ d.node? x = none := by
  have hd' := Operation.regular h hd
  obtain ⟨n', hn'⟩ := hd'.exists_node_of_named hx
  have hpos : 0 < n'.links := (hd'.named_iff hn').1 hx
  rcases node?_back h hn' with ⟨n, hn, hle | hnamed, -⟩ | ⟨hnone, -⟩
  · exact .inl ((hd.named_iff hn).2 (Nat.lt_of_lt_of_le hpos hle))
  · exact .inl hnamed
  · exact .inr hnone

/-! ### Orderly operations -/

/-- The operation marks no object, gives no further name to a directory, and moves no directory into
itself or below itself. -/
def Orderly (op : Operation) (d : Disk) : Prop :=
  match op with
  | .markOversized _ | .addPhantom .. | .failListing _ => False
  | .link existing _ => ∀ s, d.serialOf existing = .ok s → ¬d.isDirectory s
  | .rename source target => ∀ dir name s dir' name', d.split source = .ok (dir, name) →
      d.child? dir name = some s → d.split target = .ok (dir', name') → ¬d.Below s dir'
  | .mkdir _ | .create _ | .createWithIno .. | .remove _ | .write .. => True

theorem Orderly.marks_eq (h : op.Orderly d) : op.marks = false := by
  cases op with
  | markOversized _ => exact h.elim
  | addPhantom _ _ _ => exact h.elim
  | failListing _ => exact h.elim
  | _ => rfl

theorem orderly_link {existing path : Path} {s : Serial} (hs : d.serialOf existing = .ok s)
    (hfile : d.isDirectory s = false) : (link existing path).Orderly d := by
  intro s' hs'
  cases hs.symm.trans hs'
  simp [hfile]

/-- A directory without directories inside may be moved anywhere but into itself. -/
theorem orderly_rename {source target : Path} {dir dir' s : Serial} {name name' : Bytes}
    (hsource : d.split source = .ok (dir, name)) (hs : d.child? dir name = some s)
    (htarget : d.split target = .ok (dir', name')) (hne : s ≠ dir')
    (hfiles : ∀ x ∈ (d.nodes[s]?.map fun n => n.childMap.values).getD [], d.isDirectory x = false) :
    (rename source target).Orderly d := by
  intro dir₁ name₁ s₁ dir₁' name₁' hsource₁ hs₁ htarget₁ hbelow
  cases hsource.symm.trans hsource₁
  cases hs.symm.trans hs₁
  cases htarget.symm.trans htarget₁
  rcases Relation.ReflTransGen.cases_head hbelow with heq | ⟨x, ⟨⟨inside, hinside⟩, hdir⟩, -⟩
  · exact hne heq
  · obtain ⟨n, hn, hget⟩ := Option.bind_eq_some_iff.1 hinside
    have hnode : d.nodes[s]? = some n := hn
    have hfile := hfiles x (by
      rw [hnode]
      exact SortedMap.mem_values_iff.2 ⟨inside, hget⟩)
    rw [hfile] at hdir
    cases hdir

theorem place_eq_some {path : Path} {s a b : Serial} (h : d.place path s = some (a, b)) :
    b = s ∧ ∃ name, d.split path = .ok (a, name) := by
  unfold place at h
  cases hsplit : d.split path with
  | error e =>
    rw [hsplit] at h
    cases h
  | ok p =>
    rw [hsplit] at h
    cases h
    exact ⟨rfl, p.2, rfl⟩

/-- An object is put into a parent of the operation. It was reachable before and is no directory above
that parent, or it is new. -/
theorem Orderly.of_added (horderly : op.Orderly d) {a s : Serial}
    (hadded : op.added d = some (a, s)) : a ∈ op.parents d ∧
      (s = d.nodes.length ∨ d.Reachable s ∧ (d.isDirectory s → ¬d.Below s a)) := by
  have hplace : ∀ {path : Path} {b : Serial}, d.place path b = some (a, s) →
      s = b ∧ a ∈ d.parentOf path := by
    intro path b h
    obtain ⟨heq, name, hsplit⟩ := place_eq_some h
    exact ⟨heq, by rw [parentOf_eq hsplit]; exact List.mem_singleton_self a⟩
  cases op with
  | mkdir _ => exact ⟨(hplace hadded).2, .inl (hplace hadded).1⟩
  | create _ => exact ⟨(hplace hadded).2, .inl (hplace hadded).1⟩
  | createWithIno _ _ => exact ⟨(hplace hadded).2, .inl (hplace hadded).1⟩
  | link existing path =>
    obtain ⟨b, hb, hinto⟩ := Option.bind_eq_some_iff.1 hadded
    obtain ⟨rfl, hparent⟩ := hplace hinto
    cases hserial : d.serialOf existing with
    | error e =>
      rw [hserial] at hb
      cases hb
    | ok s' =>
      rw [hserial] at hb
      cases hb
      exact ⟨hparent, .inr ⟨reachable_serialOf hserial, fun hdir => absurd hdir (horderly s hserial)⟩⟩
  | rename source target =>
    obtain ⟨⟨dir, name⟩, hsource, hbound⟩ := Option.bind_eq_some_iff.1 hadded
    obtain ⟨b, hb, hinto⟩ := Option.bind_eq_some_iff.1 hbound
    obtain ⟨rfl, name', htarget⟩ := place_eq_some hinto
    cases hsplit : d.split source with
    | error e =>
      rw [hsplit] at hsource
      cases hsource
    | ok p =>
      rw [hsplit] at hsource
      cases hsource
      refine ⟨List.mem_append_right _ (hplace hinto).2, .inr ⟨?_, fun _ => ?_⟩⟩
      · exact (split_eq_ok hsplit).1.tail ⟨name, hb⟩
      · exact horderly dir name s a name' hsplit hb htarget
  | remove _ => cases hadded
  | write _ _ => cases hadded
  | markOversized _ => cases hadded
  | addPhantom _ _ _ => cases hadded
  | failListing _ => cases hadded

end Operation

/-! ### Circles -/

section ways

variable {α : Type} {R R' : α → α → Prop} {edge : Option (α × α)} {x y : α}

/-- A way along a relation with one more edge goes along the old one, or it leads to that edge and on
from there. -/
theorem reflTransGen_of_edge (hedge : ∀ x y, R' x y → R x y ∨ edge = some (x, y))
    (h : Relation.ReflTransGen R' x y) : Relation.ReflTransGen R x y ∨
      ∃ a b, edge = some (a, b) ∧ Relation.ReflTransGen R x a ∧ Relation.ReflTransGen R b y := by
  induction h with
  | refl => exact .inl .refl
  | @tail y z _ hlast ih =>
    rcases hedge y z hlast with hold | hnew
    · rcases ih with hway | ⟨a, b, hab, hxa, hby⟩
      · exact .inl (hway.tail hold)
      · exact .inr ⟨a, b, hab, hxa, hby.tail hold⟩
    · rcases ih with hway | ⟨a, b, hab, hxa, -⟩
      · exact .inr ⟨y, z, hnew, hway, .refl⟩
      · rw [hnew] at hab
        cases hab
        exact .inr ⟨y, z, hnew, hxa, .refl⟩

/-- An edge closes no circle if there is no way back from its end to its beginning. -/
theorem transGen_of_edge (hedge : ∀ x y, R' x y → R x y ∨ edge = some (x, y))
    (hback : ∀ a b, edge = some (a, b) → ¬Relation.ReflTransGen R b a)
    (h : Relation.TransGen R' x x) : Relation.TransGen R x x := by
  obtain ⟨y, hy, hyx⟩ := Relation.TransGen.head'_iff.1 h
  rcases hedge x y hy with hold | hnew
  · rcases reflTransGen_of_edge hedge hyx with hway | ⟨a, b, hab, hya, hbx⟩
    · exact .head' hold hway
    · exact absurd ((hbx.tail hold).trans hya) (hback a b hab)
  · rcases reflTransGen_of_edge hedge hyx with hway | ⟨a, b, hab, hya, hbx⟩
    · exact absurd hway (hback x y hnew)
    · rw [hnew] at hab
      cases hab
      exact absurd hbx (hback x y hnew)

end ways

/-- No directory below the root or below one of the handles lies below itself. -/
def Uncircled (d : Disk) (handles : List Serial) : Prop :=
  ∀ h c, (h = rootSerial ∨ h ∈ handles) → d.Below h c → ¬Relation.TransGen d.Subdirectory c c

theorem SingleNamed.uncircled (h : d.SingleNamed) (hd : d.Regular) : d.Uncircled [] := by
  rintro s c (rfl | hs) hc
  · exact h.acyclic hd hc
  · cases hs

theorem Uncircled.shallow {handles : List Serial} (h : d.Uncircled handles) {s : Serial}
    (hs : d.isDirectory s) (hmem : s = rootSerial ∨ s ∈ handles) :
    d.Shallow (d.nodes.length + 1) s :=
  shallow_of_acyclic hs fun c hc => h s c hmem hc

theorem Uncircled.mono {handles handles' : List Serial} (h : d.Uncircled handles)
    (hsubset : ∀ s ∈ handles', s ∈ handles) : d.Uncircled handles' :=
  fun s c hs hc => h s c (hs.imp_right (hsubset s)) hc

theorem isDirectory_of_circle {b c : Serial} (hbc : d.Below b c)
    (hcycle : Relation.TransGen d.Subdirectory c c) : d.isDirectory b := by
  have hway : Relation.TransGen d.Subdirectory b c := .trans_right hbc hcycle
  obtain ⟨x, ⟨⟨name, hname⟩, -⟩, -⟩ := Relation.TransGen.head'_iff.1 hway
  exact isDirectory_of_child? hname

theorem acyclic_empty : Disk.empty.Acyclic := by
  intro c hcircle
  have hinside : c < 1 := lt_of_isDirectory (isDirectory_of_circle .refl hcircle)
  obtain rfl : c = rootSerial := Nat.lt_one_iff.1 hinside
  exact (singleNamed_of_links (by decide)).acyclic regular_empty .refl hcircle

namespace Operation

variable {op : Operation}

theorem subdirectory_back (h : op.apply d = .ok d') (hd : d.Regular) (x y : Serial)
    (hxy : d'.Subdirectory x y) : d.Subdirectory x y ∨ op.added d = some (x, y) := by
  obtain ⟨⟨name, hname⟩, hdir⟩ := hxy
  rcases child?_back h hname with hold | hnew
  · obtain ⟨n, hn⟩ := hd.bound_exists hold
    exact .inl ⟨⟨name, hold⟩, (isDirectory_iff h hd hn).1 hdir⟩
  · exact .inr hnew

/-- There is no way down from what is put in to where it is put. -/
theorem Orderly.not_below (horderly : op.Orderly d) (h : op.apply d = .ok d') (hd : d.Regular)
    (a s : Serial) (hadded : op.added d = some (a, s)) : ¬d.Below s a := by
  intro hbelow
  obtain ⟨hparent, hs⟩ := horderly.of_added hadded
  rcases Relation.ReflTransGen.cases_head hbelow with rfl | ⟨b, ⟨⟨name, hname⟩, -⟩, -⟩
  · -- parents are directories, and they are not new
    have hdir := isDirectory_parent h hd hparent
    rcases hs with rfl | ⟨-, hnot⟩
    · exact absurd (lt_of_isDirectory hdir) (Nat.lt_irrefl _)
    · exact hnot hdir .refl
  · have hdir : d.isDirectory s := isDirectory_of_child? hname
    rcases hs with rfl | ⟨-, hnot⟩
    · exact absurd (lt_of_isDirectory hdir) (Nat.lt_irrefl _)
    · exact hnot hdir hbelow

theorem Orderly.acyclic (horderly : op.Orderly d) (h : op.apply d = .ok d') (hd : d.Regular)
    (hacyclic : d.Acyclic) : d'.Acyclic :=
  fun c hcircle =>
    hacyclic c (transGen_of_edge (subdirectory_back h hd) (horderly.not_below h hd) hcircle)

theorem Orderly.ordinary (horderly : op.Orderly d) (h : op.apply d = .ok d')
    (hordinary : ∀ x n, d.node? x = some n → n.Ordinary) {x : Serial} {n' : Node}
    (hn' : d'.node? x = some n') : n'.Ordinary := by
  rcases node?_back h hn' with ⟨n, hn, -, hkept⟩ | ⟨-, hnew⟩
  · exact hkept horderly.marks_eq (hordinary x n hn)
  · exact hnew

/-- Orderly operations make no circles, neither below the root nor below handles, old ones or those of
the parents. -/
theorem uncircled (h : op.apply d = .ok d') (hd : d.Regular) (horderly : op.Orderly d)
    {handles : List Serial} (huncircled : d.Uncircled handles) :
    d'.Uncircled (handles ++ op.parents d) := by
  intro s c hs hc hcycle
  have hedge := subdirectory_back h hd
  have hold : Relation.TransGen d.Subdirectory c c :=
    transGen_of_edge hedge (horderly.not_below h hd) hcycle
  -- all that is put in or is a parent is below the root already
  have hreachable : ∀ b, d.Reachable b → d.Below b c → False := by
    intro b hb hbc
    have hbelow : d.Below rootSerial b := hb.below (isDirectory_of_circle hbc hold)
    exact huncircled rootSerial c (.inl rfl) (hbelow.trans hbc) hold
  rcases reflTransGen_of_edge hedge hc with hway | ⟨a, b, hab, -, hbc⟩
  · rcases hs with rfl | hs
    · exact huncircled rootSerial c (.inl rfl) hway hold
    · rcases List.mem_append.1 hs with hs | hs
      · exact huncircled s c (.inr hs) hway hold
      · exact hreachable s (reachable_parent hs) hway
  · rcases (horderly.of_added hab).2 with rfl | ⟨hb, -⟩
    · -- nothing is inside a new object
      exact absurd (lt_of_isDirectory (isDirectory_of_circle hbc hold)) (Nat.lt_irrefl _)
    · exact hreachable b hb hbc

end Operation

end TreeWatch.Disk

import Mathlib.Order.WellFoundedSet
import TreeWatch.Proofs.Disk.Orderly

/-!
# Neat disks

Orderly operations leave nothing behind: what can no longer be reached from the root has lost its
names, and there are no names inside it.

## Main definitions

- `Disk.Counts` : the object counts a name
- `Disk.Vacated` : there are no names inside what counts none
- `Disk.Neat` : a disk that orderly operations can lead to

## Main results

- `Disk.Owing.counts_of_reachable` : counting down takes nothing from what can still be reached
- `Disk.Operation.Orderly.neat` : orderly operations keep a disk neat
- `Disk.Neat.reachable_iff_named` : exactly the objects with names can be reached

## Design notes

A directory that is moved may take the place of a directory far above it, and all that is inside that
one is counted down. The directory it is moved to is not: the way to it from the root passes neither
through the one that moves nor through the one that is replaced, for both would lie below themselves.
-/

namespace TreeWatch.Disk

/-- The object counts a name. -/
def Counts (d : Disk) (s : Serial) : Prop := ∃ n, d.node? s = some n ∧ 0 < n.links

/-- There are no names inside what counts none. -/
def Vacated (d : Disk) : Prop :=
  ∀ s n, d.node? s = some n → n.links = 0 → n.childMap = .empty

/-- A disk without circles, without marks and without names in what has gone. -/
structure Neat (d : Disk) : Prop where
  regular : d.Regular
  acyclic : d.Acyclic
  vacated : d.Vacated
  ordinary : ∀ s n, d.node? s = some n → n.Ordinary
  spelled : ∀ {dir name c}, d.child? dir name = some c → Path.Named name

variable {d d' : Disk} {s c x dir : Serial} {name : Bytes} {n m : Node} {owed : List Serial}

/-! ### What counts a name -/

theorem Regular.named_iff_counts (h : d.Regular) : d.Named s ↔ d.Counts s := by
  constructor
  · intro hs
    obtain ⟨n, hn⟩ := h.exists_node_of_named hs
    exact ⟨n, hn, (h.named_iff hn).mp hs⟩
  · rintro ⟨n, hn, hpos⟩
    exact (h.named_iff hn).mpr hpos

theorem Owing.counts_root (h : d.Owing owed) : d.Counts rootSerial := by
  obtain ⟨n, hn, -⟩ := h.root_directory
  have hlinks := h.links_eq hn
  rw [if_pos rfl] at hlinks
  exact ⟨n, hn, by omega⟩

theorem Owing.counts_of_child? (h : d.Owing owed) (hs : d.child? dir name = some s) :
    d.Counts s := by
  obtain ⟨n, hn⟩ := h.bound_exists hs
  have hlinks := h.links_eq hn
  have hpos : 0 < d.nameCount s := nameCount_pos_iff.mpr ⟨dir, name, hs⟩
  exact ⟨n, hn, by omega⟩

theorem Counts.unbind (h : d.Counts x) (hunbind : d.unbind dir name = .ok (s, d')) :
    d'.Counts x := by
  obtain ⟨k, hk, hpos⟩ := h
  obtain ⟨n, children, hn, -, -, rfl⟩ := unbind_eq_ok hunbind
  rw [Counts, node?_setNode hn]
  split
  · next hx =>
    subst hx
    cases hn.symm.trans hk
    exact ⟨_, rfl, hpos⟩
  · exact ⟨k, hk, hpos⟩

/-- Counting down takes nothing from what can still be reached. -/
theorem Owing.counts_of_reachable {pending : List Serial} (hrelease : d.release pending = .ok d')
    (h : d'.Owing owed) (hx : d.Reachable x) : d'.Counts x := by
  induction hx with
  | refl => exact h.counts_root
  | tail _ hlast ih =>
    obtain ⟨n, hn, hpos⟩ := ih
    obtain ⟨name, hname⟩ := hlast
    rw [← child?_of_release hrelease hn hpos] at hname
    exact h.counts_of_child? hname

/-! ### Nothing is left behind -/

theorem Vacated.setNode (h : d.Vacated) (hn : d.node? s = some n)
    (hm : m.links = 0 → m.childMap = .empty) : (d.setNode s m).Vacated := by
  intro x k hk hzero
  rw [node?_setNode hn] at hk
  split at hk
  · cases hk
    exact hm hzero
  · exact h x k hk hzero

theorem Vacated.bind (h : d.Vacated) (hdir : d.Counts dir) (hbind : d.bind dir name s = .ok d') :
    d'.Vacated := by
  obtain ⟨n, children, hn, -, -, rfl⟩ := bind_eq_ok hbind
  refine h.setNode hn fun hzero => ?_
  obtain ⟨k, hk, hpos⟩ := hdir
  cases hn.symm.trans hk
  exact absurd hzero (Nat.ne_of_gt hpos)

theorem Vacated.unbind (h : d.Vacated) (hunbind : d.unbind dir name = .ok (s, d')) :
    d'.Vacated := by
  obtain ⟨n, children, hn, hchildren, hget, rfl⟩ := unbind_eq_ok hunbind
  refine h.setNode hn fun hzero => ?_
  have hempty := h dir n hn hzero
  rw [Node.childMap, hchildren, Option.getD_some] at hempty
  rw [hempty] at hget
  cases hget

theorem Vacated.release {pending : List Serial} (h : d.Vacated)
    (hrelease : d.release pending = .ok d') : d'.Vacated := by
  refine release_induction (motive := fun d _ => d.Vacated) ?_ ?_ ?_ h hrelease
  · exact fun _ h => h
  · exact fun {d s rest n} hn _ h => h.setNode hn fun _ => childMap_emptied n
  · intro d s rest n links hn _ h
    refine h.setNode hn fun hzero => ?_
    cases hzero

theorem Vacated.addNode (h : d.Vacated) (ino : UInt64) (mode : UInt32) :
    (d.addNode ino mode).Vacated := by
  intro x k hk hzero
  rw [node?_addNode] at hk
  split at hk
  · cases hk
    cases hzero
  · exact h x k hk hzero

theorem Vacated.modifyNode {f : Node → Node} (h : d.Vacated)
    (hf : ∀ n, (f n).children = n.children ∧ n.links ≤ (f n).links) :
    (d.modifyNode s f).Vacated := by
  intro x k hk hzero
  rw [node?_modifyNode] at hk
  split at hk
  · obtain ⟨n, hn, rfl⟩ := Option.map_eq_some_iff.mp hk
    obtain ⟨hchildren, hle⟩ := hf n
    rw [Node.childMap, hchildren]
    exact h x n hn (by omega)
  · exact h x k hk hzero

/-! ### Replacing what lies above -/

theorem child?_unbind_of_ne (hunbind : d.unbind dir name = .ok (s, d')) {name' : Bytes}
    (hc : d.child? x name' = some c) (hne : c ≠ s) : d'.child? x name' = some c := by
  obtain ⟨n, children, hn, hchildren, hget, rfl⟩ := unbind_eq_ok hunbind
  rw [child?_setNode hn]
  split
  · next hx =>
    subst hx
    rw [child?_eq_of_children hn hchildren] at hc
    have hname : name' ≠ name := by
      rintro rfl
      exact hne (Option.some.inj (hc.symm.trans hget))
    rw [Node.childMap, Option.getD_some, SortedMap.get?_erase, if_neg hname]
    exact hc
  · exact hc

theorem Becomes.child?_eq (h : d.Becomes none d') (hc : d'.child? x name = some c) :
    d.child? x name = some c :=
  (h.child?_back hc).resolve_right (by simp)

theorem subdirectory_of_unbind (hunbind : d.unbind dir name = .ok (s, d'))
    (h : d'.Subdirectory x c) : d.Subdirectory x c := by
  obtain ⟨⟨name', hname'⟩, hdir⟩ := h
  have hbecomes : d.Becomes none d' := becomes_unbind hunbind
  rw [isDirectory_eq_of_unbind hunbind] at hdir
  exact ⟨⟨name', hbecomes.child?_eq hname'⟩, hdir⟩

/-- The way to a directory goes on to lead there if what loses its name is not on it. -/
theorem below_of_unbind (hunbind : d.unbind dir name = .ok (s, d')) {target : Serial}
    (hnot : ¬d.Below s target) {x : Serial} (hway : d.Below rootSerial x)
    (hx : d.Below x target) : d'.Below rootSerial x := by
  induction hway with
  | refl => exact .refl
  | @tail b c _ hlast ih =>
    obtain ⟨⟨name', hname'⟩, hdir⟩ := hlast
    have hne : c ≠ s := by
      rintro rfl
      exact hnot hx
    refine (ih (.head ⟨⟨name', hname'⟩, hdir⟩ hx)).tail ⟨⟨name', ?_⟩, ?_⟩
    · exact child?_unbind_of_ne hunbind hname' hne
    · rwa [isDirectory_eq_of_unbind hunbind]

theorem Below.reachable (h : d.Below rootSerial x) : d.Reachable x :=
  Relation.ReflTransGen.mono (fun _ _ hxy => hxy.1) _ _ h

/-- Nothing lies below itself, so what a name is put into in the place of another one is not counted
down with that one. -/
theorem counts_of_replace {d₁ d₂ d₃ : Disk} {old dir' : Serial} {name' : Bytes}
    (hacyclic : d.Acyclic) (hway : d.Below rootSerial dir') (hnot : ¬d.Below s dir')
    (hunbind : d.unbind dir name = .ok (s, d₁)) (hunbind' : d₁.unbind dir' name' = .ok (old, d₂))
    (hrelease : d₂.release [old] = .ok d₃) (howing : d₃.Owing owed) : d₃.Counts dir' := by
  have hway₁ : d₁.Below rootSerial dir' := below_of_unbind hunbind hnot hway .refl
  have hnot₁ : ¬d₁.Below old dir' := by
    intro hbelow
    have hback : d.Below old dir' :=
      Relation.ReflTransGen.mono (fun _ _ => subdirectory_of_unbind hunbind) _ _ hbelow
    have hbecomes : d.Becomes none d₁ := becomes_unbind hunbind
    have hold : d.child? dir' name' = some old :=
      hbecomes.child?_eq (child?_eq_of_unbind hunbind')
    have hdir : d.isDirectory old := by
      rcases Relation.ReflTransGen.cases_head hback with rfl | ⟨b, ⟨⟨inside, hinside⟩, -⟩, -⟩
      · exact isDirectory_of_child? hold
      · exact isDirectory_of_child? hinside
    exact hacyclic dir' (.head' ⟨⟨name', hold⟩, hdir⟩ hback)
  exact howing.counts_of_reachable hrelease (below_of_unbind hunbind' hnot₁ hway₁ .refl).reachable

variable {marks : Bool} {ps : List Serial} {new : Option (Serial × Serial)}

theorem Rewired.vacated (h : Rewired marks ps new d d') (hd : d.Regular) (hacyclic : d.Acyclic)
    (hparents : ∀ p ∈ ps, d.Below rootSerial p) (hnot : ∀ a s, new = some (a, s) → ¬d.Below s a)
    (hvacated : d.Vacated) : d'.Vacated := by
  have hcounts {p : Serial} (hp : p ∈ ps) : d.Counts p :=
    hd.named_iff_counts.mp (hparents p hp).named
  cases h with
  | @make _ _ dir _ ino mode _ _ hbind =>
    obtain ⟨n, hn, hpos⟩ := hcounts (.head _)
    refine (hvacated.addNode ino mode).bind ⟨n, ?_, hpos⟩ hbind
    obtain ⟨n', hn', -⟩ := keeps_addNode d ino mode dir n hn
    rw [node?_addNode] at hn' ⊢
    split
    · next hlength =>
      rw [hlength, node?_length] at hn
      cases hn
    · exact hn
  | @link _ _ dir s _ stamp _ _ hbind =>
    obtain ⟨n, hn, hpos⟩ := hcounts (.head _)
    refine Vacated.bind (hvacated.modifyNode fun n => ?_) ?_ hbind
    · exact ⟨rfl, Nat.le_succ _⟩
    · rw [Counts, node?_modifyNode, hn]
      split
      · exact ⟨_, rfl, Nat.succ_pos _⟩
      · exact ⟨n, rfl, hpos⟩
  | remove hunbind hrelease => exact (hvacated.unbind hunbind).release hrelease
  | move _ hunbind hbind =>
    exact (hvacated.unbind hunbind).bind ((hcounts (.tail _ (.head _))).unbind hunbind) hbind
  | @replace _ _ d₁ d₂ d₃ dir dir' s old _ _ _ hunbind hunbind' hrelease hbind =>
    have howing : d₂.Owing ([old] ++ [s]) := (hd.unbind hunbind).unbind hunbind'
    have hkept : d₃.Counts dir' := counts_of_replace hacyclic (hparents dir' (.tail _ (.head _)))
      (hnot dir' s rfl) hunbind hunbind' hrelease (howing.release hrelease)
    exact (((hvacated.unbind hunbind).unbind hunbind').release hrelease).bind hkept hbind
  | touch hf _ _ => exact hvacated.modifyNode fun n => ⟨(hf n).2.2.2, Nat.le_of_eq (hf n).2.2.1.symm⟩

/-! ### Names come from paths -/

theorem named_of_split {path : Path} (h : d.split path = .ok (dir, name)) : Path.Named name :=
  Path.named_of_fileName? (split_ok h).1

theorem name_back_of_bind {name' : Bytes} (hname : Path.Named name)
    (hbind : d.bind dir name s = .ok d') (hc : d'.child? x name' = some c) :
    d.child? x name' = some c ∨ Path.Named name' := by
  obtain ⟨n, children, hn, hchildren, -, rfl⟩ := bind_eq_ok hbind
  rw [child?_setNode hn] at hc
  split at hc
  · next hx =>
    subst hx
    rw [Node.childMap, Option.getD_some, SortedMap.get?_insert] at hc
    split at hc
    · next heq => exact .inr (heq ▸ hname)
    · exact .inl ((child?_eq_of_children hn hchildren name').trans hc)
  · exact .inl hc

theorem name_back_of_make {path : Path} {ino : UInt64} {mode : UInt32}
    (h : d.make path ino mode = .ok d') (hc : d'.child? x name = some c) :
    d.child? x name = some c ∨ Path.Named name := by
  obtain ⟨⟨dir, name'⟩, hsplit, h⟩ := bind_ok h
  simp only at h
  split at h
  · have hback := name_back_of_bind (named_of_split hsplit) h hc
    rwa [child?_addNode] at hback
  · cases h

namespace Operation

variable {op : Operation}

/-- A name was there before, or it comes from a path. -/
theorem name_back (h : op.apply d = .ok d') (hc : d'.child? x name = some c) :
    d.child? x name = some c ∨ Path.Named name := by
  have hnew (d₀ : Disk) {path : Path} {ino : UInt64} {mode : UInt32} (hnodes : d₀.nodes = d.nodes)
      (h : ((d₀.make path ino mode).map fun d => (ino, d)).map Prod.snd = .ok d') :
      d.child? x name = some c ∨ Path.Named name := by
    obtain ⟨i, h⟩ := map_snd_ok h
    obtain ⟨made, hmake, h⟩ := bind_ok h
    cases h
    have hback := name_back_of_make hmake hc
    rwa [child?, node?, hnodes] at hback
  cases op with
  | mkdir path => exact hnew d.nextIno.2 rfl h
  | create path => exact hnew d.nextIno.2 rfl h
  | createWithIno path ino => exact hnew d rfl h
  | link existing path =>
    obtain ⟨s, -, h⟩ := bind_ok h
    obtain ⟨⟨dir, name'⟩, hsplit, h⟩ := bind_ok h
    obtain ⟨d₁, hbind, h⟩ := bind_ok h
    cases h
    rw [child?_modifyNode] at hc
    · exact name_back_of_bind (named_of_split hsplit) hbind hc
    · exact fun _ => rfl
  | remove path => exact .inl ((child?_back h hc).resolve_right (by simp [added]))
  | rename source target =>
    obtain ⟨dir, _, dir', name', s, d₁, -, htarget, hunbind, h⟩ := rename_eq_ok h
    obtain ⟨d₂, hbecomes, hbind⟩ : ∃ d₂, d.Becomes none d₂ ∧ d₂.bind dir' name' s = .ok d' := by
      rcases h with hbind | ⟨old, d₂, d₃, hunbind', hrelease, hbind⟩
      · exact ⟨d₁, becomes_unbind hunbind, hbind⟩
      · exact ⟨d₃, ((becomes_unbind hunbind).trans (becomes_unbind hunbind')).trans
          (becomes_release hrelease), hbind⟩
    rcases name_back_of_bind (named_of_split htarget) hbind hc with hold | hname
    · exact .inl (hbecomes.child?_eq hold)
    · exact .inr hname
  | write path size => exact .inl ((child?_back h hc).resolve_right (by simp [added]))
  | markOversized path => exact .inl ((child?_back h hc).resolve_right (by simp [added]))
  | addPhantom path name ino => exact .inl ((child?_back h hc).resolve_right (by simp [added]))
  | failListing path => exact .inl ((child?_back h hc).resolve_right (by simp [added]))

theorem Orderly.vacated (horderly : op.Orderly d) (h : op.apply d = .ok d') (hd : d.Regular)
    (hacyclic : d.Acyclic) (hvacated : d.Vacated) : d'.Vacated := by
  obtain ⟨d₀, hnodes, hrewired⟩ := op.rewired h
  have hparents : ∀ p ∈ op.parents d, d.Below rootSerial p := fun p hp =>
    (reachable_parent hp).below (isDirectory_parent h hd hp)
  have hnot := horderly.not_below h hd
  -- the clock and the next inode number say nothing of objects
  obtain ⟨nodes, lastIno, clock⟩ := d
  obtain ⟨nodes₀, lastIno₀, clock₀⟩ := d₀
  cases hnodes
  exact hrewired.vacated (hd.of_nodes_eq rfl) hacyclic hparents hnot hvacated

theorem Orderly.neat (horderly : op.Orderly d) (h : op.apply d = .ok d') (hd : d.Neat) :
    d'.Neat where
  regular := Operation.regular h hd.regular
  acyclic := horderly.acyclic h hd.regular hd.acyclic
  vacated := horderly.vacated h hd.regular hd.acyclic hd.vacated
  ordinary _ _ := horderly.ordinary h hd.ordinary
  spelled hc := (name_back h hc).elim hd.spelled id

end Operation

theorem neat_empty : Disk.empty.Neat where
  regular := regular_empty
  acyclic := acyclic_empty
  vacated s n hn hzero := by
    have hroot : n ∈ Disk.empty.nodes := List.mem_of_getElem? hn
    obtain rfl := List.mem_singleton.mp hroot
    rfl
  ordinary s n hn := by
    have hroot : n ∈ Disk.empty.nodes := List.mem_of_getElem? hn
    obtain rfl := List.mem_singleton.mp hroot
    exact ⟨rfl, rfl, rfl⟩
  spelled {dir name c} hc := by
    obtain ⟨n, hn, hget⟩ := Option.bind_eq_some_iff.mp hc
    have hroot : n ∈ Disk.empty.nodes := List.mem_of_getElem? hn
    obtain rfl := List.mem_singleton.mp hroot
    cases hget

/-! ### What can be reached -/

namespace Neat

/-- What has a name inside it has a name. -/
theorem named_parent (h : d.Neat) (hc : d.child? dir name = some c) : d.Named dir := by
  obtain ⟨n, hn, hget⟩ := Option.bind_eq_some_iff.mp hc
  refine (h.regular.named_iff hn).mpr (Nat.pos_of_ne_zero fun hzero => ?_)
  rw [h.vacated dir n hn hzero] at hget
  cases hget

theorem wellFoundedOn (h : d.Neat) :
    {s | d.isDirectory s}.WellFoundedOn (Relation.TransGen d.Subdirectory) := by
  have hfinite : {s : Serial | d.isDirectory s}.Finite :=
    (Set.finite_Iio d.nodes.length).subset fun s hs => lt_of_isDirectory hs
  have horder : IsStrictOrder Serial (Relation.TransGen d.Subdirectory) :=
    { irrefl := h.acyclic, trans := fun _ _ _ => Relation.TransGen.trans }
  exact hfinite.wellFoundedOn

/-- The way up from a directory ends, and it ends at the root. -/
theorem reachable_directory (h : d.Neat) (hdir : d.isDirectory s) (hs : d.Named s) :
    d.Reachable s := by
  refine h.wellFoundedOn.induction (P := fun s => d.Named s → d.Reachable s) hdir ?_ hs
  rintro s hdir ih (rfl | ⟨b, name, hname⟩)
  · exact .refl
  · have hb := ih b (isDirectory_of_child? hname) (.single ⟨⟨name, hname⟩, hdir⟩)
      (h.named_parent hname)
    exact hb.tail ⟨name, hname⟩

/-- Every directory in which something has a name can be reached. -/
theorem reachable_parent (h : d.Neat) (hc : d.child? dir name = some c) : d.Reachable dir :=
  h.reachable_directory (isDirectory_of_child? hc) (h.named_parent hc)

theorem reachable_iff_named (h : d.Neat) : d.Reachable s ↔ d.Named s := by
  refine ⟨Reachable.named, ?_⟩
  rintro (rfl | ⟨b, name, hname⟩)
  · exact .refl
  · exact (h.reachable_parent hname).tail ⟨name, hname⟩

end Neat

end TreeWatch.Disk

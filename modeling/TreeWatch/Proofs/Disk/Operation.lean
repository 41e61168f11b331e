import TreeWatch.Proofs.Disk.Depth
import TreeWatch.Proofs.Path

/-!
# Operations on disks

The operations by which a disk changes, and what all of them have in common.

## Main definitions

- `Disk.Operation` : an operation with its arguments
- `Disk.Operation.parents` : the directories that an operation names as parents
- `Disk.Operation.added` : where an operation puts which object
- `Disk.Rewired` : what operations do to the objects
- `Disk.Keeps` : serial numbers go on to mean the same objects

## Main results

- `Disk.Operation.rewired` : every operation does one of a few things to the objects
- `Disk.Rewired.regular` : disks stay in order
- `Disk.Rewired.keeps` : inode number and mode of an object never change
- `Disk.Rewired.child?_eq` : what has a name and is no parent of the operation keeps the names
  inside it
-/

namespace TreeWatch.Disk

inductive Operation where
  | mkdir (path : Path)
  | create (path : Path)
  | createWithIno (path : Path) (ino : UInt64)
  | link (existing path : Path)
  | remove (path : Path)
  | rename (source target : Path)
  | write (path : Path) (size : UInt64)
  | markOversized (path : Path)
  | addPhantom (path : Path) (name : Bytes) (ino : UInt64)
  | failListing (path : Path)
deriving DecidableEq

/-- The directory above a path. -/
def parentOf (d : Disk) (path : Path) : List Serial :=
  match d.split path with
  | .ok (directory, _) => [directory]
  | .error _ => []

/-- The directory above a path, with an object that is to be put there. -/
def place (d : Disk) (path : Path) (s : Serial) : Option (Serial × Serial) :=
  (d.split path).toOption.map fun p => (p.1, s)

namespace Operation

/-- The disk after an operation. -/
def apply : Operation → Disk → Except DiskError Disk
  | .mkdir path, d => (d.mkdir path).map Prod.snd
  | .create path, d => (d.create path).map Prod.snd
  | .createWithIno path ino, d => (d.createWithIno path ino).map Prod.snd
  | .link existing path, d => d.link existing path
  | .remove path, d => d.remove path
  | .rename source target, d => d.rename source target
  | .write path size, d => d.write path size
  | .markOversized path, d => d.markOversized path
  | .addPhantom path name ino, d => d.addPhantom path name ino
  | .failListing path, d => d.failListing path

/-- The directories that an operation names as parents. -/
def parents : Operation → Disk → List Serial
  | .mkdir path, d | .create path, d | .createWithIno path _, d | .link _ path, d | .remove path, d =>
    d.parentOf path
  | .rename source target, d => d.parentOf source ++ d.parentOf target
  | .write .., _ | .markOversized _, _ | .addPhantom .., _ | .failListing _, _ => []

/-- The directory into which an operation puts an object, and the object. -/
def added : Operation → Disk → Option (Serial × Serial)
  | .mkdir path, d | .create path, d | .createWithIno path _, d => d.place path d.nodes.length
  | .link existing path, d => (d.serialOf existing).toOption.bind (d.place path)
  | .rename source target, d =>
    (d.split source).toOption.bind fun p => (d.child? p.1 p.2).bind (d.place target)
  | .remove _, _ | .write .., _ | .markOversized _, _ | .addPhantom .., _ | .failListing _, _ => none

/-- Whether an operation makes an object answer otherwise than objects do at first. -/
def marks : Operation → Bool
  | .markOversized _ | .addPhantom .. | .failListing _ => true
  | _ => false

end Operation

/-- What operations do to the objects, given whether they mark one, the directories named as parents
and what is put where. -/
inductive Rewired : Bool → List Serial → Option (Serial × Serial) → Disk → Disk → Prop
  | make {d d' : Disk} {dir : Serial} {name : Bytes} {ino : UInt64} {mode : UInt32} :
    isPseudoName name = false → d.nodes.length + 1 < capacity →
      (d.addNode ino mode).bind dir name d.nodes.length = .ok d' →
      Rewired false [dir] (some (dir, d.nodes.length)) d d'
  | link {d d' : Disk} {dir s : Serial} {name : Bytes} (stamp : Fingerprint → Fingerprint) :
    isPseudoName name = false → d.Reachable s →
      (d.modifyNode s fun n =>
        { n with links := n.links + 1, fingerprint := stamp n.fingerprint }).bind dir name s = .ok d' →
      Rewired false [dir] (some (dir, s)) d d'
  | remove {d d' d₁ : Disk} {dir s : Serial} {name : Bytes} :
    d.unbind dir name = .ok (s, d₁) → d₁.release [s] = .ok d' → Rewired false [dir] none d d'
  | move {d d' d₁ : Disk} {dir dir' s : Serial} {name name' : Bytes} :
    isPseudoName name' = false → d.unbind dir name = .ok (s, d₁) → d₁.bind dir' name' s = .ok d' →
      Rewired false [dir, dir'] (some (dir', s)) d d'
  | replace {d d' d₁ d₂ d₃ : Disk} {dir dir' s old : Serial} {name name' : Bytes} :
    isPseudoName name' = false → d.unbind dir name = .ok (s, d₁) →
      d₁.unbind dir' name' = .ok (old, d₂) → d₂.release [old] = .ok d₃ →
      d₃.bind dir' name' s = .ok d' → Rewired false [dir, dir'] (some (dir', s)) d d'
  | touch {d : Disk} {s : Serial} {f : Node → Node} {marks : Bool} :
    (∀ n, (f n).ino = n.ino ∧ (f n).mode = n.mode ∧ (f n).links = n.links ∧
      (f n).children = n.children) → (∀ n, n.oversized = true → (f n).oversized = true) →
      (marks = false → ∀ n, n.Ordinary → (f n).Ordinary) →
      Rewired marks [] none d (d.modifyNode s f)

variable {d d' : Disk}

/-! ### Paths -/

theorem reachable_walk {s c : Serial} {components : List Path.Component}
    (h : d.walk s components = some c) (hs : d.Reachable s) : d.Reachable c := by
  induction components generalizing s with
  | nil =>
    cases h
    exact hs
  | cons component rest ih =>
    cases component with
    | name name =>
      rw [walk] at h
      split at h
      · next c' hc' => exact ih h (hs.tail ⟨name, hc'⟩)
      · cases h
    | root => exact ih h hs
    | current => exact ih h hs
    | up => exact ih h hs

theorem reachable_serialOf {path : Path} {s : Serial} (h : d.serialOf path = .ok s) :
    d.Reachable s := by
  unfold serialOf at h
  split at h
  · next hwalk =>
    cases h
    exact reachable_walk hwalk .refl
  · cases h

theorem split_ok {path : Path} {dir : Serial} {name : Bytes}
    (h : d.split path = .ok (dir, name)) :
    path.fileName? = some name ∧ d.serialOf (path.parent?.getD Path.root) = .ok dir := by
  unfold split at h
  split at h
  · cases h
  · next name' hname =>
    cases hserial : d.serialOf (path.parent?.getD Path.root) with
    | error e =>
      rw [hserial] at h
      cases h
    | ok parent =>
      rw [hserial] at h
      cases h
      exact ⟨hname, rfl⟩

theorem split_eq_ok {path : Path} {dir : Serial} {name : Bytes}
    (h : d.split path = .ok (dir, name)) : d.Reachable dir ∧ isPseudoName name = false :=
  ⟨reachable_serialOf (split_ok h).2, (Path.named_of_fileName? (split_ok h).1).proper⟩

theorem parentOf_eq {path : Path} {dir : Serial} {name : Bytes}
    (h : d.split path = .ok (dir, name)) : d.parentOf path = [dir] := by
  rw [parentOf, h]

theorem place_eq {path : Path} {dir : Serial} {name : Bytes} (h : d.split path = .ok (dir, name))
    (s : Serial) : d.place path s = some (dir, s) := by
  rw [place, h]
  rfl

/-! ### What operations do -/

theorem bind_ok {ε α β : Type} {x : Except ε α} {f : α → Except ε β} {b : β}
    (h : x >>= f = .ok b) : ∃ a, x = .ok a ∧ f a = .ok b := by
  cases x with
  | error e => cases h
  | ok a => exact ⟨a, rfl, h⟩

theorem map_snd_ok {ε α β : Type} {x : Except ε (α × β)} {b : β}
    (h : x.map Prod.snd = .ok b) : ∃ a, x = .ok (a, b) := by
  cases x with
  | error e => cases h
  | ok p =>
    cases h
    exact ⟨p.1, rfl⟩

theorem walk_congr {d₀ : Disk} (h : d₀.nodes = d.nodes) (s : Serial)
    (components : List Path.Component) : d₀.walk s components = d.walk s components := by
  have hchild : ∀ dir name, d₀.child? dir name = d.child? dir name := by
    intro dir name
    rw [child?, node?, h]
    rfl
  induction components generalizing s with
  | nil => rfl
  | cons component rest ih =>
    cases component with
    | name name =>
      rw [walk, walk, hchild]
      split
      · exact ih _
      · rfl
    | root => exact ih s
    | current => exact ih s
    | up => exact ih s

theorem split_congr {d₀ : Disk} (h : d₀.nodes = d.nodes) (path : Path) :
    d₀.split path = d.split path := by
  have hserial : ∀ path, d₀.serialOf path = d.serialOf path := by
    intro path
    rw [serialOf, walk_congr h]
    rfl
  unfold split
  split
  · rfl
  · rw [hserial]

/-- An object is made at a path; the clock and the next inode number may have moved on before. -/
theorem rewired_make {d₀ : Disk} (hnodes : d₀.nodes = d.nodes) {path : Path} {ino : UInt64}
    {mode : UInt32} (h : ((d₀.make path ino mode).map fun d => (ino, d)).map Prod.snd = .ok d') :
    ∃ d₀ : Disk, d₀.nodes = d.nodes ∧
      Rewired false (d.parentOf path) (d.place path d.nodes.length) d₀ d' := by
  obtain ⟨i, h⟩ := map_snd_ok h
  obtain ⟨made, hmake, h⟩ := bind_ok h
  cases h
  obtain ⟨⟨dir, name⟩, hsplit, hadd⟩ := bind_ok hmake
  have hsplit' : d.split path = .ok (dir, name) := split_congr hnodes path ▸ hsplit
  refine ⟨d₀, hnodes, ?_⟩
  rw [parentOf_eq hsplit', place_eq hsplit', ← hnodes]
  simp only at hadd
  split at hadd
  · next hroom => exact .make (split_eq_ok hsplit).2 hroom hadd
  · cases hadd

/-- Binding a name and then counting it does the same as counting it first. -/
theorem bind_modifyNode {dir s : Serial} {name : Bytes} (stamp : Fingerprint → Fingerprint)
    (h : d.bind dir name s = .ok d') :
    (d.tick.modifyNode s fun n =>
        { n with links := n.links + 1, fingerprint := stamp n.fingerprint }).bind dir name s =
      .ok (d'.tick.modifyNode s fun n =>
        { n with links := n.links + 1, fingerprint := stamp n.fingerprint }) := by
  obtain ⟨n, children, hn, hchildren, hfree, rfl⟩ := bind_eq_ok h
  have hmarked : ((d.tick.modifyNode s fun n =>
      { n with links := n.links + 1, fingerprint := stamp n.fingerprint }).node? dir).bind
        Node.children = some children := by
    have hget : d.nodes[dir]? = some n := hn
    simp only [node?, modifyNode, tick, List.getElem?_modify, hget]
    split <;> simpa using hchildren
  have hnew : children.contains name = false := by simp [SortedMap.contains, hfree]
  rw [bind, hmarked]
  simp only [hnew, Bool.false_eq_true, if_false]
  have hset : d.setNode dir { n with children := some (children.insert name s) } =
      d.modifyNode dir fun n => { n with children := some (children.insert name s) } := by
    rw [modifyNode_eq_setNode hn]
  rw [hset]
  simp only [modifyNode, tick, Except.ok.injEq, Disk.mk.injEq, and_true]
  -- the two changes are to one object or to different ones
  by_cases hsame : s = dir
  · subst hsame
    rw [List.modify_modify_eq, List.modify_modify_eq]
    rfl
  · exact List.modify_modify_ne _ _ _ hsame

/-- An object is moved to a free name, or the one at the target is unbound and counted down first. -/
theorem rename_eq_ok {source target : Path} (h : d.rename source target = .ok d') :
    ∃ dir name dir' name' s d₁, d.split source = .ok (dir, name) ∧
      d.split target = .ok (dir', name') ∧ d.unbind dir name = .ok (s, d₁) ∧
      (d₁.bind dir' name' s = .ok d' ∨ ∃ old d₂ d₃, d₁.unbind dir' name' = .ok (old, d₂) ∧
        d₂.release [old] = .ok d₃ ∧ d₃.bind dir' name' s = .ok d') := by
  obtain ⟨⟨dir, name⟩, hsource, h⟩ := bind_ok h
  obtain ⟨⟨dir', name'⟩, htarget, h⟩ := bind_ok h
  obtain ⟨⟨s, d₁⟩, hunbind, h⟩ := bind_ok h
  refine ⟨dir, name, dir', name', s, d₁, hsource, htarget, hunbind, ?_⟩
  simp only at h
  split at h
  · next old hold =>
    obtain ⟨⟨old', d₂⟩, hunbind', h⟩ := bind_ok h
    obtain ⟨d₃, hrelease, hbind⟩ := bind_ok h
    cases hold.symm.trans (child?_eq_of_unbind hunbind')
    exact .inr ⟨old, d₂, d₃, hunbind', hrelease, hbind⟩
  · obtain ⟨d₂, hpure, hbind⟩ := bind_ok h
    cases hpure
    exact .inl hbind

/-- The disk after an operation, or as it was if that fails. -/
def perform (d : Disk) (op : Operation) : Disk :=
  match op.apply d with
  | .ok d' => d'
  | .error _ => d

theorem perform_cases (d : Disk) (op : Operation) :
    d.perform op = d ∨ op.apply d = .ok (d.perform op) := by
  unfold perform
  split
  · next h => exact .inr h
  · exact .inl rfl

/-- Every operation changes the objects in one of the known ways; the clock and the next inode
number may have moved on before. -/
theorem Operation.rewired (op : Operation) (h : op.apply d = .ok d') :
    ∃ d₀ : Disk, d₀.nodes = d.nodes ∧ Rewired op.marks (op.parents d) (op.added d) d₀ d' := by
  have hnext : d.nextIno.2.nodes = d.nodes := rfl
  cases op with
  | mkdir path => exact rewired_make hnext h
  | create path => exact rewired_make hnext h
  | createWithIno path ino => exact rewired_make rfl h
  | link existing path =>
    obtain ⟨s, hs, h⟩ := bind_ok h
    obtain ⟨⟨dir, name⟩, hsplit, h⟩ := bind_ok h
    obtain ⟨d₁, hbind, h⟩ := bind_ok h
    cases h
    simp only [parents, parentOf_eq hsplit, added, hs, Except.toOption, Option.bind_some,
      place_eq hsplit]
    let stamp : Fingerprint → Fingerprint := fun fp => { fp with ctime := .ofNat d₁.tick.clock }
    have hswap := bind_modifyNode stamp hbind
    have hreachable : d.Reachable s := reachable_serialOf hs
    exact ⟨d.tick, rfl, .link stamp (split_eq_ok hsplit).2 hreachable hswap⟩
  | remove path =>
    obtain ⟨⟨dir, name⟩, hsplit, h⟩ := bind_ok h
    obtain ⟨⟨s, d₁⟩, hunbind, h⟩ := bind_ok h
    simp only [parents, parentOf_eq hsplit, added]
    exact ⟨d, rfl, .remove hunbind h⟩
  | rename source target =>
    obtain ⟨dir, name, dir', name', s, d₁, hsource, htarget, hunbind, h⟩ := rename_eq_ok h
    have hs := child?_eq_of_unbind hunbind
    simp only [parents, parentOf_eq hsource, parentOf_eq htarget, added, hsource, Except.toOption,
      Option.bind_some, hs, place_eq htarget]
    refine ⟨d, rfl, ?_⟩
    have hproper := (split_eq_ok htarget).2
    rcases h with hbind | ⟨old, d₂, d₃, hunbind', hrelease, hbind⟩
    · exact .move hproper hunbind hbind
    · exact .replace hproper hunbind hunbind' hrelease hbind
  | write path size =>
    obtain ⟨s, hs, h⟩ := bind_ok h
    cases h
    exact ⟨d.tick, rfl, .touch (fun n => ⟨rfl, rfl, rfl, rfl⟩) (fun _ => id) fun _ _ hn => hn⟩
  | markOversized path =>
    obtain ⟨s, hs, h⟩ := bind_ok h
    cases h
    refine ⟨d, rfl, .touch (fun n => ⟨rfl, rfl, rfl, rfl⟩) (fun _ _ => rfl) fun hmarks => ?_⟩
    cases hmarks
  | addPhantom path name ino =>
    obtain ⟨s, hs, h⟩ := bind_ok h
    cases h
    refine ⟨d, rfl, .touch (fun n => ⟨rfl, rfl, rfl, rfl⟩) (fun _ => id) fun hmarks => ?_⟩
    cases hmarks
  | failListing path =>
    obtain ⟨s, hs, h⟩ := bind_ok h
    cases h
    refine ⟨d, rfl, .touch (fun n => ⟨rfl, rfl, rfl, rfl⟩) (fun _ => id) fun hmarks => ?_⟩
    cases hmarks

/-! ### Serial numbers go on to mean the same objects -/

/-- Objects keep their serial numbers, inode numbers and modes, and tokens that are too large stay
so. -/
def Keeps (d d' : Disk) : Prop :=
  ∀ s n, d.node? s = some n → ∃ n', d'.node? s = some n' ∧ n'.ino = n.ino ∧ n'.mode = n.mode ∧
    (n.oversized = true → n'.oversized = true)

theorem Keeps.refl (d : Disk) : d.Keeps d := fun _ n hn => ⟨n, hn, rfl, rfl, id⟩

theorem Keeps.trans {d'' : Disk} (h : d.Keeps d') (h' : d'.Keeps d'') : d.Keeps d'' := by
  intro s n hn
  obtain ⟨n', hn', hino, hmode, hsize⟩ := h s n hn
  obtain ⟨n'', hn'', hino', hmode', hsize'⟩ := h' s n' hn'
  exact ⟨n'', hn'', hino'.trans hino, hmode'.trans hmode, hsize' ∘ hsize⟩

theorem keeps_setNode {s : Serial} {n m : Node} (hn : d.node? s = some n) (hino : m.ino = n.ino)
    (hmode : m.mode = n.mode) (hsize : m.oversized = n.oversized) : d.Keeps (d.setNode s m) := by
  intro x k hk
  rw [node?_setNode hn]
  split
  · next hx =>
    subst hx
    rw [hn] at hk
    cases hk
    exact ⟨m, rfl, hino, hmode, hsize.trans⟩
  · exact ⟨k, hk, rfl, rfl, id⟩

theorem modifyNode_of_none {s : Serial} {f : Node → Node} (hn : d.node? s = none) :
    d.modifyNode s f = d := by
  have hlength : d.nodes.length ≤ s := List.getElem?_eq_none_iff.1 hn
  rw [modifyNode, List.modify_eq_self hlength]

theorem keeps_modifyNode {s : Serial} {f : Node → Node}
    (hf : ∀ n, (f n).ino = n.ino ∧ (f n).mode = n.mode ∧
      (n.oversized = true → (f n).oversized = true)) : d.Keeps (d.modifyNode s f) := by
  intro x n hn
  rw [node?_modifyNode, hn]
  split
  · exact ⟨f n, rfl, hf n⟩
  · exact ⟨n, rfl, rfl, rfl, id⟩

theorem keeps_bind {dir s : Serial} {name : Bytes} (h : d.bind dir name s = .ok d') :
    d.Keeps d' := by
  obtain ⟨n, children, hn, -, -, rfl⟩ := bind_eq_ok h
  exact keeps_setNode hn rfl rfl rfl

theorem keeps_unbind {dir s : Serial} {name : Bytes} (h : d.unbind dir name = .ok (s, d')) :
    d.Keeps d' := by
  obtain ⟨n, children, hn, -, -, rfl⟩ := unbind_eq_ok h
  exact keeps_setNode hn rfl rfl rfl

theorem keeps_release {pending : List Serial} (h : d.release pending = .ok d') : d.Keeps d' := by
  refine release_induction (motive := fun d₁ _ => d.Keeps d₁) ?_ ?_ ?_ (Keeps.refl d) h
  · exact fun _ hkeeps => hkeeps
  · exact fun hn _ hkeeps => hkeeps.trans (keeps_setNode hn rfl rfl rfl)
  · exact fun hn _ hkeeps => hkeeps.trans (keeps_setNode hn rfl rfl rfl)

theorem keeps_addNode (d : Disk) (ino : UInt64) (mode : UInt32) : d.Keeps (d.addNode ino mode) := by
  intro s n hn
  refine ⟨n, ?_, rfl, rfl, id⟩
  rw [node?_addNode, if_neg, hn]
  rintro rfl
  rw [node?_length] at hn
  cases hn

theorem keeps_of_nodes_eq {d₀ : Disk} (h : d₀.nodes = d.nodes) : d.Keeps d₀ := by
  intro s n hn
  refine ⟨n, ?_, rfl, rfl, id⟩
  rw [node?, h]
  exact hn

variable {marks : Bool} {ps : List Serial} {new : Option (Serial × Serial)}

theorem Rewired.keeps (h : Rewired marks ps new d d') : d.Keeps d' := by
  cases h with
  | make _ _ hbind => exact Keeps.trans (keeps_addNode d _ _) (keeps_bind hbind)
  | link _ _ _ hbind =>
    refine Keeps.trans (keeps_modifyNode ?_) (keeps_bind hbind)
    exact fun _ => ⟨rfl, rfl, id⟩
  | remove hunbind hrelease => exact (keeps_unbind hunbind).trans (keeps_release hrelease)
  | move _ hunbind hbind => exact (keeps_unbind hunbind).trans (keeps_bind hbind)
  | replace _ hunbind hunbind' hrelease hbind =>
    exact ((keeps_unbind hunbind).trans (keeps_unbind hunbind')).trans
      ((keeps_release hrelease).trans (keeps_bind hbind))
  | touch hf hsize _ => exact keeps_modifyNode fun n => ⟨(hf n).1, (hf n).2.1, hsize n⟩

/-! ### Disks stay in order -/

theorem Owing.of_nodes_eq {d₀ : Disk} {owed : List Serial} (h : d.Owing owed)
    (hnodes : d₀.nodes = d.nodes) : d₀.Owing owed := by
  obtain ⟨nodes, lastIno, clock⟩ := d
  obtain ⟨nodes₀, lastIno₀, clock₀⟩ := d₀
  cases hnodes
  exact ⟨h.root_directory, h.fits, h.bound_exists, h.bound_proper, h.directory_iff, h.links_eq⟩

theorem Owing.of_setNode_eq {s : Serial} {n m : Node} {owed owed' : List Serial} (h : d.Owing owed)
    (hn : d.node? s = some n) (hmode : m.mode = n.mode) (hchildren : m.children = n.children)
    (hlinks : m.links + owed.count s = n.links + owed'.count s)
    (hothers : ∀ x, x ≠ s → owed.count x = owed'.count x) : (d.setNode s m).Owing owed' := by
  have hmap : m.childMap = n.childMap := by rw [Node.childMap, hchildren, Node.childMap]
  refine h.setNode hn hmode (by rw [hchildren]) ?_ ?_ ?_
  · intro name c hc
    have hbound : d.child? s name = some c := by
      rw [hmap] at hc
      rw [child?, hn]
      exact hc
    exact ⟨h.bound_exists hbound, h.bound_proper hbound⟩
  · rw [hmap]
    omega
  · intro x hx
    rw [hmap, hothers x hx]

/-- A disk in order stays so under every operation. -/
theorem Rewired.regular (h : Rewired marks ps new d d') (hd : d.Regular) : d'.Regular := by
  cases h with
  | make hproper hroom hbind =>
    refine (Owing.addNode hd hroom _ _).bind ?_ hproper hbind
    rw [node?_addNode, if_pos rfl]
    exact ⟨_, rfl⟩
  | @link _ _ dir s name stamp hproper hs hbind =>
    obtain ⟨n, hn⟩ := hd.exists_node_of_named hs.named
    rw [modifyNode_eq_setNode hn] at hbind
    refine Owing.bind ?_ ?_ hproper hbind
    · refine hd.of_setNode_eq hn rfl rfl (by simp) fun x hx => ?_
      simp [Ne.symm hx]
    · exact ⟨_, by rw [node?_setNode hn, if_pos rfl]⟩
  | remove hunbind hrelease => exact (hd.unbind hunbind).release hrelease
  | move hproper hunbind hbind =>
    obtain ⟨m, hm⟩ := hd.bound_exists (child?_eq_of_unbind hunbind)
    obtain ⟨m', hm', -⟩ := keeps_unbind hunbind _ m hm
    exact (hd.unbind hunbind).bind ⟨m', hm'⟩ hproper hbind
  | @replace _ _ d₁ d₂ d₃ _ _ s old _ _ hproper hunbind hunbind' hrelease hbind =>
    obtain ⟨m, hm⟩ := hd.bound_exists (child?_eq_of_unbind hunbind)
    have hkeeps := ((keeps_unbind hunbind).trans (keeps_unbind hunbind')).trans
      (keeps_release hrelease)
    obtain ⟨m', hm', -⟩ := hkeeps _ m hm
    -- a name is owed to what moves and to what it replaces
    have howing : d₂.Owing ([old] ++ [s]) := (hd.unbind hunbind).unbind hunbind'
    exact (howing.release hrelease).bind ⟨m', hm'⟩ hproper hbind
  | @touch _ s f _ hf _ _ =>
    cases hn : d.node? s with
    | none =>
      rw [modifyNode_of_none hn]
      exact hd
    | some n =>
      rw [modifyNode_eq_setNode hn]
      obtain ⟨-, hmode, hlinks, hchildren⟩ := hf n
      exact hd.of_setNode_eq hn hmode hchildren (by rw [hlinks]) fun _ _ => rfl

theorem Operation.regular {op : Operation} (h : op.apply d = .ok d') (hd : d.Regular) :
    d'.Regular := by
  obtain ⟨d₀, hnodes, hrewired⟩ := op.rewired h
  exact hrewired.regular (hd.of_nodes_eq hnodes)

theorem Operation.keeps {op : Operation} (h : op.apply d = .ok d') : d.Keeps d' := by
  obtain ⟨d₀, hnodes, hrewired⟩ := op.rewired h
  exact (keeps_of_nodes_eq hnodes).trans hrewired.keeps

/-! ### Names inside other directories stay -/

theorem child?_of_bind {dir s x : Serial} {name : Bytes} (h : d.bind dir name s = .ok d')
    (hx : x ≠ dir) (name' : Bytes) : d'.child? x name' = d.child? x name' := by
  obtain ⟨n, children, hn, -, -, rfl⟩ := bind_eq_ok h
  rw [child?_setNode hn, if_neg hx]

theorem child?_of_unbind {dir s x : Serial} {name : Bytes} (h : d.unbind dir name = .ok (s, d'))
    (hx : x ≠ dir) (name' : Bytes) : d'.child? x name' = d.child? x name' := by
  obtain ⟨n, children, hn, -, -, rfl⟩ := unbind_eq_ok h
  rw [child?_setNode hn, if_neg hx]

theorem child?_modifyNode {s : Serial} {f : Node → Node} (hf : ∀ n, (f n).children = n.children)
    (x : Serial) (name : Bytes) : (d.modifyNode s f).child? x name = d.child? x name := by
  rw [child?, node?_modifyNode, child?]
  split
  · cases d.node? x with
    | none => rfl
    | some n => rw [Option.map_some, Option.bind_some, Option.bind_some, Node.childMap, hf, Node.childMap]
  · rfl

/-- Counting down empties what loses its last name, and nothing else. -/
theorem node?_of_release {pending : List Serial} (h : d.release pending = .ok d') {x : Serial}
    {n' : Node} (hn' : d'.node? x = some n') :
    ∃ n, d.node? x = some n ∧ n'.links ≤ n.links ∧ (n'.links = 0 ∨ n'.children = n.children) := by
  refine release_induction (motive := fun d₁ _ => ∀ n₁, d₁.node? x = some n₁ →
    ∃ n, d.node? x = some n ∧ n₁.links ≤ n.links ∧ (n₁.links = 0 ∨ n₁.children = n.children))
    ?_ ?_ ?_ (fun n₁ hn₁ => ⟨n₁, hn₁, Nat.le_refl _, .inr rfl⟩) h n' hn'
  · exact fun _ ih => ih
  · intro d₁ s rest n hn hlinks ih n₁ hn₁
    rw [node?_setNode hn] at hn₁
    split at hn₁
    · next hx =>
      subst hx
      cases hn₁
      obtain ⟨k, hk, -⟩ := ih n hn
      exact ⟨k, hk, Nat.zero_le _, .inl rfl⟩
    · exact ih n₁ hn₁
  · intro d₁ s rest n links hn hlinks ih n₁ hn₁
    rw [node?_setNode hn] at hn₁
    split at hn₁
    · next hx =>
      subst hx
      cases hn₁
      obtain ⟨k, hk, hle, hchildren⟩ := ih n hn
      refine ⟨k, hk, Nat.le_trans ?_ hle, .inr (hchildren.resolve_left ?_)⟩
      · show links + 1 ≤ n.links
        omega
      · omega
    · exact ih n₁ hn₁

theorem child?_of_release {pending : List Serial} (h : d.release pending = .ok d') {x : Serial}
    {n' : Node} (hn' : d'.node? x = some n') (hlinks : 0 < n'.links) (name : Bytes) :
    d'.child? x name = d.child? x name := by
  obtain ⟨n, hn, -, hzero | hchildren⟩ := node?_of_release h hn'
  · omega
  · rw [child?, hn', child?, hn, Option.bind_some, Option.bind_some, Node.childMap, Node.childMap,
      hchildren]

/-- What has a name after an operation, and is no parent of it, has the names inside it that it had
before. -/
theorem Rewired.child?_eq (h : Rewired marks ps new d d') (hd : d.Regular) {x : Serial}
    (hx : d'.Named x) (hps : x ∉ ps) (name : Bytes) : d'.child? x name = d.child? x name := by
  have hd' := h.regular hd
  obtain ⟨n', hn'⟩ := hd'.exists_node_of_named hx
  have hlinks : 0 < n'.links := (hd'.named_iff hn').1 hx
  cases h with
  | make _ _ hbind =>
    rw [child?_of_bind hbind (by simpa using hps), child?_addNode]
  | link _ _ _ hbind =>
    rw [child?_of_bind hbind (by simpa using hps), child?_modifyNode]
    exact fun _ => rfl
  | remove hunbind hrelease =>
    rw [child?_of_release hrelease hn' hlinks, child?_of_unbind hunbind (by simpa using hps)]
  | move _ hunbind hbind =>
    simp only [List.mem_cons, List.not_mem_nil, or_false, not_or] at hps
    rw [child?_of_bind hbind hps.2, child?_of_unbind hunbind hps.1]
  | @replace _ _ _ _ d₃ dir dir' _ _ _ _ _ hunbind hunbind' hrelease hbind =>
    simp only [List.mem_cons, List.not_mem_nil, or_false, not_or] at hps
    -- counting down does not empty what has a name afterwards
    have hn₃ : d₃.node? x = some n' := by
      obtain ⟨n, children, hn, -, -, rfl⟩ := bind_eq_ok hbind
      rwa [node?_setNode hn, if_neg hps.2] at hn'
    rw [child?_of_bind hbind hps.2, child?_of_release hrelease hn₃ hlinks,
      child?_of_unbind hunbind' hps.2, child?_of_unbind hunbind hps.1]
  | touch hf _ _ => exact child?_modifyNode (fun n => (hf n).2.2.2) x name

theorem Operation.child?_eq {op : Operation} (h : op.apply d = .ok d') (hd : d.Regular)
    {x : Serial} (hx : d'.Named x) (hps : x ∉ op.parents d) (name : Bytes) :
    d'.child? x name = d.child? x name := by
  obtain ⟨d₀, hnodes, hrewired⟩ := op.rewired h
  rw [hrewired.child?_eq (hd.of_nodes_eq hnodes) hx hps]
  rw [child?, node?, hnodes]
  rfl

/-- The disk with nothing but its root is in order. -/
theorem regular_empty : Disk.empty.Regular := by
  have hnode : ∀ {s n}, Disk.empty.node? s = some n →
      s = rootSerial ∧ n.children = some .empty ∧ n.mode = directoryMode ∧ n.links = 1 := by
    intro s n hn
    cases s with
    | zero =>
      cases hn
      exact ⟨rfl, rfl, rfl, rfl⟩
    | succ s => cases hn
  have hchild : ∀ dir name, Disk.empty.child? dir name = none := by
    intro dir name
    rw [child?]
    cases hn : Disk.empty.node? dir with
    | none => rfl
    | some n => simp [Node.childMap, (hnode hn).2.1]
  refine ⟨⟨_, rfl, rfl⟩, by decide, ?_, ?_, ?_, ?_⟩
  · intro dir name s hs
    rw [hchild] at hs
    cases hs
  · intro dir name s hs
    rw [hchild] at hs
    cases hs
  · intro s n hn
    obtain ⟨-, hchildren, hmode, -⟩ := hnode hn
    rw [hchildren, hmode]
    decide
  · intro s n hn
    obtain ⟨rfl, -, -, hlinks⟩ := hnode hn
    rw [hlinks]
    rfl

end TreeWatch.Disk

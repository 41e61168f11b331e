import Mathlib.Data.Set.Card
import TreeWatch.Proofs.Disk.Neat
import TreeWatch.Proofs.Mirror.Plain

/-!
# Objects and their names

On a disk to which orderly operations have led, an object counts exactly the names that lead to it
from the root, and its token opens it as long as there is one.

## Main definitions

- `Disk.Grown` : a disk to which orderly operations have led
- `Disk.KeepsIdentity` : what a tracker relies on when it tells the objects of a disk apart

## Main results

- `Disk.Neat.exists_path` : a path leads to everything that can be reached
- `Disk.Regular.apply_ne_underflow` : no operation counts down an object without names
- `Disk.encard_names` : the names of an object, counted one by one
- `Disk.Grown.keepsIdentity` : orderly operations keep the objects apart
-/

namespace TreeWatch

/-! ### Counting names -/

/-- The keys of a value are counted among the values. -/
theorem Assoc.encard_keys {κ α : Type} [DecidableEq α] {l : List (κ × α)}
    (hdistinct : (keys l).Nodup) (a : α) :
    {k | (k, a) ∈ l}.encard = (l.map Prod.snd).count a := by
  induction l with
  | nil => simp
  | cons p rest ih =>
    obtain ⟨k, b⟩ := p
    simp only [keys, List.map_cons, List.nodup_cons] at hdistinct
    have hrest := ih hdistinct.2
    rw [List.map_cons, List.count_cons]
    by_cases hb : b = a
    · subst hb
      have hnew : k ∉ {k' | (k', b) ∈ rest} := fun hmem => hdistinct.1 (List.mem_map_of_mem hmem)
      have hset : {k' | (k', b) ∈ (k, b) :: rest} = {k' | (k', b) ∈ rest} ∪ {k} := by
        ext k'
        simp
      rw [hset, Set.union_singleton, Set.encard_insert_of_notMem hnew, hrest]
      simp
    · have hset : {k' | (k', a) ∈ (k, b) :: rest} = {k' | (k', a) ∈ rest} := by
        ext k'
        simp [Ne.symm hb]
      rw [hset, hrest]
      simp [hb]

theorem SortedMap.encard_keys {κ α : Type} [Ord κ] [DecidableEq κ] [DecidableEq α]
    [Std.TransOrd κ] (m : SortedMap κ α) (a : α) :
    {k | m.get? k = some a}.encard = m.values.count a := by
  rw [values, ← Assoc.encard_keys m.distinct a]
  congr 1
  ext k
  exact get?_eq_some_iff

namespace Disk

/-- Pairs are counted by their first components. -/
theorem encard_total {α κ : Type} {f : α → Nat} {Q : α → κ → Prop} (l : List α)
    (h : ∀ a ∈ l, {k | Q a k}.encard = f a) :
    {p : Nat × κ | ∃ a, l[p.1]? = some a ∧ Q a p.2}.encard = (total f l : ℕ∞) := by
  induction l with
  | nil => simp [total]
  | cons a rest ih =>
    obtain ⟨ha, hrest⟩ := List.forall_mem_cons.mp h
    let first : Set (Nat × κ) := Prod.mk 0 '' {k | Q a k}
    let others : Set (Nat × κ) :=
      Prod.map Nat.succ id '' {p : Nat × κ | ∃ a, rest[p.1]? = some a ∧ Q a p.2}
    have hset : {p : Nat × κ | ∃ a', (a :: rest)[p.1]? = some a' ∧ Q a' p.2} = first ∪ others := by
      ext ⟨i, k⟩
      cases i with
      | zero => simp [first, others]
      | succ i => simp [first, others]
    have hdisjoint : Disjoint first others := by
      rw [Set.disjoint_left]
      rintro _ ⟨k, -, rfl⟩ ⟨p, -, hp⟩
      exact absurd (congrArg Prod.fst hp) (Nat.succ_ne_zero _)
    have hfirst : first.encard = f a :=
      ((Prod.mk_right_injective 0).encard_image _).trans ha
    have hothers : others.encard = (total f rest : ℕ∞) :=
      ((Nat.succ_injective.prodMap Function.injective_id).encard_image _).trans (ih hrest)
    rw [hset, Set.encard_union_eq hdisjoint, hfirst, hothers, total, Nat.cast_add]

variable {d d' : Disk} {s c dir : Serial} {name : Bytes} {n : Node} {owed : List Serial}

/-- The names of an object are counted one by one. -/
theorem encard_names (d : Disk) (s : Serial) :
    {p : Serial × Bytes | d.child? p.1 p.2 = some s}.encard = (d.nameCount s : ℕ∞) := by
  rw [nameCount, ← encard_total (Q := fun n name => n.childMap.get? name = some s) d.nodes
    fun n _ => n.childMap.encard_keys s]
  congr 1
  ext p
  exact Option.bind_eq_some_iff

/-! ### Paths -/

theorem walk_concat {x : Serial} {components : List Path.Component}
    (h : d.walk x components = some s) (hc : d.child? s name = some c) :
    d.walk x (components ++ [.name name]) = some c := by
  induction components generalizing x with
  | nil =>
    cases h
    simp [walk, hc]
  | cons component rest ih =>
    cases component with
    | name first =>
      rw [List.cons_append, walk]
      rw [walk] at h
      split at h
      · next hfirst => rw [ih h]
      · cases h
    | root => exact ih h
    | current => exact ih h
    | up => exact ih h

/-- What can be reached is at the end of a path. -/
theorem Neat.exists_path (h : d.Neat) (hs : d.Reachable s) : ∃ path, d.serialOf path = .ok s := by
  obtain ⟨names, hnames, hwalk⟩ : ∃ names : List Bytes, (∀ name ∈ names, Path.Named name) ∧
      d.walk rootSerial (names.map .name) = some s := by
    induction hs with
    | refl => exact ⟨[], by simp, rfl⟩
    | tail _ hlast ih =>
      obtain ⟨names, hnames, hwalk⟩ := ih
      obtain ⟨name, hname⟩ := hlast
      refine ⟨names ++ [name], ?_, ?_⟩
      · simpa [or_imp, forall_and] using ⟨hnames, h.spelled hname⟩
      · rw [List.map_append]
        exact walk_concat hwalk hname
  have hroot : Path.components Path.root = [.root] := by decide
  have hdown : d.walk rootSerial (.root :: names.map .name) = some s := hwalk
  refine ⟨names.foldl Path.join Path.root, ?_⟩
  rw [serialOf, Path.components_foldl_join _ hnames, hroot, List.singleton_append, hdown]

theorem Neat.exists_path_iff (h : d.Neat) : (∃ path, d.serialOf path = .ok s) ↔ d.Named s := by
  rw [← h.reachable_iff_named]
  exact ⟨fun ⟨_, hpath⟩ => reachable_serialOf hpath, h.exists_path⟩

/-! ### Counting down -/

theorem bind_ne_error {ε α β : Type} {e : ε} {x : Except ε α} {f : α → Except ε β}
    (hx : x ≠ .error e) (hf : ∀ a, x = .ok a → f a ≠ .error e) : x >>= f ≠ .error e := by
  cases x with
  | error e' => exact fun h => hx (congrArg Except.error (Except.error.inj h))
  | ok a => exact hf a rfl

theorem serialOf_ne_underflow (d : Disk) (path : Path) : d.serialOf path ≠ .error .linkUnderflow := by
  unfold serialOf
  split <;> simp

theorem split_ne_underflow (d : Disk) (path : Path) : d.split path ≠ .error .linkUnderflow := by
  unfold split
  split
  · simp
  · cases h : d.serialOf (path.parent?.getD Path.root) with
    | error e =>
      intro heq
      cases heq
      exact serialOf_ne_underflow d _ h
    | ok parent => simp [Except.map]

theorem bind_ne_underflow (d : Disk) (dir : Serial) (name : Bytes) (s : Serial) :
    d.bind dir name s ≠ .error .linkUnderflow := by
  unfold bind
  split
  · simp
  · split <;> simp

theorem unbind_ne_underflow (d : Disk) (dir : Serial) (name : Bytes) :
    d.unbind dir name ≠ .error .linkUnderflow := by
  unfold unbind
  split
  · simp
  · split <;> simp

theorem make_ne_underflow (d : Disk) (path : Path) (ino : UInt64) (mode : UInt32) :
    d.make path ino mode ≠ .error .linkUnderflow := by
  refine bind_ne_error (split_ne_underflow d path) fun p _ => ?_
  simp only
  split
  · exact bind_ne_underflow _ _ _ _
  · simp [throw, throwThe, MonadExceptOf.throw]

theorem made_ne_underflow (d : Disk) (path : Path) (ino : UInt64) (mode : UInt32) :
    ((d.make path ino mode).map fun d => (ino, d)).map Prod.snd ≠ .error .linkUnderflow := by
  cases h : d.make path ino mode with
  | error e =>
    intro heq
    cases heq
    exact make_ne_underflow d path ino mode h
  | ok d' => simp [Except.map]

/-- No operation takes a name away from an object without names. -/
theorem Regular.apply_ne_underflow (h : d.Regular) (op : Operation) :
    op.apply d ≠ .error .linkUnderflow := by
  have hrelease {d : Disk} {s : Serial} {owed : List Serial} (h : d.Owing ([s] ++ owed)) :
      d.release [s] ≠ .error .linkUnderflow := by
    obtain ⟨d', hd'⟩ := h.exists_release
    simp [hd']
  cases op with
  | mkdir path => exact made_ne_underflow _ path _ _
  | create path => exact made_ne_underflow _ path _ _
  | createWithIno path ino => exact made_ne_underflow d path ino _
  | link existing path =>
    refine bind_ne_error (serialOf_ne_underflow d existing) fun s _ => ?_
    refine bind_ne_error (split_ne_underflow d path) fun p _ => ?_
    refine bind_ne_error (bind_ne_underflow d _ _ s) fun d' _ => ?_
    simp [pure, Except.pure]
  | remove path =>
    refine bind_ne_error (split_ne_underflow d path) fun p _ => ?_
    refine bind_ne_error (unbind_ne_underflow d _ _) fun q hunbind => ?_
    exact hrelease (h.unbind hunbind)
  | rename source target =>
    refine bind_ne_error (split_ne_underflow d source) fun p _ => ?_
    refine bind_ne_error (split_ne_underflow d target) fun p' _ => ?_
    refine bind_ne_error (unbind_ne_underflow d _ _) fun q hunbind => ?_
    simp only
    split
    · next old hold =>
      refine bind_ne_error (unbind_ne_underflow _ _ _) fun q' hunbind' => ?_
      cases hold.symm.trans (child?_eq_of_unbind hunbind')
      refine bind_ne_error (hrelease ((h.unbind hunbind).unbind hunbind')) fun _ _ => ?_
      exact bind_ne_underflow _ _ _ _
    · exact bind_ne_underflow _ _ _ _
  | write path size =>
    refine bind_ne_error (serialOf_ne_underflow d path) fun s _ => ?_
    simp [pure, Except.pure]
  | markOversized path =>
    refine bind_ne_error (serialOf_ne_underflow d path) fun s _ => ?_
    simp [pure, Except.pure]
  | addPhantom path name ino =>
    refine bind_ne_error (serialOf_ne_underflow d path) fun s _ => ?_
    simp [pure, Except.pure]
  | failListing path =>
    refine bind_ne_error (serialOf_ne_underflow d path) fun s _ => ?_
    simp [pure, Except.pure]

/-! ### Telling objects apart -/

/-- What a tracker relies on when it tells the objects of a disk apart. -/
structure KeepsIdentity (d : Disk) : Prop where
  /-- An object counts its names in what can be reached; the root counts one more. -/
  links_eq : ∀ s n, d.node? s = some n → (n.links : ℕ∞) =
    {p : Serial × Bytes | d.Reachable p.1 ∧ d.child? p.1 p.2 = some s}.encard +
      if s = rootSerial then 1 else 0
  /-- Nothing that is counted down has no name. -/
  not_underflow : ∀ op : Operation, op.apply d ≠ .error .linkUnderflow
  /-- A directory without names lists nothing but itself and the root. -/
  list_eq : ∀ s, d.isDirectory s → ¬d.Named s →
    d.list s = .ok [⟨Path.dot, d.inoAt s⟩, ⟨Path.dotDot, rootIno⟩]
  has_token : ∀ s n, d.node? s = some n → ∃ token, d.identityToken s = .ok token
  /-- The token of an object opens as long as a path leads to the object. -/
  opens_iff : ∀ s token, d.identityToken s = .ok token →
    ((∃ o, d.openByToken token = .ok o) ↔ ∃ path, d.serialOf path = .ok s)
  opens_same : ∀ s token o, d.identityToken s = .ok token → d.openByToken token = .ok o → o = s
  /-- Different objects have different tokens, whatever their inode numbers are. -/
  token_injective : ∀ s o token, d.identityToken s = .ok token → d.identityToken o = .ok token → s = o

namespace Neat

theorem encard_reachable_names (h : d.Neat) (s : Serial) :
    {p : Serial × Bytes | d.Reachable p.1 ∧ d.child? p.1 p.2 = some s}.encard = (d.nameCount s : ℕ∞) := by
  rw [← encard_names]
  congr 1
  ext p
  exact ⟨And.right, fun hp => ⟨h.reachable_parent hp, hp⟩⟩

theorem list_of_not_named (h : d.Neat) (hdir : d.isDirectory s) (hs : ¬d.Named s) :
    d.list s = .ok [⟨Path.dot, d.inoAt s⟩, ⟨Path.dotDot, rootIno⟩] := by
  obtain ⟨children, hchildren⟩ := Option.isSome_iff_exists.mp hdir
  obtain ⟨n, hn, hchildren⟩ := Option.bind_eq_some_iff.mp hchildren
  obtain ⟨-, hphantoms, hlistable⟩ := h.ordinary s n hn
  have hzero : n.links = 0 := Nat.eq_zero_of_not_pos (mt (h.regular.named_iff hn).mpr hs)
  have hempty := h.vacated s n hn hzero
  rw [Node.childMap, hchildren, Option.getD_some] at hempty
  simp [list, listing, hn, hlistable, hchildren, hempty, hphantoms, inoAt_eq hn, SortedMap.empty]

theorem identityToken_eq_ok_iff (h : d.Neat) {token : IdentityToken} :
    d.identityToken s = .ok token ↔ (∃ n, d.node? s = some n) ∧ token = tokenOf s := by
  constructor
  · intro htoken
    refine ⟨?_, eq_tokenOf_of_identityToken htoken⟩
    cases hn : d.node? s with
    | none =>
      rw [identityToken, hn] at htoken
      cases htoken
    | some n => exact ⟨n, rfl⟩
  · rintro ⟨⟨n, hn⟩, rfl⟩
    rw [identityToken, hn]
    simp [(h.ordinary s n hn).1]

theorem openByToken_tokenOf (h : d.Neat) (hn : d.node? s = some n) :
    d.openByToken (tokenOf s) = if 0 < n.links then .ok s else .error .stale := by
  rw [openByToken, serialIn?_tokenOf (h.regular.lt_capacity hn)]
  simp [hn, tokenOf]

theorem tellsApart (h : d.Neat) : d.KeepsIdentity where
  links_eq s n hn := by
    rw [h.encard_reachable_names, h.regular.links_eq hn]
    simp
  not_underflow := h.regular.apply_ne_underflow
  list_eq s := h.list_of_not_named
  has_token s n hn := ⟨_, h.identityToken_eq_ok_iff.mpr ⟨⟨n, hn⟩, rfl⟩⟩
  opens_iff s token htoken := by
    obtain ⟨⟨n, hn⟩, rfl⟩ := h.identityToken_eq_ok_iff.mp htoken
    rw [h.openByToken_tokenOf hn, h.exists_path_iff, h.regular.named_iff hn]
    split <;> simp_all
  opens_same s token o htoken ho := by
    obtain ⟨⟨n, hn⟩, rfl⟩ := h.identityToken_eq_ok_iff.mp htoken
    rw [h.openByToken_tokenOf hn] at ho
    split at ho <;> cases ho
    rfl
  token_injective s o token hs ho := by
    obtain ⟨⟨n, hn⟩, rfl⟩ := h.identityToken_eq_ok_iff.mp hs
    obtain ⟨⟨m, hm⟩, heq⟩ := h.identityToken_eq_ok_iff.mp ho
    exact eq_of_tokenOf_eq (h.regular.lt_capacity hn) (h.regular.lt_capacity hm) heq

end Neat

/-- A disk to which orderly operations lead from an empty one. -/
inductive Grown : Disk → Prop
  | empty : Grown .empty
  | operate {d d' : Disk} {op : Operation} :
    Grown d → op.Orderly d → op.apply d = .ok d' → Grown d'

namespace Grown

theorem neat (h : d.Grown) : d.Neat := by
  induction h with
  | empty => exact neat_empty
  | operate _ horderly hop ih => exact horderly.neat hop ih

/-- Whatever orderly operations do to names, objects are told apart: by their tokens, which open as
long as there is a path, and by counts that are those of the paths' last names. -/
theorem keepsIdentity (h : d.Grown) : d.KeepsIdentity := h.neat.tellsApart

/-- An operation that fails does nothing. -/
theorem perform (h : d.Grown) {op : Operation} (horderly : op.Orderly d) : (d.perform op).Grown := by
  rcases d.perform_cases op with hsame | hop
  · rwa [hsame]
  · exact h.operate horderly hop

end Grown

/-- A directory with another one inside, and a file in that one. -/
def nested : Disk :=
  [Operation.mkdir (.ofString "/a"), .mkdir (.ofString "/a/b"),
    .createWithIno (.ofString "/a/b/f") 5].foldl perform .empty

/-- The file has a second name, and another file has the same inode number. -/
def doubled : Disk :=
  (nested.perform (.link (.ofString "/a/b/f") (.ofString "/g"))).perform
    (.createWithIno (.ofString "/a/h") 5)

/-- The directory inside takes the place of the one around it, which goes with the other file. -/
def raised : Disk := doubled.perform (.rename (.ofString "/a/b") (.ofString "/a"))

theorem keepsIdentity_raised :
    raised.Grown ∧ raised.KeepsIdentity ∧ raised.openByToken (tokenOf 3) = .ok 3 ∧
      raised.openByToken (tokenOf 4) = .error .stale ∧ raised.inoAt 3 = raised.inoAt 4 := by
  have hmkdir (path : Path) (d : Disk) : (Operation.mkdir path).Orderly d := trivial
  have hcreate (path : Path) (d : Disk) : (Operation.createWithIno path 5).Orderly d := trivial
  have hnested : nested.Grown :=
    ((Grown.empty.perform (hmkdir _ _)).perform (hmkdir _ _)).perform (hcreate _ _)
  have hlink : (Operation.link (.ofString "/a/b/f") (.ofString "/g")).Orderly nested := by
    intro s hs
    have hfile : nested.serialOf (.ofString "/a/b/f") = .ok 3 := by decide +kernel
    cases hs.symm.trans hfile
    decide +kernel
  have hdoubled : doubled.Grown := (hnested.perform hlink).perform (hcreate _ _)
  have hsource : doubled.split (.ofString "/a/b") = .ok (1, .ofString "b") := by decide +kernel
  have htarget : doubled.split (.ofString "/a") = .ok (0, .ofString "a") := by decide +kernel
  have hb : doubled.child? 1 (.ofString "b") = some 2 := by decide +kernel
  have horderly := Operation.orderly_rename hsource hb htarget (by decide) (by decide +kernel)
  have hraised : raised.Grown := hdoubled.perform horderly
  exact ⟨hraised, hraised.keepsIdentity, by decide +kernel, by decide +kernel, by decide +kernel⟩

end Disk

end TreeWatch

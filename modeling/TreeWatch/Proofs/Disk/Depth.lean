import Mathlib.Data.List.Perm.Subperm
import Mathlib.Logic.Relation
import TreeWatch.Proofs.Disk.Regular

/-!
# How deep directories are nested

A scan goes down from directory to directory and is given up when it has gone too deep. Where no
directory lies below itself there is a bound: a way down meets each object once at most.

## Main definitions

- `Disk.Subdirectory`, `Disk.Below` : directories inside a directory, and inside those
- `Disk.Reachable` : what names lead to from the root
- `Disk.Shallow` : ways down from a directory are short
- `Disk.SingleNamed` : no directory has two names

## Main results

- `Disk.shallow_of_acyclic` : ways down are no longer than there are objects
- `Disk.SingleNamed.acyclic` : no directory below the root lies below itself, if none has two names
-/

namespace TreeWatch.Disk

variable {d : Disk} {s c : Serial} {name : Bytes}

/-- A directory with a name inside another one. -/
def Subdirectory (d : Disk) (s c : Serial) : Prop :=
  (∃ name, d.child? s name = some c) ∧ d.isDirectory c

/-- A directory itself, or one somewhere below it. -/
abbrev Below (d : Disk) : Serial → Serial → Prop := Relation.ReflTransGen d.Subdirectory

/-- Names lead from the root to the object. -/
def Reachable (d : Disk) : Serial → Prop :=
  Relation.ReflTransGen (fun s c => ∃ name, d.child? s name = some c) rootSerial

theorem Reachable.named (h : d.Reachable s) : d.Named s := by
  rcases Relation.ReflTransGen.cases_tail h with rfl | ⟨b, -, name, hname⟩
  · exact .inl rfl
  · exact .inr ⟨b, name, hname⟩

theorem isDirectory_of_child? (hc : d.child? s name = some c) : d.isDirectory s := by
  unfold child? at hc
  unfold isDirectory
  cases hn : d.node? s with
  | none =>
    rw [hn] at hc
    cases hc
  | some n =>
    rw [hn, Option.bind_some] at hc
    cases hchildren : n.children with
    | none =>
      rw [Node.childMap, hchildren] at hc
      cases hc
    | some children => simp [hchildren]

/-- The ways to directories lead through directories. -/
theorem Reachable.below (h : d.Reachable s) (hs : d.isDirectory s) : d.Below rootSerial s := by
  induction h with
  | refl => exact .refl
  | tail _ hlast ih =>
    obtain ⟨name, hname⟩ := hlast
    exact (ih (isDirectory_of_child? hname)).tail ⟨⟨name, hname⟩, hs⟩

theorem Below.named (h : d.Below rootSerial s) : d.Named s := by
  rcases Relation.ReflTransGen.cases_tail h with rfl | ⟨b, -, ⟨name, hname⟩, -⟩
  · exact .inl rfl
  · exact .inr ⟨b, name, hname⟩

/-- Ways down from the directory meet fewer than `depth` directories below it. -/
def Shallow (d : Disk) : (depth : Nat) → Serial → Prop
  | 0, _ => False
  | depth + 1, s => ∀ c, d.Subdirectory s c → d.Shallow depth c

theorem Shallow.mono {depth depth' : Nat} (h : d.Shallow depth s) (hle : depth ≤ depth') :
    d.Shallow depth' s := by
  induction depth generalizing s depth' with
  | zero => exact h.elim
  | succ depth ih =>
    obtain ⟨depth', rfl⟩ : ∃ k, depth' = k + 1 := ⟨depth' - 1, by omega⟩
    exact fun c hc => ih (h c hc) (by omega)

theorem lt_of_isDirectory (h : d.isDirectory s) : s < d.nodes.length := by
  unfold isDirectory at h
  cases hn : d.node? s with
  | none =>
    rw [hn] at h
    cases h
  | some n => exact (List.getElem?_eq_some_iff.1 hn).1

/-- No directory lies below itself. -/
def Acyclic (d : Disk) : Prop := ∀ c, ¬Relation.TransGen d.Subdirectory c c

/-- If no directory below lies below itself, a way down meets each object once at most. -/
theorem shallow_of_acyclic (hs : d.isDirectory s)
    (hacyclic : ∀ c, d.Below s c → ¬Relation.TransGen d.Subdirectory c c) :
    d.Shallow (d.nodes.length + 1) s := by
  -- `above` is the way from `s` down to `c`; what is left of the bound is at least what is unvisited
  have hway : ∀ (depth : Nat) (above : List Serial) (c : Serial), d.Below s c → d.isDirectory c →
      (c :: above).Nodup → (∀ x ∈ above, d.isDirectory x ∧ Relation.TransGen d.Subdirectory x c) →
      d.nodes.length < depth + (c :: above).length → d.Shallow depth c := by
    intro depth
    induction depth with
    | zero =>
      intro above c _ hc hnodup habove hlength
      have hsubset : c :: above ⊆ List.range d.nodes.length := by
        intro x hx
        rw [List.mem_range]
        rcases List.mem_cons.1 hx with rfl | hx
        · exact lt_of_isDirectory hc
        · exact lt_of_isDirectory (habove x hx).1
      have hle := (List.subperm_of_subset hnodup hsubset).length_le
      rw [List.length_range] at hle
      omega
    | succ depth ih =>
      intro above c hbelow hc hnodup habove hlength c' hc'
      have hbelow' : d.Below s c' := hbelow.tail hc'
      have hways : ∀ x ∈ c :: above, d.isDirectory x ∧ Relation.TransGen d.Subdirectory x c' := by
        intro x hx
        rcases List.mem_cons.1 hx with rfl | hx
        · exact ⟨hc, .single hc'⟩
        · exact ⟨(habove x hx).1, (habove x hx).2.tail hc'⟩
      refine ih (c :: above) c' hbelow' hc'.2 ?_ hways ?_
      · refine List.nodup_cons.2 ⟨fun hmem => ?_, hnodup⟩
        exact hacyclic c' hbelow' (hways c' hmem).2
      · simp only [List.length_cons] at hlength ⊢
        omega
  have hroom : d.nodes.length < d.nodes.length + 1 + [s].length := by
    rw [List.length_singleton]
    omega
  exact hway _ [] s .refl hs (by simp) (by simp) hroom

theorem Acyclic.shallow (h : d.Acyclic) (hs : d.isDirectory s) : d.Shallow (d.nodes.length + 1) s :=
  shallow_of_acyclic hs fun c _ => h c

/-! ### Directories with one name -/

/-- No directory has two names, and the root has none. -/
def SingleNamed (d : Disk) : Prop :=
  ∀ s n, d.node? s = some n → n.children.isSome → n.links ≤ 1

theorem singleNamed_of_links (h : ∀ n ∈ d.nodes, n.children.isSome → n.links ≤ 1) :
    d.SingleNamed :=
  fun _ n hn => h n (List.mem_of_getElem? hn)

theorem le_total {α : Type} (f : α → Nat) {l : List α} {i : Nat} {a : α} (hi : l[i]? = some a) :
    f a ≤ total f l := by
  induction l generalizing i with
  | nil => simp at hi
  | cons x l ih =>
    rw [total]
    cases i with
    | zero =>
      cases hi
      omega
    | succ i =>
      have hrest := ih (i := i) (by simpa using hi)
      omega

/-- Two members of a list count both. -/
theorem add_le_total {α : Type} (f : α → Nat) {l : List α} {i j : Nat} {a b : α} (hij : i < j)
    (hi : l[i]? = some a) (hj : l[j]? = some b) : f a + f b ≤ total f l := by
  induction l generalizing i j with
  | nil => simp at hi
  | cons x l ih =>
    rw [total]
    obtain ⟨j, rfl⟩ : ∃ k, j = k + 1 := ⟨j - 1, by omega⟩
    have hj' : l[j]? = some b := by simpa using hj
    cases i with
    | zero =>
      cases hi
      have hrest := le_total f hj'
      omega
    | succ i =>
      have hrest := ih (i := i) (j := j) (by omega) (by simpa using hi) hj'
      omega

theorem isDirectory_iff_of_node? {n : Node} (hn : d.node? s = some n) :
    d.isDirectory s ↔ n.children.isSome := by
  rw [isDirectory, hn, Option.bind_some]

theorem Owing.isDirectory_root {owed : List Serial} (h : d.Owing owed) : d.isDirectory rootSerial := by
  obtain ⟨n, hn, hchildren⟩ := h.root_directory
  exact (isDirectory_iff_of_node? hn).2 hchildren

theorem count_values_pos {dir : Serial} {name : Bytes} {n : Node} (hn : d.node? dir = some n)
    (hc : d.child? dir name = some c) : 0 < n.childMap.values.count c := by
  rw [child?, hn, Option.bind_some] at hc
  exact List.count_pos_iff.2 (SortedMap.mem_values_iff.2 ⟨name, hc⟩)

/-- An object that counts one name is in one directory only. -/
theorem Owing.parent_eq (hd : d.Regular) {n : Node} (hn : d.node? s = some n) (hlinks : n.links ≤ 1)
    {dir dir' : Serial} {name name' : Bytes} (h : d.child? dir name = some s)
    (h' : d.child? dir' name' = some s) : dir = dir' := by
  -- two directories with the name would both count
  have hlt : ∀ {dir dir' : Serial} {name name' : Bytes}, d.child? dir name = some s →
      d.child? dir' name' = some s → ¬dir < dir' := by
    intro dir dir' name name' h h' hlt
    obtain ⟨m, hm, -⟩ := Option.bind_eq_some_iff.1 h
    obtain ⟨m', hm', -⟩ := Option.bind_eq_some_iff.1 h'
    have hcount := count_values_pos hm h
    have hcount' := count_values_pos hm' h'
    have htotal : m.childMap.values.count s + m'.childMap.values.count s ≤ d.nameCount s :=
      add_le_total (fun n => n.childMap.values.count s) hlt hm hm'
    have hbalance := hd.links_eq hn
    omega
  have hle := hlt h h'
  have hge := hlt h' h
  exact Nat.le_antisymm (Nat.le_of_not_lt hge) (Nat.le_of_not_lt hle)

theorem SingleNamed.root_unnamed (h : d.SingleNamed) (hd : d.Regular) (dir : Serial)
    (name : Bytes) : d.child? dir name ≠ some rootSerial := by
  intro hc
  obtain ⟨n, hn, hdir⟩ := hd.root_directory
  have hpos : 0 < d.nameCount rootSerial := nameCount_pos_iff.2 ⟨dir, name, hc⟩
  have hlinks := hd.links_eq hn
  have hle := h _ n hn hdir
  rw [if_pos rfl] at hlinks
  omega

/-- If no directory has two names, there is one way up only, and it ends at the root. -/
theorem SingleNamed.acyclic (h : d.SingleNamed) (hd : d.Regular) (hc : d.Below rootSerial c) :
    ¬Relation.TransGen d.Subdirectory c c := by
  induction hc with
  | refl =>
    intro hcycle
    obtain ⟨b, -, ⟨name, hname⟩, -⟩ := Relation.TransGen.tail'_iff.1 hcycle
    exact h.root_unnamed hd b name hname
  | @tail b c _ hlast ih =>
    intro hcycle
    obtain ⟨x, hx, ⟨name, hname⟩, hdir⟩ := Relation.TransGen.tail'_iff.1 hcycle
    obtain ⟨n, hn⟩ := hd.bound_exists hname
    have hlinks : n.links ≤ 1 := h c n hn ((isDirectory_iff_of_node? hn).1 hdir)
    obtain ⟨name', hname'⟩ := hlast.1
    obtain rfl := hd.parent_eq hn hlinks hname hname'
    exact ih (Relation.TransGen.head' hlast hx)

end TreeWatch.Disk

import TreeWatch.Proofs.Mirror.Order
import TreeWatch.Proofs.Path
import TreeWatch.Proofs.Tree.Slots

/-!
# The way up from a record

Going up from a record by lowest entries, one comes to a record that nothing binds, or one walks
round a circle. The path of the record is made of the names on the way, as many as there are records
and one more. So a way that ends is never cut short, and one that is cut short goes round a circle.
In both cases the names lead back down to the record from where the way was left.

## Main definitions

- `Tree.Upward` : one step up
- `Tree.summit` : where one is after some steps
- `Tree.LeadsAlong` : a path leads from one record to another
- `Tree.Legible` : every name can be a component of a path

## Main results

- `Tree.Consistent.follow_namesUp` : the names on the way up lead back down
- `Tree.Sound.upward_circle` : a way with more steps than there are records is a circle
- `Tree.Sound.exists_summit` : where the path of a record begins
- `Ledger.Edits.counted` : the number of records stays right
-/

namespace TreeWatch

namespace Tree

open Relation (TransGen ReflTransGen)

/-- From a record one goes up to the one in which its lowest entry is. -/
inductive Upward (t : Tree) (i : InodeId) : InodeId → Prop
  | step {b : DirectoryEntry} : t.firstLink? i = some b → Upward t i b.parent

/-- Where one is after so many steps up, or where the way ended before. -/
def summit (t : Tree) (i : InodeId) : (steps : Nat) → InodeId
  | 0 => i
  | steps + 1 =>
    match t.firstLink? i with
    | some b => t.summit b.parent steps
    | none => i

/-- The path begins at the root and consists of names that lead from the record `j` to `i`. -/
def LeadsAlong (t : Tree) (j : InodeId) (p : Path) (i : InodeId) : Prop :=
  ∃ names, p.components = .root :: names.map .name ∧ t.follow j names = some i

/-- Every name can be a component of a path. -/
def Legible (t : Tree) : Prop := ∀ i name c, t.child? i name = some c → Path.Named name

variable {t : Tree} {i j : InodeId} {b : DirectoryEntry} {m n : Nat}

/-! ### Paths -/

/-- The names in a path are its own. -/
theorem leadsAlong_iff {p : Path} {names : List Bytes}
    (hp : p.components = .root :: names.map .name) :
    t.LeadsAlong j p i ↔ t.follow j names = some i := by
  refine ⟨fun ⟨names', hp', hfollow⟩ => ?_, fun hfollow => ⟨names, hp, hfollow⟩⟩
  have hsame : names.map Path.Component.name = names'.map .name :=
    (List.cons.inj (hp.symm.trans hp')).2
  rwa [List.map_injective_iff.2 (fun _ _ => Path.Component.name.inj) hsame]

/-! ### One step -/

theorem exists_entryOf?_of_firstLink? (hb : t.firstLink? i = some b) :
    ∃ e r, t.record? i = some r ∧ r.links.contains e ∧ t.entryOf? e = some b := by
  obtain ⟨e, he, hentry⟩ := Option.bind_eq_some_iff.1 hb
  obtain ⟨r, hr, hfirst⟩ := Option.bind_eq_some_iff.1 he
  exact ⟨e, r, hr, (SortedSet.mem_elements _ e).1 (List.mem_of_head? hfirst), hentry⟩

theorem Consistent.child?_of_firstLink? (h : t.Consistent) (hb : t.firstLink? i = some b) :
    t.child? b.parent b.name = some i := by
  obtain ⟨e, r, hr, he, hentry⟩ := exists_entryOf?_of_firstLink? hb
  obtain ⟨b', hb', hchild⟩ := (h.link_iff hr e).1 he
  cases hentry.symm.trans hb'
  exact h.child?_eq_some_iff.2 ⟨e, hchild ▸ hentry⟩

/-- Where the way up ends, nothing is above. -/
theorem Consistent.child?_ne_of_firstLink? (h : t.Consistent) (hnone : t.firstLink? i = none)
    (p : InodeId) (name : Bytes) : t.child? p name ≠ some i := by
  intro hc
  obtain ⟨e, he⟩ := h.child?_eq_some_iff.1 hc
  obtain ⟨r, hr⟩ := h.child_live he
  have hlink : e ∈ r.links.elements :=
    (SortedSet.mem_elements _ e).2 ((h.link_iff hr e).2 ⟨_, he, rfl⟩)
  obtain ⟨first, rest, hlinks⟩ := List.exists_cons_of_ne_nil (List.ne_nil_of_mem hlink)
  have hfirst : r.links.first? = some first := by rw [SortedSet.first?, hlinks, List.head?_cons]
  have hcontains : r.links.contains first :=
    (SortedSet.mem_elements _ first).1 (List.mem_of_head? hfirst)
  obtain ⟨b, hb, -⟩ := (h.link_iff hr first).1 hcontains
  rw [firstLink?, hr, Option.bind_some, hfirst, Option.bind_some, hb] at hnone
  cases hnone

theorem Upward.live (h : t.Sound) (hup : t.Upward i j) : t.isLive j := by
  obtain ⟨hb⟩ := hup
  obtain ⟨e, -, -, -, hentry⟩ := exists_entryOf?_of_firstLink? hb
  exact isLive_iff.2 (h.parent_live hentry)

/-! ### Many steps -/

theorem summit_succ (hb : t.firstLink? i = some b) (n : Nat) :
    t.summit i (n + 1) = t.summit b.parent n := by
  rw [summit, hb]

theorem summit_of_none (hnone : t.firstLink? i = none) (n : Nat) : t.summit i n = i := by
  cases n with
  | zero => rfl
  | succ n => rw [summit, hnone]

theorem summit_add (i : InodeId) (m n : Nat) : t.summit i (m + n) = t.summit (t.summit i m) n := by
  induction m generalizing i with
  | zero => rw [Nat.zero_add, summit]
  | succ m ih =>
    rw [Nat.succ_add]
    cases hfirst : t.firstLink? i with
    | none => rw [summit_of_none hfirst, summit_of_none hfirst, summit_of_none hfirst]
    | some b => rw [summit_succ hfirst, summit_succ hfirst, ih]

theorem upward_summit (i : InodeId) (n : Nat) : ReflTransGen t.Upward i (t.summit i n) := by
  induction n generalizing i with
  | zero => exact .refl
  | succ n ih =>
    cases hfirst : t.firstLink? i with
    | none =>
      rw [summit_of_none hfirst]
    | some b =>
      rw [summit_succ hfirst]
      exact .head (.step hfirst) (ih b.parent)

theorem live_of_upward (h : t.Sound) (hup : ReflTransGen t.Upward i j) (hi : t.isLive i) :
    t.isLive j := by
  induction hup with
  | refl => exact hi
  | tail _ hlast _ => exact hlast.live h

theorem follow_append (i : InodeId) (names names' : List Bytes) :
    t.follow i (names ++ names') = (t.follow i names).bind fun c => t.follow c names' := by
  induction names generalizing i with
  | nil => rfl
  | cons name rest ih =>
    rw [List.cons_append, follow, follow]
    cases t.child? i name with
    | none => rfl
    | some c => exact ih c

/-- The names on the way up lead back down. -/
theorem Consistent.follow_namesUp (h : t.Consistent) (i : InodeId) (n : Nat) :
    t.follow (t.summit i n) (t.namesUp i n).reverse = some i := by
  induction n generalizing i with
  | zero => rfl
  | succ n ih =>
    cases hfirst : t.firstLink? i with
    | none =>
      rw [summit_of_none hfirst, namesUp, hfirst]
      rfl
    | some b =>
      rw [summit_succ hfirst, namesUp, hfirst]
      simp only [List.reverse_cons, follow_append, ih, Option.bind_some, follow,
        h.child?_of_firstLink? hfirst]

theorem Legible.named_of_mem_namesUp (h : t.Legible) (ht : t.Consistent) (n : Nat) :
    ∀ name ∈ t.namesUp i n, Path.Named name := by
  induction n generalizing i with
  | zero => simp [namesUp]
  | succ n ih =>
    rw [namesUp]
    split
    · next b hb =>
      intro name hname
      rcases List.mem_cons.1 hname with rfl | hname
      · exact h b.parent b.name i (ht.child?_of_firstLink? hb)
      · exact ih name hname
    · simp

/-- The path of a record leads to it from where the way up was left. -/
theorem Legible.leadsAlong (h : t.Legible) (ht : t.Consistent) (i : InodeId) :
    t.LeadsAlong (t.summit i (t.recordCount + 1)) (t.resolvePath i) i := by
  refine ⟨(t.namesUp i (t.recordCount + 1)).reverse, ?_, ht.follow_namesUp i _⟩
  have hnames : ∀ name ∈ (t.namesUp i (t.recordCount + 1)).reverse, Path.Named name :=
    fun name hname => h.named_of_mem_namesUp ht _ name (List.mem_reverse.1 hname)
  have hroot : Path.components Path.root = [.root] := by decide
  rw [resolvePath, Path.components_foldl_join _ hnames, hroot, List.singleton_append]

/-! ### Circles -/

/-- A way that comes by the same place twice goes round a circle. -/
theorem transGen_of_summit_eq (hmn : m < n) (heq : t.summit i m = t.summit i n)
    (hlast : t.firstLink? (t.summit i n) ≠ none) :
    TransGen t.Upward (t.summit i n) (t.summit i n) := by
  obtain ⟨k, rfl⟩ : ∃ k, n = m + (k + 1) := ⟨n - m - 1, by omega⟩
  obtain ⟨b, hb⟩ := Option.ne_none_iff_exists'.1 hlast
  have hround : t.summit b.parent k = t.summit i (m + (k + 1)) := by
    rw [← summit_succ hb, ← heq, ← summit_add, heq]
  have hway := upward_summit (t := t) b.parent k
  rw [hround] at hway
  exact .head' (.step hb) hway

/-- Where one comes by twice, one comes by again after as many steps. -/
theorem summit_add_sub (hmn : m ≤ n) (heq : t.summit i m = t.summit i n) {last : Nat}
    (hlast : n ≤ last) : t.summit i (last + (n - m)) = t.summit i last := by
  have hbefore : last + (n - m) = n + (last - m) := by omega
  have hafter : last = m + (last - m) := by omega
  rw [hbefore, summit_add, ← heq, ← summit_add, ← hafter]

/-- A way with more steps than there are records goes round a circle. -/
theorem Sound.upward_circle (h : t.Sound) (hcounted : t.inodes.Counted) (fits : t.Fits)
    (hi : t.isLive i) (hn : t.recordCount ≤ n) (hlast : t.firstLink? (t.summit i n) ≠ none) :
    TransGen t.Upward (t.summit i n) (t.summit i n) := by
  obtain ⟨a, b, hab, hbn, heq⟩ : ∃ a b, a < b ∧ b ≤ n ∧ t.summit i a = t.summit i b := by
    by_contra hdistinct
    push Not at hdistinct
    -- all places would be different records, and there are not as many
    let places := (List.range (n + 1)).map fun k => (t.summit i k).index
    have hnodup : places.Nodup := by
      refine List.Nodup.map_on (fun a ha b hb heq => ?_) List.nodup_range
      have heq' : t.summit i a = t.summit i b := congrArg InodeId.mk heq
      have ha' := List.mem_range.1 ha
      have hb' := List.mem_range.1 hb
      rcases Nat.lt_trichotomy a b with hlt | rfl | hlt
      · exact absurd heq' (hdistinct a b hlt (by omega))
      · rfl
      · exact absurd heq'.symm (hdistinct b a hlt (by omega))
    have hfound : ∀ x ∈ places, (t.inodes.get? x).isSome := by
      intro x hx
      obtain ⟨k, -, rfl⟩ := List.mem_map.1 hx
      exact live_of_upward h (upward_summit i k) hi
    have hle := hcounted.length_le fits.inodes hnodup hfound
    rw [List.length_map, List.length_range] at hle
    exact absurd hle (by show ¬n + 1 ≤ t.recordCount; omega)
  have hround := summit_add_sub (Nat.le_of_lt hab) heq hbn
  have hperiod : n < n + (b - a) := by omega
  rw [← hround] at hlast ⊢
  exact transGen_of_summit_eq hperiod hround.symm hlast

/-- The path of a record leads to it from a place above it that nothing binds, or that lies on a
circle. -/
theorem Sound.exists_summit (h : t.Sound) (hcounted : t.inodes.Counted) (fits : t.Fits)
    (hlegible : t.Legible) (hi : t.isLive i) :
    ∃ j, ReflTransGen t.Upward i j ∧ t.LeadsAlong j (t.resolvePath i) i ∧ t.isLive j ∧
      ((∀ p name, t.child? p name ≠ some j) ∨ TransGen t.Upward j j) := by
  have hway := upward_summit (t := t) i (t.recordCount + 1)
  refine ⟨_, hway, hlegible.leadsAlong h.toConsistent i, live_of_upward h hway hi, ?_⟩
  cases hfirst : t.firstLink? (t.summit i (t.recordCount + 1)) with
  | none => exact .inl (h.child?_ne_of_firstLink? hfirst)
  | some b =>
    refine .inr (h.upward_circle hcounted fits hi (Nat.le_succ _) ?_)
    rw [hfirst]
    exact Option.some_ne_none b

end Tree

namespace Ledger

variable {known : Testimony} {clock : Clock} {l l' : Ledger}

/-- The number of records stays right. -/
theorem Edit.counted (h : Edit known clock l l') (hsound : l.tree.Sound)
    (hcounted : l.tree.inodes.Counted) : l'.tree.inodes.Counted := by
  rcases h.inodes_cases with hshrinks | ⟨a, r, hshrinks, hinsert⟩
  · exact hshrinks.counted hcounted
  · rw [hinsert]
    exact (hshrinks.counted hcounted).insert (hshrinks.wellFormed hsound.inodes_wellFormed) r

theorem Edits.counted (h : Edits known clock l l') (hsound : l.tree.Sound) (fits : l'.tree.Fits)
    (hcounted : l.tree.inodes.Counted) : l'.tree.inodes.Counted :=
  h.keep (P := fun l => l.tree.inodes.Counted) (fun _ _ hedit hsound _ => hedit.counted hsound)
    hsound fits hcounted

end Ledger

end TreeWatch

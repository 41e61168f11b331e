import Mathlib.Data.List.Nodup
import TreeWatch.Observation
import TreeWatch.Proofs.Mirror.Directory
import TreeWatch.ScanSummary

/-!
# Tours of a disk

All names that a scan of the whole mount comes upon, in the order in which it does: depth first, and the
names of a directory in order. Oversized objects are passed over, with all that is below them.

## Main definitions

- `Disk.Sighting` : a name on the disk, with its object and the way to it
- `Disk.sightings`, `Disk.tour` : the names below a directory, and those below the root
- `Disk.WayTo` : the names that lead from the root to an object
- `Disk.bindings` : all names on the disk
- `Disk.tally` : the summary of a scan that binds all these names
- `Disk.observe` : the observation of a name that is bound
- `Disk.Toured` : what tours are, said without going down

## Main results

- `Disk.WayTo.unique` : there is one way to every directory
- `Disk.mem_tour_iff` : the names on a tour are those in directories that ways lead to
- `Disk.nodup_binding_tour`, `Disk.length_tour_le` : each of them occurs once
- `Disk.SingleNamed.toured` : tours are as told

## Design notes

Tours are cut off at a depth, as scans are. `Disk.Shallow` says where this makes no difference.
-/

namespace TreeWatch

namespace ScanSummary

variable (a b c e : ScanSummary)

theorem add_assoc : a + b + c = a + (b + c) := by
  change mk _ _ _ _ _ = mk _ _ _ _ _
  congr 1 <;> exact Nat.add_assoc ..

theorem add_add_add_comm : a + b + (c + e) = a + c + (b + e) := by
  change mk _ _ _ _ _ = mk _ _ _ _ _
  congr 1 <;> exact Nat.add_add_add_comm ..

theorem zero_add : {} + a = a := by
  change mk _ _ _ _ _ = a
  cases a
  congr 1 <;> exact Nat.zero_add _

end ScanSummary

namespace Disk

variable {d : Disk} {s c : Serial} {name : Bytes} {way way' : List Bytes} {depth : Nat}

instance (d : Disk) (s : Serial) : Decidable (d.Oversized s) :=
  decidable_of_iff ((d.node? s).any (·.oversized) = true) <| by
    unfold Oversized
    cases d.node? s <;> simp

/-- The names in a directory, in order, each with its object. -/
def names (d : Disk) (s : Serial) : List (Bytes × Serial) :=
  match d.node? s with
  | some n => n.childMap.toList
  | none => []

/-- How a name is listed. -/
def entryOf (d : Disk) (q : Bytes × Serial) : ListedEntry := ⟨q.1, d.inoAt q.2⟩

/-- A name in a directory, with its object and the names that lead from the root to the directory. -/
structure Sighting where
  way : List Bytes
  directory : Serial
  name : Bytes
  object : Serial
deriving DecidableEq

/-- The names that lead from the root to the object. -/
def Sighting.whole (x : Sighting) : List Bytes := x.way ++ [x.name]

/-- A name with all that is below it, unless its object is oversized. -/
def sightingsAt (d : Disk) (below : List Bytes → Serial → List Sighting) (way : List Bytes)
    (s : Serial) (p : Bytes × Serial) : List Sighting :=
  if d.Oversized p.2 then [] else ⟨way, s, p.1, p.2⟩ :: below (way ++ [p.1]) p.2

/-- The names below a directory to which `way` leads, `depth` levels of directories at most. -/
def sightings (d : Disk) : (depth : Nat) → (way : List Bytes) → Serial → List Sighting
  | 0, _, _ => []
  | depth + 1, way, s => (d.names s).flatMap (d.sightingsAt (d.sightings depth) way s)

/-- The names below the root. -/
def tour (d : Disk) : List Sighting := d.sightings (d.nodes.length + 1) [] rootSerial

/-! ### Names of directories -/

theorem mem_names : (name, c) ∈ d.names s ↔ d.child? s name = some c := by
  unfold names child?
  cases d.node? s with
  | none => simp
  | some n => exact SortedMap.get?_eq_some_iff.symm

theorem nodup_names (d : Disk) (s : Serial) : ((d.names s).map Prod.fst).Nodup := by
  unfold names
  cases d.node? s with
  | none => exact List.nodup_nil
  | some n => exact n.childMap.distinct

theorem names_of_not_directory (hs : ¬d.isDirectory s) : d.names s = [] :=
  List.eq_nil_iff_forall_not_mem.2 fun _ hp => hs (isDirectory_of_child? (mem_names.1 hp))

/-! ### Ways -/

/-- The names that lead from the root to an object, past no oversized one. -/
inductive WayTo (d : Disk) : List Bytes → Serial → Prop
  | root : d.WayTo [] rootSerial
  | name {way : List Bytes} {s c : Serial} {name : Bytes} :
    d.WayTo way s → d.child? s name = some c → ¬d.Oversized c → d.WayTo (way ++ [name]) c

/-- Some way leads to the object. -/
def Mirrored (d : Disk) (s : Serial) : Prop := ∃ way, d.WayTo way s

theorem WayTo.named (h : d.WayTo way s) : d.Named s := by
  cases h with
  | root => exact .inl rfl
  | name _ hc _ => exact .inr ⟨_, _, hc⟩

theorem WayTo.not_oversized (h : d.WayTo way s) (hroot : ¬d.Oversized rootSerial) :
    ¬d.Oversized s := by
  cases h with
  | root => exact hroot
  | name _ _ hsize => exact hsize

/-- A directory has its name in one place only. -/
theorem SingleNamed.binding_eq (h : d.SingleNamed) (hd : d.Regular) {s' : Serial} {name' : Bytes}
    (hc : d.child? s name = some c) (hc' : d.child? s' name' = some c) (hdir : d.isDirectory c) :
    s = s' ∧ name = name' := by
  obtain ⟨n, hn⟩ := hd.bound_exists hc
  have hlinks : n.links ≤ 1 := h c n hn ((isDirectory_iff_of_node? hn).1 hdir)
  obtain rfl := hd.parent_eq hn hlinks hc hc'
  refine ⟨rfl, not_not.1 fun hne => ?_⟩
  -- two names in one directory would both count
  obtain ⟨m, hm, hget⟩ := Option.bind_eq_some_iff.1 hc
  have hget' : (m.childMap.erase name).get? name' = some c := by
    rw [SortedMap.get?_erase, if_neg (Ne.symm hne)]
    rwa [child?, hm] at hc'
  have hsecond : 0 < (m.childMap.erase name).values.count c :=
    List.count_pos_iff.2 (SortedMap.mem_values_iff.2 ⟨name', hget'⟩)
  have hcount := SortedMap.count_values_erase hget c
  have htotal : m.childMap.values.count c ≤ d.nameCount c :=
    le_total (fun n => n.childMap.values.count c) hm
  have hbalance := hd.links_eq hn
  rw [if_pos rfl] at hcount
  omega

/-- There is one way to every directory. -/
theorem WayTo.unique (hd : d.Regular) (hsingle : d.SingleNamed) (h : d.WayTo way s)
    (h' : d.WayTo way' s) (hs : d.isDirectory s) : way = way' := by
  induction h generalizing way' with
  | root =>
    cases h' with
    | root => rfl
    | name _ hc _ => exact absurd hc (hsingle.root_unnamed hd _ _)
  | name _ hc _ ih =>
    cases h' with
    | root => exact absurd hc (hsingle.root_unnamed hd _ _)
    | name hway' hc' _ =>
      obtain ⟨rfl, rfl⟩ := hsingle.binding_eq hd hc hc' hs
      rw [ih hway' (isDirectory_of_child? hc)]

/-- The name is on the disk, in a directory to which the way leads, and its object is not oversized. -/
structure Sighted (d : Disk) (x : Sighting) : Prop where
  way : d.WayTo x.way x.directory
  child : d.child? x.directory x.name = some x.object
  size : ¬d.Oversized x.object

/-- The object is the root or has one of the names. -/
def Seen (tour : List Sighting) (s : Serial) : Prop := s = rootSerial ∨ ∃ x ∈ tour, x.object = s

theorem Seen.append {tour : List Sighting} (h : Seen tour s) (tour' : List Sighting) :
    Seen (tour ++ tour') s :=
  h.imp_right fun ⟨x, hx, heq⟩ => ⟨x, List.mem_append_left _ hx, heq⟩

theorem seen_append_singleton {tour : List Sighting} {x : Sighting} :
    Seen (tour ++ [x]) s ↔ Seen tour s ∨ s = x.object := by
  rw [Seen, Seen, or_assoc]
  simp only [List.mem_append, List.mem_singleton, or_and_right, exists_or, exists_eq_left]
  rw [eq_comm (a := x.object)]

theorem Sighted.whole {x : Sighting} (h : d.Sighted x) : d.WayTo x.whole x.object :=
  .name h.way h.child h.size

theorem Seen.named {tour : List Sighting} (hsighted : ∀ x ∈ tour, d.Sighted x) (h : Seen tour s) :
    d.Named s := by
  rcases h with rfl | ⟨x, hx, rfl⟩
  · exact .inl rfl
  · exact (hsighted x hx).whole.named

/-! ### What is on a tour -/

theorem sightings_succ (d : Disk) (depth : Nat) (way : List Bytes) (s : Serial) :
    d.sightings (depth + 1) way s = (d.names s).flatMap (d.sightingsAt (d.sightings depth) way s) :=
  rfl

theorem mem_sightings_succ {x : Sighting} : x ∈ d.sightings (depth + 1) way s ↔
    ∃ name c, d.child? s name = some c ∧ ¬d.Oversized c ∧
      (x = ⟨way, s, name, c⟩ ∨ x ∈ d.sightings depth (way ++ [name]) c) := by
  rw [sightings_succ, List.mem_flatMap]
  constructor
  · rintro ⟨⟨name, c⟩, hp, hx⟩
    unfold sightingsAt at hx
    split at hx
    · cases hx
    · next hsize => exact ⟨name, c, mem_names.1 hp, hsize, List.mem_cons.1 hx⟩
  · rintro ⟨name, c, hc, hsize, hx⟩
    refine ⟨(name, c), mem_names.2 hc, ?_⟩
    unfold sightingsAt
    rw [if_neg hsize]
    exact List.mem_cons.2 hx

theorem prefix_of_mem_sightings {x : Sighting} (hx : x ∈ d.sightings depth way s) : way <+: x.way := by
  induction depth generalizing way s with
  | zero => cases hx
  | succ depth ih =>
    obtain ⟨name, c, -, -, rfl | hx⟩ := mem_sightings_succ.1 hx
    · exact List.prefix_refl way
    · exact (List.prefix_append way [name]).trans (ih hx)

/-- All that is seen at a name begins with the way to it. -/
theorem prefix_of_mem_sightingsAt {p : Bytes × Serial} {x : Sighting}
    (hx : x ∈ d.sightingsAt (d.sightings depth) way s p) : way ++ [p.1] <+: x.whole := by
  unfold sightingsAt at hx
  split at hx
  · cases hx
  · rcases List.mem_cons.1 hx with rfl | hx
    · exact List.prefix_refl _
    · exact (prefix_of_mem_sightings hx).trans (List.prefix_append x.way [x.name])

/-- What is seen at different names is different. -/
theorem eq_of_prefix_whole {x : Sighting} {name name' : Bytes} (h : way ++ [name] <+: x.whole)
    (h' : way ++ [name'] <+: x.whole) : name = name' := by
  have heq : way ++ [name] = way ++ [name'] :=
    (List.prefix_of_prefix_length_le h h' (by simp)).eq_of_length (by simp)
  exact (List.cons.inj (List.append_cancel_left heq)).1

theorem sightings_of_not_directory (hs : ¬d.isDirectory s) : d.sightings depth way s = [] := by
  cases depth with
  | zero => rfl
  | succ depth =>
    rw [sightings_succ, names_of_not_directory hs]
    rfl

/-- Where ways down are short enough, nothing is cut off. -/
theorem sightings_of_shallow (hs : d.Shallow depth s) {depth' : Nat} (hle : depth ≤ depth')
    (way : List Bytes) : d.sightings depth' way s = d.sightings depth way s := by
  induction depth generalizing depth' way s with
  | zero => exact hs.elim
  | succ depth ih =>
    obtain ⟨depth', rfl⟩ : ∃ k, depth' = k + 1 := ⟨depth' - 1, by omega⟩
    rw [sightings_succ, sightings_succ]
    refine List.flatMap_congr fun q hq => ?_
    have hbelow : d.sightings depth' (way ++ [q.1]) q.2 = d.sightings depth (way ++ [q.1]) q.2 := by
      by_cases hdir : d.isDirectory q.2
      · exact ih (hs q.2 ⟨⟨q.1, mem_names.1 hq⟩, hdir⟩) (Nat.le_of_succ_le_succ hle) _
      · rw [sightings_of_not_directory hdir, sightings_of_not_directory hdir]
    rw [sightingsAt, sightingsAt, hbelow]

theorem sighted_of_mem_sightings (hs : d.WayTo way s) {x : Sighting}
    (hx : x ∈ d.sightings depth way s) : d.Sighted x := by
  induction depth generalizing way s with
  | zero => cases hx
  | succ depth ih =>
    obtain ⟨name, c, hc, hsize, rfl | hx⟩ := mem_sightings_succ.1 hx
    · exact ⟨hs, hc, hsize⟩
    · exact ih (.name hs hc hsize) hx

theorem mem_sightings_of_child? (hs : d.Shallow depth s) (hc : d.child? s name = some c)
    (hsize : ¬d.Oversized c) : ⟨way, s, name, c⟩ ∈ d.sightings depth way s := by
  cases depth with
  | zero => exact hs.elim
  | succ depth => exact mem_sightings_succ.2 ⟨name, c, hc, hsize, .inl rfl⟩

theorem isDirectory_of_mem_sightings {x : Sighting} (hx : x ∈ d.sightings depth way s) :
    d.isDirectory s := by
  cases depth with
  | zero => cases hx
  | succ depth =>
    obtain ⟨name, c, hc, -⟩ := mem_sightings_succ.1 hx
    exact isDirectory_of_child? hc

/-- With an object, the names inside it are on the tour. -/
theorem mem_sightings_below (hs : d.Shallow depth s) {x : Sighting}
    (hx : x ∈ d.sightings depth way s) (hc : d.child? x.object name = some c)
    (hsize : ¬d.Oversized c) : ⟨x.whole, x.object, name, c⟩ ∈ d.sightings depth way s := by
  induction depth generalizing way s with
  | zero => exact hs.elim
  | succ depth ih =>
    obtain ⟨name', c', hc', hsize', hx⟩ := mem_sightings_succ.1 hx
    refine mem_sightings_succ.2 ⟨name', c', hc', hsize', .inr ?_⟩
    rcases hx with rfl | hx
    · exact mem_sightings_of_child? (hs c' ⟨⟨name', hc'⟩, isDirectory_of_child? hc⟩) hc hsize
    · exact ih (hs c' ⟨⟨name', hc'⟩, isDirectory_of_mem_sightings hx⟩) hx

section tour

variable (hd : d.Regular) (hsingle : d.SingleNamed)
include hd hsingle

theorem SingleNamed.shallow_root : d.Shallow (d.nodes.length + 1) rootSerial :=
  shallow_of_acyclic hd.isDirectory_root fun _ hc => hsingle.acyclic hd hc

theorem mem_tour_of_wayTo (hs : d.WayTo way s) (hc : d.child? s name = some c)
    (hsize : ¬d.Oversized c) : ⟨way, s, name, c⟩ ∈ d.tour := by
  have hshallow := SingleNamed.shallow_root hd hsingle
  induction hs generalizing name c with
  | root => exact mem_sightings_of_child? hshallow hc hsize
  | name _ hbound hsmall ih => exact mem_sightings_below hshallow (ih hbound hsmall) hc hsize

/-- On a tour are the names of all directories that ways lead to, but for those of oversized objects. -/
theorem mem_tour_iff {x : Sighting} : x ∈ d.tour ↔ d.Sighted x :=
  ⟨sighted_of_mem_sightings .root, fun h => mem_tour_of_wayTo hd hsingle h.way h.child h.size⟩

theorem mirrored_iff : d.Mirrored s ↔ Seen d.tour s := by
  constructor
  · rintro ⟨way, h⟩
    cases h with
    | root => exact .inl rfl
    | name hs hc hsize => exact .inr ⟨_, mem_tour_of_wayTo hd hsingle hs hc hsize, rfl⟩
  · rintro (rfl | ⟨x, hx, rfl⟩)
    · exact ⟨[], .root⟩
    · exact ⟨x.whole, ((mem_tour_iff hd hsingle).1 hx).whole⟩

end tour

/-! ### Totals -/

theorem total_append {α : Type} (f : α → Nat) (l l' : List α) :
    total f (l ++ l') = total f l + total f l' := by
  induction l with
  | nil => exact (Nat.zero_add _).symm
  | cons a l ih => rw [List.cons_append, total, total, ih, Nat.add_assoc]

theorem total_map {α β : Type} (f : β → Nat) (g : α → β) (l : List α) :
    total f (l.map g) = total (fun a => f (g a)) l := by
  induction l with
  | nil => rfl
  | cons a l ih => rw [List.map_cons, total, total, ih]

theorem length_flatMap_eq_total {α β : Type} (f : α → List β) (l : List α) :
    (l.flatMap f).length = total (fun a => (f a).length) l := by
  induction l with
  | nil => rfl
  | cons a l ih => rw [List.flatMap_cons, List.length_append, ih, total]

/-! ### Every name once -/

theorem nodup_whole_sightings (d : Disk) (depth : Nat) (way : List Bytes) (s : Serial) :
    ((d.sightings depth way s).map Sighting.whole).Nodup := by
  induction depth generalizing way s with
  | zero => exact List.nodup_nil
  | succ depth ih =>
    rw [sightings_succ, List.map_flatMap, List.nodup_flatMap]
    constructor
    · intro p _
      unfold sightingsAt
      split
      · exact List.nodup_nil
      · rw [List.map_cons, List.nodup_cons]
        refine ⟨fun hmem => ?_, ih _ _⟩
        obtain ⟨x, hx, heq⟩ := List.mem_map.1 hmem
        have hlength := (prefix_of_mem_sightings hx).length_le
        have heq' := congrArg List.length heq
        simp only [Sighting.whole, List.length_append, List.length_singleton] at hlength heq'
        omega
    · refine List.Pairwise.imp ?_ (List.pairwise_map.1 (nodup_names d s))
      intro p q hne z hp hq
      obtain ⟨x, hx, rfl⟩ := List.mem_map.1 hp
      obtain ⟨y, hy, heq⟩ := List.mem_map.1 hq
      exact hne (eq_of_prefix_whole (prefix_of_mem_sightingsAt hx)
        (heq ▸ prefix_of_mem_sightingsAt hy))

theorem nodup_whole_tour (d : Disk) : (d.tour.map Sighting.whole).Nodup :=
  nodup_whole_sightings d _ _ _

/-- No name in a directory occurs twice on a tour. -/
theorem nodup_binding_tour (hd : d.Regular) (hsingle : d.SingleNamed) :
    (d.tour.map fun x => (x.directory, x.name)).Nodup := by
  refine List.Nodup.map_on ?_ (List.Nodup.of_map _ (nodup_whole_tour d))
  rintro ⟨way, s, name, c⟩ hx ⟨way', s', name', c'⟩ hy heq
  cases heq
  obtain ⟨hway, hc, -⟩ := (mem_tour_iff hd hsingle).1 hx
  obtain ⟨hway', hc', -⟩ := (mem_tour_iff hd hsingle).1 hy
  obtain rfl := hway.unique hd hsingle hway' (isDirectory_of_child? hc)
  rw [hc] at hc'
  cases hc'
  rfl

/-- All names on the disk, each with its directory. -/
def bindings (d : Disk) : List (Serial × Bytes) :=
  d.nodes.zipIdx.flatMap fun p => p.1.childMap.toList.map fun q => (p.2, q.1)

theorem mem_bindings_of_child? (hc : d.child? s name = some c) : (s, name) ∈ d.bindings := by
  obtain ⟨n, hn, hget⟩ := Option.bind_eq_some_iff.1 hc
  exact List.mem_flatMap.2 ⟨(n, s), List.mk_mem_zipIdx_iff_getElem?.2 hn,
    List.mem_map.2 ⟨(name, c), SortedMap.get?_eq_some_iff.1 hget, rfl⟩⟩

theorem length_bindings (d : Disk) : d.bindings.length = d.bindingCount := by
  have hnodes : d.nodes.zipIdx.map Prod.fst = d.nodes := List.zipIdx_map_fst 0 d.nodes
  rw [bindingCount, ← hnodes, total_map, bindings, length_flatMap_eq_total]
  simp only [List.length_map]
  rfl

/-- There are no more names on a tour than on the disk. -/
theorem length_tour_le (hd : d.Regular) (hsingle : d.SingleNamed) :
    d.tour.length ≤ d.bindingCount := by
  have hsubset : (d.tour.map fun x => (x.directory, x.name)) ⊆ d.bindings := by
    intro b hb
    obtain ⟨x, hx, rfl⟩ := List.mem_map.1 hb
    exact mem_bindings_of_child? ((mem_tour_iff hd hsingle).1 hx).child
  have hle := (List.subperm_of_subset (nodup_binding_tour hd hsingle) hsubset).length_le
  rw [List.length_map, length_bindings] at hle
  exact hle

/-! ### What is reported -/

/-- How many listed names a scan of the directory passes over: those of oversized objects, and those
behind which there is nothing. -/
def passedOver (d : Disk) (s : Serial) : Nat :=
  ((d.node? s).elim 0 fun n => n.phantoms.length) + (d.names s).countP fun p => d.Oversized p.2

/-- The directories among the objects of some names. -/
def directoriesOf (d : Disk) (tour : List Sighting) : List Serial :=
  (tour.map (·.object)).filter d.isDirectory

/-- The summary of a scan that binds the names and scans the directories among their objects. -/
def tally (d : Disk) (tour : List Sighting) : ScanSummary where
  directories := (d.directoriesOf tour).length
  linked := tour.length
  skipped := total d.passedOver (d.directoriesOf tour)

/-- The summary of a scan of a directory that binds the names below it. -/
def overview (d : Disk) (s : Serial) (tour : List Sighting) : ScanSummary :=
  { directories := 1, skipped := d.passedOver s } + d.tally tour

/-- The directories that are gone through on the tour. -/
def directories (d : Disk) : List Serial := rootSerial :: d.directoriesOf d.tour

/-- The observation of a name that is bound. -/
def observe (d : Disk) (x : Sighting) : Observation where
  kind := .linked
  path := x.whole.foldl Path.join Path.root
  ino := d.inoAt x.object
  parentIno := d.inoAt x.directory

theorem tally_append (d : Disk) (tour tour' : List Sighting) :
    d.tally (tour ++ tour') = d.tally tour + d.tally tour' := by
  simp only [tally, directoriesOf, total_append, List.map_append, List.filter_append,
    List.length_append]
  rfl

/-- Names are tallied one after another, with those that are passed over. -/
theorem tally_flatMap_cons (d : Disk) (below : Bytes × Serial → List Sighting) (q : Bytes × Serial)
    (rest : List (Bytes × Serial)) (skipped : Nat) :
    ({ skipped := skipped + (q :: rest).countP fun q => d.Oversized q.2 } : ScanSummary) +
        d.tally ((q :: rest).flatMap below) =
      { skipped := if d.Oversized q.2 then 1 else 0 } + d.tally (below q) +
        ({ skipped := skipped + rest.countP fun q => d.Oversized q.2 } + d.tally (rest.flatMap below)) := by
  rw [List.flatMap_cons, tally_append, ScanSummary.add_add_add_comm, List.countP_cons]
  congr 1
  change _ = ScanSummary.mk 0 0 0 0 (_ + _)
  congr 1
  simp only [decide_eq_true_eq]
  omega

/-- A name of a directory counts itself and the scan of the directory. -/
theorem tally_directory_cons {x : Sighting} (h : d.isDirectory x.object) (tour : List Sighting) :
    d.tally (x :: tour) = { linked := 1 } + d.overview x.object tour := by
  have hone : d.tally [x] = { linked := 1 } + { directories := 1, skipped := d.passedOver x.object } := by
    change _ = ScanSummary.mk 1 1 0 0 (0 + d.passedOver x.object)
    rw [Nat.zero_add]
    simp [tally, directoriesOf, h, total]
  rw [← List.singleton_append, tally_append, hone, ScanSummary.add_assoc]
  rfl

theorem tally_of_not_directory {x : Sighting} (h : ¬d.isDirectory x.object) :
    d.tally [x] = { linked := 1 } := by
  simp [tally, directoriesOf, h, total]

/-- A directory counts one, and then what is listed in it counts. -/
theorem overview_eq {n : Node} (hn : d.node? s = some n) (tour : List Sighting) :
    d.overview s tour = { directories := 1 } +
      ({ skipped := n.phantoms.length + (d.names s).countP fun q => d.Oversized q.2 } +
        d.tally tour) := by
  rw [← ScanSummary.add_assoc, overview, passedOver, hn]
  congr 1
  change _ = ScanSummary.mk 1 0 0 0 (0 + _)
  rw [Nat.zero_add]
  rfl

theorem overview_root (d : Disk) : d.overview rootSerial d.tour =
    { directories := d.directories.length, linked := d.tour.length,
      skipped := total d.passedOver d.directories } := by
  change ScanSummary.mk (1 + (d.directoriesOf d.tour).length) (0 + d.tour.length) 0 0 _ = _
  rw [Nat.add_comm 1, Nat.zero_add]
  rfl

/-- What tours are: every name is met once that is in a directory to which a way leads, unless its object
is oversized, and every such directory is gone through once. -/
structure Toured (d : Disk) : Prop where
  nodup_tour : (d.tour.map fun x => (x.directory, x.name)).Nodup
  mem_tour : ∀ x, x ∈ d.tour ↔ d.Sighted x
  nodup_directories : d.directories.Nodup
  mem_directories : ∀ s, s ∈ d.directories ↔ d.Mirrored s ∧ d.isDirectory s

theorem SingleNamed.toured (hd : d.Regular) (hsingle : d.SingleNamed) : d.Toured where
  nodup_tour := nodup_binding_tour hd hsingle
  mem_tour _ := mem_tour_iff hd hsingle
  nodup_directories := by
    refine List.nodup_cons.2 ⟨fun hroot => ?_, ?_⟩
    · obtain ⟨x, hx, heq⟩ := List.mem_map.1 (List.mem_filter.1 hroot).1
      exact hsingle.root_unnamed hd _ _ (heq ▸ ((mem_tour_iff hd hsingle).1 hx).child)
    · rw [directoriesOf, List.filter_map]
      have honce := (nodup_binding_tour hd hsingle).sublist
        (List.Sublist.map _ (List.filter_sublist (p := d.isDirectory ∘ Sighting.object)))
      -- a directory that was met twice would have two names
      refine List.Nodup.map_on ?_ (List.Nodup.of_map _ honce)
      intro x hx y hy heq
      obtain ⟨hx, hdir⟩ := List.mem_filter.1 hx
      have hy := (List.mem_filter.1 hy).1
      have hchild := ((mem_tour_iff hd hsingle).1 hx).child
      have hchild' := ((mem_tour_iff hd hsingle).1 hy).child
      rw [← heq] at hchild'
      obtain ⟨hdirectory, hname⟩ := hsingle.binding_eq hd hchild hchild' hdir
      exact List.inj_on_of_nodup_map (nodup_binding_tour hd hsingle) hx hy
        (Prod.ext hdirectory hname)
  mem_directories s := by
    rw [mirrored_iff hd hsingle, directories, List.mem_cons, directoriesOf, List.mem_filter,
      List.mem_map, Seen, or_and_right]
    refine or_congr_left ⟨fun h => ⟨h, h ▸ hd.isDirectory_root⟩, And.left⟩

end Disk

end TreeWatch

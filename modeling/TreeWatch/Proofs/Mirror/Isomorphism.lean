import TreeWatch.Proofs.Mirror.Bind
import TreeWatch.Proofs.Mirror.Directory

/-!
# Trees that mirror a disk

What can be reached in a tree from its root is compared with what can be reached on a disk from its
root. The two are isomorphic if directories are settled as far down as there are any.

## Main definitions

- `Tree.Reachable` : what names lead to from the root
- `Tree.Mirrors` : objects that can be reached on the disk correspond to records that can be reached in
  the tree

## Main results

- `Tree.Sound.exists_mirrors` : settled directories make a mirror
-/

namespace TreeWatch

namespace Tree

variable {t : Tree} {d : Disk} {i : InodeId}

/-- Names lead from the root to the record. -/
def Reachable (t : Tree) (i : InodeId) : Prop :=
  ∃ r, t.root = some r ∧
    Relation.ReflTransGen (fun p c => ∃ name, t.child? p name = some c) r i

/-- What can be reached in the tree is isomorphic to what can be reached on the disk. An object with
several names has one record. -/
structure Mirrors (t : Tree) (d : Disk) (recordOf : Serial → InodeId) : Prop where
  root_eq : t.root = some (recordOf Disk.rootSerial)
  /-- Records have the inode number, the mode and thereby the kind, and the token of their objects. -/
  record : ∀ s, d.Reachable s → ∃ r n, t.record? (recordOf s) = some r ∧ d.node? s = some n ∧
    r.ino = n.ino ∧ r.mode = n.mode ∧ r.token = Disk.tokenOf s
  /-- The same names are in every directory. -/
  child?_eq : ∀ s, d.Reachable s → ∀ name,
    t.child? (recordOf s) name = (d.child? s name).map recordOf
  injective : ∀ s s', d.Reachable s → d.Reachable s' → recordOf s = recordOf s' → s = s'
  surjective : ∀ i, t.Reachable i → ∃ s, d.Reachable s ∧ recordOf s = i

theorem Mirrors.holds {recordOf : Serial → InodeId} (h : t.Mirrors d recordOf) {s : Serial}
    (hs : d.Reachable s) : t.view.Holds d (recordOf s) s := by
  obtain ⟨r, n, hr, hn, hino, hmode, htoken⟩ := h.record s hs
  refine ⟨r.identity.1, n, ?_, hn, hino, hmode⟩
  have hidentity : t.identity? (recordOf s) = some r.identity :=
    Tree.identity?_eq_some_iff.2 ⟨r, hr, rfl⟩
  rw [Tree.view_identity, hidentity, ← htoken]
  rfl

namespace Sound

/-- Names lead from settled directories to objects that have a record. -/
theorem held_of_reachable (hroot : t.view.Rooted d)
    (hsettled : ∀ s, d.Below Disk.rootSerial s → t.view.Held d s → t.view.Settled d s) {s : Serial}
    (hs : d.Reachable s) : t.view.Held d s := by
  induction hs with
  | refl =>
    obtain ⟨r, -, hr⟩ := hroot
    exact ⟨r, hr⟩
  | @tail b c hb hlast ih =>
    obtain ⟨name, hname⟩ := hlast
    have hbelow : d.Below Disk.rootSerial b :=
      Disk.Reachable.below hb (Disk.isDirectory_of_child? hname)
    obtain ⟨p, hp, hnames⟩ := hsettled b hbelow ih
    obtain ⟨j, -, hj⟩ := (View.agrees_of_some hname).1 (hnames name)
    exact ⟨j, hj⟩

/-- What is no directory has no names inside, nor has its record. -/
theorem child?_eq_none_of_not_directory (h : t.Sound) (hd : d.Regular) {s : Serial}
    (hi : t.view.Holds d i s) (hdir : ¬d.isDirectory s) (name : Bytes) :
    t.child? i name = none ∧ d.child? s name = none := by
  constructor
  · rw [Option.eq_none_iff_forall_ne_some]
    intro c hc
    obtain ⟨⟨r, hr, hrdir⟩, -⟩ := h.live_of_child? hc
    exact hdir ((h.isDirectory_iff hd hi hr).1 hrdir)
  · rw [Option.eq_none_iff_forall_ne_some]
    exact fun c hc => hdir (Disk.isDirectory_of_child? hc)

theorem child?_eq_map (h : t.Sound) (hd : d.Regular) {recordOf : Serial → InodeId}
    (hholds : ∀ s, d.Reachable s → t.view.Holds d (recordOf s) s)
    (hsettled : ∀ s, d.Below Disk.rootSerial s → t.view.Held d s → t.view.Settled d s) {s : Serial}
    (hs : d.Reachable s) (name : Bytes) :
    t.child? (recordOf s) name = (d.child? s name).map recordOf := by
  have hi := hholds s hs
  by_cases hdir : d.isDirectory s
  · obtain ⟨p, hp, hnames⟩ := hsettled s (hs.below hdir) ⟨_, hi⟩
    obtain rfl := h.eq_of_holds hi hp
    cases hc : d.child? s name with
    | none => exact (View.agrees_of_none hc).1 (hnames name)
    | some c =>
      obtain ⟨j, hj, hjc⟩ := (View.agrees_of_some hc).1 (hnames name)
      have hreach : d.Reachable c := hs.tail ⟨name, hc⟩
      obtain rfl := h.eq_of_holds hjc (hholds c hreach)
      exact hj
  · obtain ⟨htree, hdisk⟩ := h.child?_eq_none_of_not_directory hd hi hdir name
    rw [htree, hdisk, Option.map_none]

/-- A rooted tree mirrors the disk if every directory that is below the root and has a record is
settled. -/
theorem exists_mirrors (h : t.Sound) (hd : d.Regular) (hroot : t.view.Rooted d)
    (hsettled : ∀ s, d.Below Disk.rootSerial s → t.view.Held d s → t.view.Settled d s) :
    ∃ recordOf, t.Mirrors d recordOf := by
  have hheld : ∀ s, ∃ i, d.Reachable s → t.view.Holds d i s := by
    intro s
    by_cases hs : d.Reachable s
    · obtain ⟨i, hi⟩ := held_of_reachable hroot hsettled hs
      exact ⟨i, fun _ => hi⟩
    · exact ⟨⟨⟨0, 0⟩⟩, fun hs' => absurd hs' hs⟩
  -- records of what cannot be reached do not matter
  choose recordOf hholds using hheld
  obtain ⟨r, hr, hrholds⟩ := hroot
  obtain rfl := h.eq_of_holds hrholds (hholds _ .refl)
  have hchild : ∀ s, d.Reachable s → ∀ name,
      t.child? (recordOf s) name = (d.child? s name).map recordOf :=
    fun s hs name => h.child?_eq_map hd hholds hsettled hs name
  refine ⟨recordOf, hr, fun s hs => ?_, hchild, fun s s' hs hs' heq => ?_, fun i hi => ?_⟩
  · obtain ⟨a, n, ha, hn, hino, hmode⟩ := hholds s hs
    obtain ⟨r, hr, hidentity⟩ := Tree.identity?_eq_some_iff.1 ha
    have hattributes : r.identity.1 = a := congrArg Prod.fst hidentity
    have htoken : r.identity.2 = Disk.tokenOf s := congrArg Prod.snd hidentity
    subst hattributes
    exact ⟨r, n, hr, hn, hino, hmode, htoken⟩
  · have hleft := hholds s hs
    rw [heq] at hleft
    exact hleft.serial_eq hd (hholds s' hs')
  · -- along the way down in the tree there is one on the disk
    obtain ⟨r, hroot', hway⟩ := hi
    rw [← Tree.view_root, hr] at hroot'
    cases hroot'
    induction hway with
    | refl => exact ⟨_, .refl, rfl⟩
    | tail _ hlast ih =>
      obtain ⟨name, hname⟩ := hlast
      obtain ⟨s, hs, rfl⟩ := ih
      rw [hchild s hs, Option.map_eq_some_iff] at hname
      obtain ⟨c, hc, rfl⟩ := hname
      exact ⟨c, hs.tail ⟨name, hc⟩, rfl⟩

end Sound

end Tree

end TreeWatch

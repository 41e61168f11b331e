import Mathlib.Logic.Relation
import TreeWatch.Proofs.Disk.Regular
import TreeWatch.Proofs.Tree.View

/-!
# Updates

What a tree shows is compared with a disk: a record holds an object if it says of it what the disk
says. While the tracker works on a disk that stays as it is, what the tree shows changes by updates
only, each of them justified by the disk. What is right about a tree stays right under updates.

## Main definitions

- `Disk.Skips`, `Disk.Tends` : names that a scan passes over, and those that it deals with
- `Disk.Distinguishes` : inode numbers tell the present objects apart
- `View.Holds` : a record is for an object
- `View.Truthful` : every record is for some object
- `View.Agrees` : a name leads the same way in a record and in an object
- `View.Update`, `View.Updates` : changes justified by a disk

## Main results

- `View.Updates.holds`, `View.Updates.truthful`, `View.Updates.agrees` : what updates keep
- `View.Updates.fresh`, `View.Updates.current` : so do they what helps scans that are not strict
- `View.Updates.child` : names that updates add are right
- `View.Updates.holds_or_replaced` : why records go
- `View.Updates.untended` : names that scans pass over stay as they are if their records do

## Design notes

The present objects are those with a name and those with an open handle. Records of other objects may
be replaced at any time, since the number of such an object may be used again. In the replacement the
old record goes and the new one comes in one update; what `View.Updates.missed` says of names bound to
replaced records depends on it.
-/

namespace TreeWatch

namespace Disk

/-! ### Tokens -/

variable {d : Disk} {s s' : Serial}

theorem capacity_eq : Nat.pow 256 8 = capacity := by decide

/-- Tokens tell objects apart. -/
theorem eq_of_tokenOf_eq (hs : s < capacity) (hs' : s' < capacity) (h : tokenOf s = tokenOf s') :
    s = s' := by
  have hbytes : Bytes.littleEndian 8 s = Bytes.littleEndian 8 s' := congrArg IdentityToken.bytes h
  have hnat := congrArg Bytes.ofLittleEndian hbytes
  rw [Bytes.ofLittleEndian_littleEndian, Bytes.ofLittleEndian_littleEndian, capacity_eq,
    Nat.mod_eq_of_lt hs, Nat.mod_eq_of_lt hs'] at hnat
  exact hnat

theorem serialIn?_tokenOf (hs : s < capacity) : serialIn? (tokenOf s) = some s := by
  have hlength : (tokenOf s).bytes.length = 8 := Bytes.length_littleEndian 8 s
  rw [serialIn?, if_pos hlength]
  change some (Bytes.ofLittleEndian (Bytes.littleEndian 8 s)) = some s
  rw [Bytes.ofLittleEndian_littleEndian, capacity_eq, Nat.mod_eq_of_lt hs]

theorem Owing.lt_capacity {owed : List Serial} {n : Node} (h : d.Owing owed)
    (hn : d.node? s = some n) : s < capacity := by
  have hinside : s < d.nodes.length := (List.getElem?_eq_some_iff.1 hn).1
  exact Nat.lt_trans hinside h.fits

theorem inoAt_eq {n : Node} (hn : d.node? s = some n) : d.inoAt s = n.ino := by
  rw [inoAt, hn]

theorem ino_of_attributes {a : Attributes} (ha : d.attributes s = .ok a) : a.ino = d.inoAt s := by
  unfold attributes at ha
  cases hn : d.node? s with
  | none =>
    rw [hn] at ha
    cases ha
  | some n =>
    rw [hn] at ha
    cases ha
    exact (inoAt_eq hn).symm

/-- The token of the object has more bytes than tokens may have. -/
def Oversized (d : Disk) (s : Serial) : Prop := ∃ n, d.node? s = some n ∧ n.oversized = true

/-- A scan passes over the name: its object has a token that is too large, or there is none. -/
def Skips (d : Disk) (s : Serial) (name : Bytes) : Prop :=
  match d.child? s name with
  | some c => d.Oversized c
  | none => ∃ n, d.node? s = some n ∧ ∃ e ∈ n.phantoms, e.name = name

/-- A scan deals with the name: neither the directory nor the name is passed over. -/
def Tends (d : Disk) (s : Serial) (name : Bytes) : Prop :=
  ¬d.Oversized s ∧ (isPseudoName name ∨ ¬d.Skips s name)

theorem tends_of_child? {c : Serial} {name : Bytes} (hs : ¬d.Oversized s)
    (hc : d.child? s name = some c) (hsize : ¬d.Oversized c) : d.Tends s name := by
  refine ⟨hs, .inr ?_⟩
  rw [Skips, hc]
  exact hsize

/-- Inode numbers tell the present objects apart. Objects with a name are present. -/
structure Distinguishes (d : Disk) (present : Serial → Prop) : Prop where
  regular : d.Regular
  exists_node : ∀ {s}, present s → ∃ n, d.node? s = some n
  of_named : ∀ {s}, d.Named s → present s
  eq_of_ino_eq : ∀ {s s'}, present s → present s' → d.inoAt s = d.inoAt s' → s = s'

end Disk

namespace View

/-- The record is for the object: it has its token, its inode number and its mode. -/
def Holds (v : View) (d : Disk) (i : InodeId) (s : Serial) : Prop :=
  ∃ a n, v.identity i = some (a, Disk.tokenOf s) ∧ d.node? s = some n ∧ a.ino = n.ino ∧
    a.mode = n.mode

/-- Every record is for some object. -/
def Truthful (v : View) (d : Disk) : Prop :=
  ∀ i x, v.identity i = some x → ∃ s, v.Holds d i s

/-- The name leads the same way in the record and in the object. -/
def Agrees (v : View) (d : Disk) (i : InodeId) (s : Serial) (name : Bytes) : Prop :=
  Option.Rel (v.Holds d) (v.child i name) (d.child? s name)

/-- The identifier belongs to no record, and no name mentions it. -/
structure Unused (v : View) (i : InodeId) : Prop where
  identity : v.identity i = none
  out : ∀ name, v.child i name = none
  into : ∀ p name, v.child p name ≠ some i

/-- No record has the inode number of a present object and the token of another. -/
def Fresh (v : View) (d : Disk) (present : Serial → Prop) : Prop :=
  ∀ i o s, v.Holds d i o → present s → d.inoAt o = d.inoAt s → o = s

/-- The record has the attributes of the object, also its fingerprint. -/
def Current (v : View) (d : Disk) (i : InodeId) (s : Serial) : Prop :=
  ∃ a, d.attributes s = .ok a ∧ v.identity i = some (a, Disk.tokenOf s)

variable {d : Disk} {present : Serial → Prop} {v v' : View}

theorem Holds.lt_capacity (hd : d.Regular) {i : InodeId} {s : Serial} (h : v.Holds d i s) :
    s < Disk.capacity := by
  obtain ⟨-, n, -, hn, -⟩ := h
  exact hd.lt_capacity hn

/-- A record is for one object only. -/
theorem Holds.serial_eq (hd : d.Regular) {i : InodeId} {s s' : Serial} (h : v.Holds d i s)
    (h' : v.Holds d i s') : s = s' := by
  have hs := h.lt_capacity hd
  have hs' := h'.lt_capacity hd
  obtain ⟨a, n, ha, -⟩ := h
  obtain ⟨a', n', ha', -⟩ := h'
  rw [ha] at ha'
  exact Disk.eq_of_tokenOf_eq hs hs' (congrArg Prod.snd (Option.some.inj ha'))

/-- A record of an object that is gone is none of a present object. -/
theorem Holds.ne_of_not_present (hd : d.Regular) {i x : InodeId} {s o : Serial} (h : v.Holds d i s)
    (hs : present s) (hx : v.Holds d x o) (ho : ¬present o) : i ≠ x := by
  rintro rfl
  rw [h.serial_eq hd hx] at hs
  exact ho hs

/-- The inode number of a record is that of its object. -/
theorem Holds.ino_eq {i : InodeId} {s : Serial} (h : v.Holds d i s) {x : Attributes × IdentityToken}
    (hx : v.identity i = some x) : x.1.ino = d.inoAt s := by
  obtain ⟨a, n, ha, hn, hino, -⟩ := h
  rw [ha] at hx
  cases hx
  rw [Disk.inoAt_eq hn]
  exact hino

theorem Holds.live {i : InodeId} {s : Serial} (h : v.Holds d i s) : v.identity i ≠ none := by
  obtain ⟨a, n, ha, -⟩ := h
  rw [ha]
  exact Option.some_ne_none _

theorem Current.holds {i : InodeId} {s : Serial} (h : v.Current d i s) : v.Holds d i s := by
  obtain ⟨a, ha, hi⟩ := h
  unfold Disk.attributes at ha
  cases hn : d.node? s with
  | none =>
    rw [hn] at ha
    cases ha
  | some n =>
    rw [hn] at ha
    cases ha
    exact ⟨_, n, hi, hn, rfl, rfl⟩

theorem agrees_of_none {i : InodeId} {s : Serial} {name : Bytes} (hdisk : d.child? s name = none) :
    v.Agrees d i s name ↔ v.child i name = none := by
  unfold Agrees
  rw [hdisk]
  cases v.child i name <;> simp

theorem agrees_of_some {i : InodeId} {s o : Serial} {name : Bytes}
    (hdisk : d.child? s name = some o) :
    v.Agrees d i s name ↔ ∃ j, v.child i name = some j ∧ v.Holds d j o := by
  unfold Agrees
  rw [hdisk]
  cases v.child i name <;> simp

theorem holds_congr {i : InodeId} {s : Serial} (h : v'.identity i = v.identity i) :
    v'.Holds d i s ↔ v.Holds d i s := by
  rw [Holds, h, Holds]

@[simp] theorem holds_bind {i p c : InodeId} {name : Bytes} {s : Serial} :
    (v.bind p name c).Holds d i s ↔ v.Holds d i s := Iff.rfl

@[simp] theorem holds_unbind {i p : InodeId} {name : Bytes} {s : Serial} :
    (v.unbind p name).Holds d i s ↔ v.Holds d i s := Iff.rfl

/-- Another fingerprint does not make a record one of another object. -/
@[simp] theorem holds_refresh {i j : InodeId} {fingerprint : Fingerprint} {s : Serial} :
    (v.refresh j fingerprint).Holds d i s ↔ v.Holds d i s := by
  unfold Holds
  rw [identity_refresh]
  constructor
  · rintro ⟨a, n, ha, hn, hino, hmode⟩
    obtain ⟨⟨a', token⟩, hold, heq⟩ := Option.map_eq_some_iff.1 ha
    split at heq
    · cases heq
      exact ⟨a', n, hold, hn, hino, hmode⟩
    · cases heq
      exact ⟨a, n, hold, hn, hino, hmode⟩
  · rintro ⟨a, n, ha, hn, hino, hmode⟩
    rw [ha, Option.map_some]
    split
    · exact ⟨_, n, rfl, hn, hino, hmode⟩
    · exact ⟨a, n, rfl, hn, hino, hmode⟩

theorem current_insert {i : InodeId} {s : Serial} {a : Attributes} (ha : d.attributes s = .ok a) :
    (v.insert i a (Disk.tokenOf s)).Current d i s :=
  ⟨a, ha, by rw [identity_insert, if_pos rfl]⟩

/-- What a new record leaves alone. -/
theorem holds_insert_of_live {i j : InodeId} {s o : Serial} {a : Attributes} (hunused : v.Unused j)
    (h : v.Holds d i o) : (v.insert j a (Disk.tokenOf s)).Holds d i o := by
  refine (holds_congr ?_).2 h
  rw [identity_insert, if_neg]
  rintro rfl
  exact h.live hunused.identity

theorem holds_destroy {i x : InodeId} {o : Serial} :
    (v.destroy x).Holds d i o ↔ i ≠ x ∧ v.Holds d i o := by
  unfold Holds
  rw [identity_destroy]
  by_cases h : i = x <;> simp [h]

/-- All records after a new one has come. -/
theorem holds_of_insert (hd : d.Regular) {i j : InodeId} {s o : Serial} {a : Attributes}
    (ha : d.attributes s = .ok a) (h : (v.insert j a (Disk.tokenOf s)).Holds d i o) :
    (i = j ∧ o = s) ∨ (i ≠ j ∧ v.Holds d i o) := by
  by_cases hij : i = j
  · subst hij
    exact .inl ⟨rfl, h.serial_eq hd (current_insert ha).holds⟩
  · refine .inr ⟨hij, (holds_congr ?_).1 h⟩
    rw [identity_insert, if_neg hij]

/-- A name bound to the record of its object leads there. -/
theorem agrees_bind {p c : InodeId} {s o : Serial} {name : Bytes} (ho : d.child? s name = some o)
    (hc : v.Holds d c o) : (v.bind p name c).Agrees d p s name := by
  rw [agrees_of_some ho]
  refine ⟨c, ?_, hc⟩
  rw [child_bind, if_pos ⟨rfl, rfl⟩]

/-! ### Updates -/

/-- A change of what a tree shows that is justified by the disk. -/
inductive Update (d : Disk) (present : Serial → Prop) : View → View → Prop
  /-- A present object gets a record, its inode number being unknown. -/
  | insert {v : View} {i : InodeId} {s : Serial} {a : Attributes} :
    v.Unused i → present s → d.attributes s = .ok a →
      (∀ j x, v.identity j = some x → x.1.ino ≠ a.ino) →
      Update d present v (v.insert i a (Disk.tokenOf s))
  /-- The record of an object that is not present goes, and the present object that has its inode
  number now gets one. -/
  | replace {v : View} {x i : InodeId} {o s : Serial} {a : Attributes} :
    v.Holds d x o → ¬present o → d.inoAt o = a.ino → (v.destroy x).Unused i → present s →
      d.attributes s = .ok a → Update d present v ((v.destroy x).insert i a (Disk.tokenOf s))
  /-- A record gets the fingerprint of its object. -/
  | refresh {v : View} {i : InodeId} {s : Serial} {a : Attributes} :
    v.Holds d i s → d.attributes s = .ok a → Update d present v (v.refresh i a.fingerprint)
  /-- A name comes to lead where it leads on the disk. -/
  | bind {v : View} {p c : InodeId} {name : Bytes} {s o : Serial} :
    v.Holds d p s → present s → d.Tends s name → d.child? s name = some o → v.Holds d c o →
      Update d present v (v.bind p name c)
  /-- A name that is wrong goes. If there is such a name on the disk, its object has a record. -/
  | unbind {v : View} {p : InodeId} {name : Bytes} {s : Serial} :
    v.Holds d p s → present s → d.Tends s name →
      (∀ o, d.child? s name = some o →
        (∃ k, v.Holds d k o) ∧ ∀ j, v.child p name = some j → ¬v.Holds d j o) →
      Update d present v (v.unbind p name)
  /-- The record of the root of the disk becomes the root of the tree. -/
  | root {v : View} {i : InodeId} :
    v.Holds d i Disk.rootSerial → Update d present v { v with root := some i }

/-- Any number of updates. -/
abbrev Updates (d : Disk) (present : Serial → Prop) : View → View → Prop :=
  Relation.ReflTransGen (Update d present)

/-- What each update keeps, all of them keep. -/
theorem Updates.keep {P : View → Prop}
    (hstep : ∀ {v v'}, Update d present v v' → P v → P v') (h : Updates d present v v') (hv : P v) :
    P v' := by
  induction h with
  | refl => exact hv
  | tail _ hlast ih => exact hstep hlast ih

/-! ### Records of present objects stay -/

theorem Update.holds (hd : d.Regular) (h : Update d present v v') {i : InodeId} {s : Serial}
    (hs : present s) (hi : v.Holds d i s) : v'.Holds d i s := by
  cases h with
  | insert hunused _ _ _ => exact holds_insert_of_live hunused hi
  | @replace x _ o _ _ hx ho _ hunused _ _ =>
    have hne : i ≠ x := hi.ne_of_not_present hd hs hx ho
    exact holds_insert_of_live hunused (holds_destroy.2 ⟨hne, hi⟩)
  | refresh _ _ => exact holds_refresh.2 hi
  | bind _ _ _ _ _ => exact hi
  | unbind _ _ _ _ => exact hi
  | root _ => exact hi

/-- A record of a present object stays its record. -/
theorem Updates.holds (hd : d.Regular) (h : Updates d present v v') {i : InodeId} {s : Serial}
    (hs : present s) (hi : v.Holds d i s) : v'.Holds d i s :=
  Updates.keep (P := fun v => v.Holds d i s) (fun hstep => hstep.holds hd hs) h hi

/-- Every record stays one of some object. -/
theorem Update.truthful (h : Update d present v v') (hv : v.Truthful d) : v'.Truthful d := by
  have hinsert : ∀ {v : View} {i s a}, v.Truthful d → d.attributes s = .ok a →
      (v.insert i a (Disk.tokenOf s)).Truthful d := by
    intro v i s a hv ha j x hj
    by_cases hij : j = i
    · subst hij
      exact ⟨s, (current_insert ha).holds⟩
    · have hold : (v.insert i a (Disk.tokenOf s)).identity j = v.identity j := by
        rw [identity_insert, if_neg hij]
      obtain ⟨o, ho⟩ := hv j x (hold ▸ hj)
      exact ⟨o, (holds_congr hold).2 ho⟩
  cases h with
  | insert _ _ ha _ => exact hinsert hv ha
  | @replace x _ _ _ _ _ _ _ _ _ ha =>
    refine hinsert (fun j y hj => ?_) ha
    rw [identity_destroy] at hj
    split at hj
    · cases hj
    · next hne =>
      obtain ⟨o, ho⟩ := hv j y hj
      exact ⟨o, holds_destroy.2 ⟨hne, ho⟩⟩
  | refresh _ _ =>
    intro j y hj
    rw [identity_refresh] at hj
    obtain ⟨y', hold, -⟩ := Option.map_eq_some_iff.1 hj
    obtain ⟨o, ho⟩ := hv j y' hold
    exact ⟨o, holds_refresh.2 ho⟩
  | bind _ _ _ _ _ => exact hv
  | unbind _ _ _ _ => exact hv
  | root _ => exact hv

theorem Updates.truthful (h : Updates d present v v') (hv : v.Truthful d) : v'.Truthful d :=
  Updates.keep (P := fun v => v.Truthful d) (fun hstep => hstep.truthful) h hv

/-- Records that updates bring in are of present objects. -/
theorem Update.holds_back (hd : d.Regular) (h : Update d present v v') {i : InodeId} {o : Serial}
    (hi : v'.Holds d i o) : v.Holds d i o ∨ present o := by
  cases h with
  | insert _ hs ha _ =>
    rcases holds_of_insert hd ha hi with ⟨-, rfl⟩ | ⟨-, hold⟩
    · exact .inr hs
    · exact .inl hold
  | replace _ _ _ _ hs ha =>
    rcases holds_of_insert hd ha hi with ⟨-, rfl⟩ | ⟨-, hold⟩
    · exact .inr hs
    · exact .inl (holds_destroy.1 hold).2
  | refresh _ _ => exact .inl (holds_refresh.1 hi)
  | bind _ _ _ _ _ => exact .inl hi
  | unbind _ _ _ _ => exact .inl hi
  | root _ => exact .inl hi

/-! ### Right names stay right -/

theorem Update.agrees (hd : d.Distinguishes present) (h : Update d present v v') {i : InodeId}
    {s : Serial} {name : Bytes} (hs : present s) (hi : v.Holds d i s)
    (hname : v.Agrees d i s name) : v'.Agrees d i s name := by
  -- a name that is not touched goes on to agree, since the record it leads to stays
  have hsame : v'.child i name = v.child i name → v'.Agrees d i s name := by
    intro hchild
    cases hdisk : d.child? s name with
    | none =>
      rw [agrees_of_none hdisk] at hname ⊢
      rw [hchild, hname]
    | some o =>
      rw [agrees_of_some hdisk] at hname ⊢
      obtain ⟨j, hj, hjo⟩ := hname
      exact ⟨j, hchild.trans hj, h.holds hd.regular (hd.of_named (.inr ⟨s, name, hdisk⟩)) hjo⟩
  cases h with
  | insert _ _ _ _ => exact hsame rfl
  | @replace x _ o _ _ hx ho _ _ _ _ =>
    refine hsame ?_
    have hne : i ≠ x := hi.ne_of_not_present hd.regular hs hx ho
    rw [child_insert, child_destroy, if_neg hne]
    cases hchild : v.child i name with
    | none => rfl
    | some j =>
      -- if it led to the record that goes, it would lead to an object with a name
      have hjx : j ≠ x := by
        rintro rfl
        cases hdisk : d.child? s name with
        | none =>
          rw [agrees_of_none hdisk, hchild] at hname
          cases hname
        | some o' =>
          obtain ⟨j', hj', hjo⟩ := (agrees_of_some hdisk).1 hname
          rw [hchild] at hj'
          cases hj'
          rw [hx.serial_eq hd.regular hjo] at ho
          exact ho (hd.of_named (.inr ⟨s, name, hdisk⟩))
      simp [hjx]
  | refresh _ _ => exact hsame rfl
  | @bind p c name' s' o hp _ _ ho hc =>
    by_cases hplace : i = p ∧ name = name'
    · obtain ⟨rfl, rfl⟩ := hplace
      obtain rfl := hi.serial_eq hd.regular hp
      exact agrees_bind ho hc
    · exact hsame (by rw [child_bind, if_neg hplace])
  | @unbind p name' s' hp _ _ hwrong =>
    by_cases hplace : i = p ∧ name = name'
    · obtain ⟨rfl, rfl⟩ := hplace
      obtain rfl := hi.serial_eq hd.regular hp
      cases hdisk : d.child? s name with
      | none => exact (agrees_of_none hdisk).2 (by rw [child_unbind, if_pos ⟨rfl, rfl⟩])
      | some o =>
        obtain ⟨j, hj, hjo⟩ := (agrees_of_some hdisk).1 hname
        exact absurd hjo ((hwrong o hdisk).2 j hj)
    · exact hsame (by rw [child_unbind, if_neg hplace])
  | root _ => exact hsame rfl

/-- A name that leads the same way in a record and in its object goes on to do so. -/
theorem Updates.agrees (hd : d.Distinguishes present) (h : Updates d present v v') {i : InodeId}
    {s : Serial} {name : Bytes} (hs : present s) (hi : v.Holds d i s)
    (hname : v.Agrees d i s name) : v'.Agrees d i s name :=
  (Updates.keep (P := fun v => v.Holds d i s ∧ v.Agrees d i s name)
    (fun hstep hv => ⟨hstep.holds hd.regular hs hv.1, hstep.agrees hd hs hv.1 hv.2⟩)
    h ⟨hi, hname⟩).2

/-! ### Names that updates bring in are right -/

/-- A name after an update was there before, or it is right. -/
theorem Update.child (hd : d.Regular) (h : Update d present v v') {p c : InodeId} {name : Bytes}
    (hc : v'.child p name = some c) :
    (v.child p name = some c ∧ ∀ i, i = p ∨ i = c → ∀ o, v'.Holds d i o → v.Holds d i o) ∨
      ∃ s o, v'.Holds d p s ∧ present s ∧ d.Tends s name ∧ d.child? s name = some o ∧
        v'.Holds d c o := by
  cases h with
  | @insert j _ _ hunused _ ha _ =>
    refine .inl ⟨hc, fun i hi o ho => ?_⟩
    rcases holds_of_insert hd ha ho with ⟨rfl, -⟩ | ⟨-, hold⟩
    · -- the name neither leads from the new record nor to it
      rcases hi with rfl | rfl
      · rw [child_insert, hunused.out] at hc
        cases hc
      · exact absurd hc (hunused.into p name)
    · exact hold
  | @replace x j _ _ _ _ _ _ hunused _ ha =>
    rw [child_insert] at hc
    have hold : v.child p name = some c := by
      rw [child_destroy] at hc
      split at hc
      · cases hc
      · exact (Option.filter_eq_some_iff.1 hc).1
    refine .inl ⟨hold, fun i hi o ho => ?_⟩
    rcases holds_of_insert hd ha ho with ⟨rfl, -⟩ | ⟨-, hold⟩
    · rcases hi with rfl | rfl
      · rw [hunused.out] at hc
        cases hc
      · exact absurd hc (hunused.into p name)
    · exact (holds_destroy.1 hold).2
  | refresh _ _ => exact .inl ⟨hc, fun i _ o ho => holds_refresh.1 ho⟩
  | @bind p' c' name' s o hp hs htends ho hc' =>
    rw [child_bind] at hc
    split at hc
    · next hplace =>
      obtain ⟨rfl, rfl⟩ := hplace
      cases hc
      exact .inr ⟨s, o, hp, hs, htends, ho, hc'⟩
    · exact .inl ⟨hc, fun i _ o ho => ho⟩
  | unbind _ _ _ _ =>
    rw [child_unbind] at hc
    split at hc
    · cases hc
    · exact .inl ⟨hc, fun i _ o ho => ho⟩
  | root _ => exact .inl ⟨hc, fun i _ o ho => ho⟩

/-- A name after updates was there before, or it is right. -/
theorem Updates.child (hd : d.Distinguishes present) (h : Updates d present v v') {p c : InodeId}
    {name : Bytes} (hc : v'.child p name = some c) :
    (v.child p name = some c ∧ ∀ i, i = p ∨ i = c → ∀ o, v'.Holds d i o → v.Holds d i o) ∨
      ∃ s o, v'.Holds d p s ∧ present s ∧ d.Tends s name ∧ d.child? s name = some o ∧
        v'.Holds d c o := by
  induction h with
  | refl => exact .inl ⟨hc, fun _ _ _ ho => ho⟩
  | tail _ hlast ih =>
    rcases hlast.child hd.regular hc with ⟨hmid, hback⟩ | hright
    · rcases ih hmid with ⟨hold, hback'⟩ | ⟨s, o, hp, hs, htends, ho, hco⟩
      · exact .inl ⟨hold, fun i hi o ho => hback' i hi o (hback i hi o ho)⟩
      · exact .inr ⟨s, o, hlast.holds hd.regular hs hp, hs, htends, ho,
          hlast.holds hd.regular (hd.of_named (.inr ⟨s, name, ho⟩)) hco⟩
    · exact .inr hright

/-- A record after updates was one before, or is of a present object. -/
theorem Updates.holds_back (hd : d.Regular) (h : Updates d present v v') {i : InodeId} {o : Serial}
    (hi : v'.Holds d i o) : v.Holds d i o ∨ present o := by
  induction h with
  | refl => exact .inl hi
  | tail _ hlast ih =>
    rcases hlast.holds_back hd hi with hold | hpresent
    · exact ih hold
    · exact .inr hpresent

/-! ### Numbers, fingerprints and the root -/

/-- As long as no inode number leads to the record of another object, none comes to do so. -/
theorem Updates.fresh (hd : d.Distinguishes present) (h : Updates d present v v')
    (hv : v.Fresh d present) : v'.Fresh d present := by
  intro i o s ho hs hino
  rcases Updates.holds_back hd.regular h ho with hold | hpresent
  · exact hv i o s hold hs hino
  · exact hd.eq_of_ino_eq hpresent hs hino

/-- A record goes only if a present object with its inode number gets one. -/
theorem Updates.holds_or_replaced (hd : d.Regular) (h : Updates d present v v') {i : InodeId}
    {o : Serial} (hi : v.Holds d i o) :
    v'.Holds d i o ∨ ∃ s j, present s ∧ v'.Holds d j s ∧ d.inoAt s = d.inoAt o := by
  induction h with
  | refl => exact .inl hi
  | tail _ hlast ih =>
    rcases ih with hold | ⟨s, j, hs, hj, hino⟩
    · cases hlast with
      | insert hunused _ _ _ => exact .inl (holds_insert_of_live hunused hold)
      | @replace x j o' s _ hx ho hino hunused hs ha =>
        by_cases hix : i = x
        · subst hix
          obtain rfl := hold.serial_eq hd hx
          refine .inr ⟨s, j, hs, (current_insert ha).holds, ?_⟩
          rw [hino, Disk.ino_of_attributes ha]
        · exact .inl (holds_insert_of_live hunused (holds_destroy.2 ⟨hix, hold⟩))
      | refresh _ _ => exact .inl (holds_refresh.2 hold)
      | bind _ _ _ _ _ => exact .inl hold
      | unbind _ _ _ _ => exact .inl hold
      | root _ => exact .inl hold
    · exact .inr ⟨s, j, hs, hlast.holds hd hs hj, hino⟩

/-- A name that scans do not deal with stays as it is if both records do. -/
theorem Update.untended (hd : d.Regular) (h : Update d present v v') {p c : InodeId} {s o : Serial}
    {name : Bytes} (hname : ¬(present s ∧ d.Tends s name)) (hp : v.Holds d p s) (hc : v.Holds d c o)
    (hp' : v'.Holds d p s) (hc' : v'.Holds d c o) (hchild : v.child p name = some c) :
    v'.child p name = some c := by
  cases h with
  | insert _ _ _ _ => exact hchild
  | @replace x i o' s' a hx ho _ _ hs ha =>
    -- the record that goes is none of the two
    have hne : ∀ {j u}, v.Holds d j u →
        ((v.destroy x).insert i a (Disk.tokenOf s')).Holds d j u → j ≠ x := by
      rintro j u hold hnew rfl
      obtain rfl := hold.serial_eq hd hx
      rcases holds_of_insert hd ha hnew with ⟨-, rfl⟩ | ⟨-, hkept⟩
      · exact ho hs
      · exact (holds_destroy.1 hkept).1 rfl
    rw [child_insert, child_destroy, if_neg (hne hp hp'), hchild]
    simp [hne hc hc']
  | refresh _ _ => exact hchild
  | @bind p' c' name' s' o' hs' hs htends _ _ =>
    rw [child_bind, if_neg, hchild]
    rintro ⟨rfl, rfl⟩
    exact hname (hp.serial_eq hd hs' ▸ ⟨hs, htends⟩)
  | @unbind p' name' s' hs' hs htends _ =>
    rw [child_unbind, if_neg, hchild]
    rintro ⟨rfl, rfl⟩
    exact hname (hp.serial_eq hd hs' ▸ ⟨hs, htends⟩)
  | root _ => exact hchild

theorem Updates.untended (hd : d.Regular) (h : Updates d present v v') {p c : InodeId} {s o : Serial}
    {name : Bytes} (hname : ¬(present s ∧ d.Tends s name)) (hp : v.Holds d p s) (hc : v.Holds d c o)
    (hp' : v'.Holds d p s) (hc' : v'.Holds d c o) (hchild : v.child p name = some c) :
    v'.child p name = some c := by
  induction h with
  | refl => exact hchild
  | @tail mid last hfirst hlast ih =>
    -- what is a record of an object first and last is so all the time
    have hmid : ∀ {i x}, v.Holds d i x → last.Holds d i x → mid.Holds d i x := fun hi hi' =>
      (hlast.holds_back hd hi').elim id fun hx => Updates.holds hd hfirst hx hi
    exact hlast.untended hd hname (hmid hp hp') (hmid hc hc') hp' hc' (ih (hmid hp hp') (hmid hc hc'))

theorem Update.current (hd : d.Regular) (h : Update d present v v') {i : InodeId} {s : Serial}
    (hs : present s) (hi : v.Current d i s) : v'.Current d i s := by
  obtain ⟨a, ha, hidentity⟩ := id hi
  have hlive : v.identity i ≠ none := hi.holds.live
  cases h with
  | @insert j _ _ hunused _ _ _ =>
    refine ⟨a, ha, ?_⟩
    rw [identity_insert, if_neg, hidentity]
    rintro rfl
    exact hlive hunused.identity
  | @replace x j o _ _ hx ho _ hunused _ _ =>
    have hne : i ≠ x := hi.holds.ne_of_not_present hd hs hx ho
    have hkept : (v.destroy x).identity i = some (a, Disk.tokenOf s) := by
      rw [identity_destroy, if_neg hne, hidentity]
    refine ⟨a, ha, ?_⟩
    rw [identity_insert, if_neg, hkept]
    rintro rfl
    rw [hunused.identity] at hkept
    cases hkept
  | @refresh j s' a' hj ha' =>
    refine ⟨a, ha, ?_⟩
    rw [identity_refresh, hidentity, Option.map_some]
    split
    · next hij =>
      -- it is refreshed with what it says already
      subst hij
      rw [← hi.holds.serial_eq hd hj, ha] at ha'
      cases ha'
      rfl
    · rfl
  | bind _ _ _ _ _ => exact hi
  | unbind _ _ _ _ => exact hi
  | root _ => exact hi

/-- Attributes that are those of the object stay so. -/
theorem Updates.current (hd : d.Regular) (h : Updates d present v v') {i : InodeId} {s : Serial}
    (hs : present s) (hi : v.Current d i s) : v'.Current d i s :=
  Updates.keep (P := fun v => v.Current d i s) (fun hstep => hstep.current hd hs) h hi

/-- The root of the tree is the record of the root of the disk. -/
def Rooted (v : View) (d : Disk) : Prop :=
  ∃ r, v.root = some r ∧ v.Holds d r Disk.rootSerial

theorem Update.rooted (hd : d.Distinguishes present) (h : Update d present v v')
    (hv : v.Rooted d) : v'.Rooted d := by
  obtain ⟨r, hroot, hr⟩ := hv
  have hpresent : present Disk.rootSerial := hd.of_named (.inl rfl)
  have hr' := h.holds hd.regular hpresent hr
  cases h with
  | insert _ _ _ _ => exact ⟨r, hroot, hr'⟩
  | @replace x _ o _ _ hx ho _ _ _ _ =>
    refine ⟨r, ?_, hr'⟩
    have hne : r ≠ x := hr.ne_of_not_present hd.regular hpresent hx ho
    rw [root_insert, root_destroy, if_neg, hroot]
    rw [hroot]
    exact fun heq => hne (Option.some.inj heq)
  | refresh _ _ => exact ⟨r, hroot, hr'⟩
  | bind _ _ _ _ _ => exact ⟨r, hroot, hr'⟩
  | unbind _ _ _ _ => exact ⟨r, hroot, hr'⟩
  | root hi => exact ⟨_, rfl, hi⟩

theorem Updates.rooted (hd : d.Distinguishes present) (h : Updates d present v v')
    (hv : v.Rooted d) : v'.Rooted d :=
  Updates.keep (P := fun v => v.Rooted d) (fun hstep => hstep.rooted hd) h hv

end View

end TreeWatch

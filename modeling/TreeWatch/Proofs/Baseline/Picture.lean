import TreeWatch.Proofs.Baseline.Tour
import TreeWatch.Proofs.Mirror.Isomorphism

/-!
# Trees that depict a part of a tour

While a mount is scanned for the first time, the tree has exactly the names that have been seen so far.
This module says what such a tree looks like and what becomes of it when a record is put in or a name is
bound. Paths to records in it are those on the disk.

## Main definitions

- `Tree.Depicts` : the tree has records of the given objects and the names on the given tour
- `Tree.Room` : how many more records and entries have slot numbers

## Main results

- `Tree.Depicts.insertRecord`, `Tree.Depicts.withEntry` : pictures grow
- `Tree.Depicts.resolvePath_eq` : the path of a directory is made of the names that lead there
-/

namespace TreeWatch

open Disk (Sighting)

theorem SortedMap.size_insert {κ α : Type} [Ord κ] [Std.TransOrd κ] [Std.LawfulEqOrd κ]
    [DecidableEq κ] {m : SortedMap κ α} {k : κ} (h : m.get? k = none) (a : α) :
    (m.insert k a).size = m.size + 1 := by
  have hplace : ∀ l : List (κ × α), Assoc.get? k l = none →
      (place k a l).length = l.length + 1 := by
    intro l hl
    induction l with
    | nil => rfl
    | cons p rest ih =>
      obtain ⟨k', b⟩ := p
      rw [Assoc.get?_cons] at hl
      rw [place]
      split
      · rfl
      · next heq =>
        rw [if_pos (Std.LawfulEqCmp.eq_of_compare heq).symm] at hl
        cases hl
      · split at hl
        · cases hl
        · rw [List.length_cons, ih hl, List.length_cons]
  exact hplace m.toList h

namespace Arena

variable {α : Type} (a : Arena α) (value : α)

theorem size_slots_insert_le : (a.insert value).2.slots.size ≤ a.slots.size + 1 := by
  unfold insert
  split
  · simp
  · simp

end Arena

namespace Tree

variable {t t' : Tree} {d : Disk} {held : Serial → Prop} {tour : List Sighting} {i j p c : InodeId}
  {s o : Serial} {name : Bytes} {way : List Bytes} {a : Attributes} {token : IdentityToken}

/-! ### Counting -/

/-- How many entries bind a record. -/
def linkCount (t : Tree) (i : InodeId) : Nat := (t.record? i).elim 0 (·.links.size)

theorem linkCount_insertRecord (wf : t.inodes.WellFormed)
    (fits : (t.insertRecord a token).2.Fits) (i : InodeId) :
    (t.insertRecord a token).2.linkCount i = t.linkCount i := by
  rw [linkCount, record?_insertRecord wf fits, linkCount]
  split
  · next hi =>
    rw [hi, record?_fst_insertRecord wf fits]
    rfl
  · rfl

theorem linkCount_refreshFingerprint (t : Tree) (i j : InodeId) (fingerprint : Fingerprint) :
    (t.refreshFingerprint i fingerprint).linkCount j = t.linkCount j := by
  rw [linkCount, refreshFingerprint, record?_modifyRecord, linkCount]
  cases t.record? j with
  | none => rfl
  | some r =>
    rw [Option.map_some]
    split <;> rfl

theorem linkCount_withEntry (h : t.Sound) (fits : (t.withEntry p name c).Fits)
    (hc : t.record? c ≠ none) (i : InodeId) :
    (t.withEntry p name c).linkCount i = t.linkCount i + if i = c then 1 else 0 := by
  have hnew := entryOf?_insert_withEntry h.entries_wellFormed fits
  rw [linkCount, record?_withEntry, linkCount]
  cases hr : t.record? i with
  | none =>
    have hne : i ≠ c := fun heq => hc (heq ▸ hr)
    simp [hne]
  | some r =>
    have hlinks : ∀ r' : InodeRecord, r'.links = r.links →
        (r'.addLink ⟨(t.entries.insert ⟨p, c, name⟩).1⟩).links.size = r.links.size + 1 := by
      intro r' hr'
      -- an entry that has just been made is no link yet
      have hfresh : r.links.contains ⟨(t.entries.insert ⟨p, c, name⟩).1⟩ = false := by
        refine Bool.eq_false_iff.2 fun hcontains => ?_
        obtain ⟨b, hb, -⟩ := (h.link_iff hr _).1 hcontains
        rw [hnew] at hb
        cases hb
      rw [← hr'] at hfresh ⊢
      exact SortedMap.size_insert (Option.not_isSome_iff_eq_none.1 (Bool.eq_false_iff.1 hfresh)) ()
    simp only [Option.map_some, Option.elim_some]
    by_cases hi : i = c
    · rw [if_pos hi, if_pos hi]
      refine hlinks _ ?_
      split <;> rfl
    · rw [if_neg hi, if_neg hi]
      split <;> rfl

@[simp] theorem recordCount_insertRecord (t : Tree) (a : Attributes) (token : IdentityToken) :
    (t.insertRecord a token).2.recordCount = t.recordCount + 1 :=
  Arena.size_insert ..

@[simp] theorem recordCount_refreshFingerprint (t : Tree) (i : InodeId) (fingerprint : Fingerprint) :
    (t.refreshFingerprint i fingerprint).recordCount = t.recordCount :=
  Arena.size_modify ..

@[simp] theorem recordCount_withEntry (t : Tree) (p : InodeId) (name : Bytes) (c : InodeId) :
    (t.withEntry p name c).recordCount = t.recordCount := by
  simp [recordCount, withEntry, modifyRecord]

@[simp] theorem entryCount_withEntry (t : Tree) (p : InodeId) (name : Bytes) (c : InodeId) :
    (t.withEntry p name c).entryCount = t.entryCount + 1 :=
  Arena.size_insert ..

/-- There are slot numbers for so many more records and entries. -/
structure Room (t : Tree) (records entries : Nat) : Prop where
  inodes : t.inodes.slots.size + records ≤ UInt32.size
  entries : t.entries.slots.size + entries ≤ UInt32.size

namespace Room

variable {records entries : Nat}

theorem fits (h : t.Room records entries) : t.Fits :=
  ⟨Nat.le_of_add_right_le h.inodes, Nat.le_of_add_right_le h.entries⟩

theorem mono (h : t.Room records entries) {records' entries' : Nat} (hrecords : records' ≤ records)
    (hentries : entries' ≤ entries) : t.Room records' entries' :=
  ⟨Nat.le_trans (Nat.add_le_add_left hrecords _) h.inodes,
    Nat.le_trans (Nat.add_le_add_left hentries _) h.entries⟩

theorem insertRecord (h : t.Room (records + 1) entries) (a : Attributes) (token : IdentityToken) :
    (t.insertRecord a token).2.Room records entries := by
  refine ⟨?_, h.entries⟩
  have hslots : (t.insertRecord a token).2.inodes.slots.size ≤ t.inodes.slots.size + 1 :=
    Arena.size_slots_insert_le ..
  have hroom := h.inodes
  omega

theorem refreshFingerprint (h : t.Room records entries) (i : InodeId) (fingerprint : Fingerprint) :
    (t.refreshFingerprint i fingerprint).Room records entries := by
  refine ⟨?_, h.entries⟩
  simpa [Tree.refreshFingerprint, modifyRecord] using h.inodes

theorem withEntry (h : t.Room records (entries + 1)) (p : InodeId) (name : Bytes) (c : InodeId) :
    (t.withEntry p name c).Room records entries := by
  constructor
  · simpa [Tree.withEntry, modifyRecord] using h.inodes
  · have hslots : (t.withEntry p name c).entries.slots.size ≤ t.entries.slots.size + 1 :=
      Arena.size_slots_insert_le ..
    have hroom := h.entries
    omega

end Room

theorem inoOf_eq_of_holds (hi : t.view.Holds d i s) : t.inoOf i = d.inoAt s := by
  obtain ⟨r, hr⟩ := exists_record?_of_holds hi
  have hidentity : t.view.identity i = some r.identity := identity?_eq_some_iff.2 ⟨r, hr, rfl⟩
  rw [inoOf, hr]
  exact hi.ino_eq hidentity

/-! ### Pictures -/

/-- The tree has one record of each object in `held`, with all that is to be said of it, and its names are
those on the tour. -/
structure Depicts (t : Tree) (d : Disk) (held : Serial → Prop) (tour : List Sighting) : Prop where
  sound : t.Sound
  truthful : t.view.Truthful d
  held_iff : ∀ s, t.view.Held d s ↔ held s
  current : ∀ {i s}, t.view.Holds d i s → t.view.Current d i s
  sighted : ∀ x ∈ tour, d.Sighted x
  ends : ∀ x ∈ tour, held x.directory ∧ held x.object
  closed : ∀ x ∈ tour, Disk.Seen tour x.directory
  child_iff : ∀ {p s}, t.view.Holds d p s → ∀ name c, t.view.child p name = some c ↔
    ∃ x ∈ tour, x.directory = s ∧ x.name = name ∧ t.view.Holds d c x.object
  linkCount_eq : ∀ {i s}, t.view.Holds d i s → t.linkCount i = tour.countP (·.object = s)
  entryCount_eq : t.entryCount = tour.length
  /-- Ways to directories meet a record with every name and one at the beginning. -/
  short : ∀ {i s way}, t.view.Holds d i s → d.isDirectory s → d.WayTo way s →
    way.length < t.recordCount

theorem depicts_empty (d : Disk) (grace : Nat) :
    ({ grace } : Tree).Depicts d (fun _ => False) [] := by
  have hnone : ∀ {i s}, ¬({ grace } : Tree).view.Holds d i s := fun hi => hi.live rfl
  refine ⟨sound_empty grace, ?_, ?_, ?_, ?_, ?_, ?_, ?_, ?_, rfl, ?_⟩
  · rintro i x ⟨⟩
  · exact fun s => ⟨fun ⟨i, hi⟩ => hnone hi, False.elim⟩
  all_goals first
    | exact fun x hx => absurd hx List.not_mem_nil
    | exact fun hi => absurd hi hnone

namespace Depicts

theorem congr_held {held' : Serial → Prop} (h : t.Depicts d held tour) (hheld : ∀ s, held s ↔ held' s) :
    t.Depicts d held' tour := by
  obtain rfl : held = held' := funext fun s => propext (hheld s)
  exact h

/-- Nothing else of the tree shows in a picture. -/
theorem of_view_eq (h : t.Depicts d held tour) (hsound : t'.Sound)
    (hidentity : t'.view.identity = t.view.identity) (hchild : t'.view.child = t.view.child)
    (hlinks : ∀ i, t'.linkCount i = t.linkCount i) (hcount : t'.recordCount = t.recordCount)
    (hentries : t'.entryCount = t.entryCount) : t'.Depicts d held tour := by
  have hholds : ∀ i s, t'.view.Holds d i s ↔ t.view.Holds d i s :=
    fun i s => View.holds_congr (congrFun hidentity i)
  refine ⟨hsound, fun i x hx => ?_, fun s => ?_, fun hi => ?_, h.sighted, h.ends, h.closed,
    fun hp name c => ?_, fun hi => ?_, hentries.trans h.entryCount_eq, fun hi hs hway => ?_⟩
  · obtain ⟨s, hs⟩ := h.truthful i x (hidentity ▸ hx)
    exact ⟨s, (hholds i s).2 hs⟩
  · rw [← h.held_iff]
    exact exists_congr fun i => hholds i s
  · obtain ⟨a, ha, hidentity'⟩ := h.current ((hholds _ _).1 hi)
    exact ⟨a, ha, hidentity ▸ hidentity'⟩
  · rw [hchild, h.child_iff ((hholds _ _).1 hp)]
    simp only [hholds]
  · rw [hlinks, h.linkCount_eq ((hholds _ _).1 hi)]
  · rw [hcount]
    exact h.short ((hholds _ _).1 hi) hs hway

/-- Exactly the names that have been seen are bound. -/
theorem child_eq_none_iff (h : t.Depicts d held tour) (hp : t.view.Holds d p s) :
    t.view.child p name = none ↔ ∀ x ∈ tour, ¬(x.directory = s ∧ x.name = name) := by
  constructor
  · rintro hfree x hx ⟨hdirectory, hname⟩
    obtain ⟨c, hc⟩ := (h.held_iff x.object).2 (h.ends x hx).2
    rw [(h.child_iff hp name c).2 ⟨x, hx, hdirectory, hname, hc⟩] at hfree
    cases hfree
  · intro hunseen
    refine Option.eq_none_iff_forall_ne_some.2 fun c hc => ?_
    obtain ⟨x, hx, hdirectory, hname, -⟩ := (h.child_iff hp name c).1 hc
    exact hunseen x hx ⟨hdirectory, hname⟩

/-- A record that says what the disk says already is refreshed in vain. -/
theorem refreshFingerprint (h : t.Depicts d held tour) (hi : t.view.Holds d i s)
    (ha : d.attributes s = .ok a) : (t.refreshFingerprint i a.fingerprint).Depicts d held tour := by
  have hview := h.sound.view_refreshFingerprint i a.fingerprint
  refine h.of_view_eq (h.sound.refreshFingerprint i _) ?_ ?_
    (linkCount_refreshFingerprint t i · _) (recordCount_refreshFingerprint ..) rfl
  · obtain ⟨a', ha', hidentity⟩ := h.current hi
    rw [ha] at ha'
    cases ha'
    rw [hview]
    funext j
    rw [View.identity_refresh]
    cases hj : t.view.identity j with
    | none => rfl
    | some x =>
      rw [Option.map_some]
      split
      · next heq =>
        rw [heq, hidentity] at hj
        cases hj
        rfl
      · rfl
  · rw [hview]
    rfl

/-- An object that has none gets a record. -/
theorem insertRecord (hd : d.Regular) (h : t.Depicts d held tour) (ha : d.attributes s = .ok a)
    (hnew : ¬held s) (hino : t.lookupIno a.ino = none)
    (hshort : ∀ way, d.WayTo way s → d.isDirectory s → way.length ≤ t.recordCount)
    (fits : (t.insertRecord a (Disk.tokenOf s)).2.Fits) :
    (t.insertRecord a (Disk.tokenOf s)).2.Depicts d (fun o => held o ∨ o = s) tour ∧
      (t.insertRecord a (Disk.tokenOf s)).2.view.Holds d (t.insertRecord a (Disk.tokenOf s)).1 s ∧
      ∀ i o, t.view.Holds d i o → (t.insertRecord a (Disk.tokenOf s)).2.view.Holds d i o := by
  have hview := h.sound.view_insertRecord hino fits
  have hunused := h.sound.unused_fst_insertRecord fits
  have hsound := h.sound.insertRecord hino fits
  have hlinks := linkCount_insertRecord h.sound.inodes_wellFormed fits
  have hcount := recordCount_insertRecord t a (Disk.tokenOf s)
  have hentries : (t.insertRecord a (Disk.tokenOf s)).2.entryCount = t.entryCount := rfl
  generalize (t.insertRecord a (Disk.tokenOf s)).1 = i at hview hunused ⊢
  generalize (t.insertRecord a (Disk.tokenOf s)).2 = t' at *
  have hcurrent : t'.view.Current d i s := hview ▸ View.current_insert ha
  have hback : ∀ {j o}, t'.view.Holds d j o → (j = i ∧ o = s) ∨ t.view.Holds d j o := by
    intro j o hj
    rw [hview] at hj
    exact (View.holds_of_insert hd ha hj).imp_right And.right
  have hholds : ∀ {j o}, t.view.Holds d j o → t'.view.Holds d j o := by
    intro j o hj
    rw [hview]
    exact View.holds_insert_of_live hunused hj
  have hold : ∀ {j o}, t'.view.Holds d j o → held o → t.view.Holds d j o :=
    fun hj ho => (hback hj).resolve_left fun heq => hnew (heq.2 ▸ ho)
  have hchild : t'.view.child = t.view.child := by rw [hview, View.child_insert]
  refine ⟨⟨hsound, ?_, fun o => ?_, fun {j o} hj => ?_, h.sighted, fun x hx => ?_, h.closed,
    fun {q o} hq name c => ?_, fun {j o} hj => ?_, hentries.trans h.entryCount_eq,
    fun {j o way} hj hdir hway => ?_⟩, hcurrent.holds, fun _ _ => hholds⟩
  · intro j x hx
    by_cases hji : j = i
    · exact ⟨s, hji ▸ hcurrent.holds⟩
    · rw [hview, View.identity_insert, if_neg hji] at hx
      obtain ⟨o, ho⟩ := h.truthful j x hx
      exact ⟨o, hholds ho⟩
  · constructor
    · rintro ⟨j, hj⟩
      exact (hback hj).symm.imp (fun hj => (h.held_iff o).1 ⟨j, hj⟩) And.right
    · rintro (ho | rfl)
      · obtain ⟨j, hj⟩ := (h.held_iff o).2 ho
        exact ⟨j, hholds hj⟩
      · exact ⟨i, hcurrent.holds⟩
  · rcases hback hj with ⟨rfl, rfl⟩ | hj
    · exact hcurrent
    · obtain ⟨b, hb, hidentity⟩ := h.current hj
      refine ⟨b, hb, ?_⟩
      rw [hview, View.identity_insert, if_neg, hidentity]
      rintro rfl
      exact hj.live hunused.identity
  · exact (h.ends x hx).imp .inl .inl
  · rw [hchild]
    rcases hback hq with ⟨rfl, rfl⟩ | hq
    · -- nothing has been seen in an object without a record
      rw [hunused.out]
      refine iff_of_false (by simp) ?_
      rintro ⟨x, hx, rfl, -⟩
      exact hnew (h.ends x hx).1
    · rw [h.child_iff hq]
      refine exists_congr fun x => and_congr_right fun hx => ?_
      exact and_congr_right fun _ => and_congr_right fun _ =>
        ⟨hholds, fun hc => hold hc (h.ends x hx).2⟩
  · rw [hlinks]
    rcases hback hj with ⟨rfl, rfl⟩ | hj
    · have hnone : t.record? j = none := identity?_eq_none_iff.1 hunused.identity
      rw [linkCount, hnone, Option.elim_none, eq_comm, List.countP_eq_zero]
      intro x hx heq
      exact hnew (of_decide_eq_true heq ▸ (h.ends x hx).2)
    · exact h.linkCount_eq hj
  · rw [hcount]
    rcases hback hj with ⟨rfl, rfl⟩ | hj
    · exact Nat.lt_succ_of_le (hshort way hway hdir)
    · exact Nat.lt_succ_of_lt (h.short hj hdir hway)

/-- With a name that is bound, one more has been seen. -/
theorem child_bind_iff (hd : d.Regular) (h : t.Depicts d held tour) (hp : t.view.Holds d p s)
    (hc : t.view.Holds d c o) (hfree : t.view.child p name = none) {q : InodeId} {u : Serial}
    (hq : t.view.Holds d q u) (way : List Bytes) (name' : Bytes) (c' : InodeId) :
    (t.view.bind p name c).child q name' = some c' ↔
      ∃ x ∈ tour ++ [⟨way, s, name, o⟩], x.directory = u ∧ x.name = name' ∧
        t.view.Holds d c' x.object := by
  rw [View.child_bind]
  split
  · next hplace =>
    obtain ⟨rfl, rfl⟩ := hplace
    obtain rfl := hp.serial_eq hd hq
    constructor
    · rintro ⟨⟩
      exact ⟨_, List.mem_append_right _ (List.mem_singleton_self _), rfl, rfl, hc⟩
    · rintro ⟨x, hx, hdirectory, hname, hc'⟩
      rcases List.mem_append.1 hx with hx | hx
      · exact absurd ⟨hdirectory, hname⟩ ((h.child_eq_none_iff hp).1 hfree x hx)
      · obtain rfl := List.mem_singleton.1 hx
        rw [h.sound.eq_of_holds hc hc']
  · next hplace =>
    rw [h.child_iff hq]
    constructor
    · rintro ⟨x, hx, hdirectory, hname, hc'⟩
      exact ⟨x, List.mem_append_left _ hx, hdirectory, hname, hc'⟩
    · rintro ⟨x, hx, hdirectory, hname, hc'⟩
      rcases List.mem_append.1 hx with hx | hx
      · exact ⟨x, hx, hdirectory, hname, hc'⟩
      · obtain rfl := List.mem_singleton.1 hx
        subst hdirectory
        exact absurd ⟨h.sound.eq_of_holds hq hp, hname.symm⟩ hplace

/-- A name that has not been seen is bound to the record of its object. -/
theorem withEntry (hd : d.Regular) (h : t.Depicts d held tour) (hway : d.WayTo way s)
    (hseen : Disk.Seen tour s) (ho : d.child? s name = some o) (hsize : ¬d.Oversized o)
    (hp : t.view.Holds d p s) (hc : t.view.Holds d c o) (hfree : t.view.child p name = none)
    (fits : (t.withEntry p name c).Fits) :
    (t.withEntry p name c).Depicts d held (tour ++ [⟨way, s, name, o⟩]) := by
  obtain ⟨rp, hparent⟩ := exists_record?_of_holds hp
  obtain ⟨rc, hchild⟩ := exists_record?_of_holds hc
  have hdir := (h.sound.isDirectory_iff hd hp hparent).2 (Disk.isDirectory_of_child? ho)
  have hunbound := (h.sound.childEntryOf?_eq_none_iff hparent).2 hfree
  have hview := h.sound.view_withEntry hchild hparent hdir hunbound fits
  have hsound := h.sound.withEntry hchild hparent hdir hunbound fits
  have hlinks := linkCount_withEntry h.sound fits (by rw [hchild]; exact Option.some_ne_none rc)
  have hcount := recordCount_withEntry t p name c
  have hentries := entryCount_withEntry t p name c
  generalize t.withEntry p name c = t' at *
  have hholds : ∀ i s, t'.view.Holds d i s ↔ t.view.Holds d i s := by
    intro i s
    rw [hview, View.holds_bind]
  refine ⟨hsound, ?_, fun s => ?_, fun {i s} hi => ?_, ?_, ?_, ?_, ?_, ?_, ?_, ?_⟩
  · intro i x hx
    rw [hview, View.identity_bind] at hx
    obtain ⟨s, hs⟩ := h.truthful i x hx
    exact ⟨s, (hholds i s).2 hs⟩
  · rw [← h.held_iff]
    exact exists_congr fun i => hholds i s
  · obtain ⟨a, ha, hidentity⟩ := h.current ((hholds i s).1 hi)
    exact ⟨a, ha, by rw [hview, View.identity_bind, hidentity]⟩
  · exact List.forall_mem_append.2 ⟨h.sighted, List.forall_mem_singleton.2 ⟨hway, ho, hsize⟩⟩
  · exact List.forall_mem_append.2 ⟨h.ends, List.forall_mem_singleton.2
      ⟨(h.held_iff s).1 ⟨p, hp⟩, (h.held_iff o).1 ⟨c, hc⟩⟩⟩
  · exact List.forall_mem_append.2 ⟨fun x hx => (h.closed x hx).append _,
      List.forall_mem_singleton.2 (hseen.append _)⟩
  · intro q u hq name' c'
    simp only [hview, View.holds_bind]
    exact h.child_bind_iff hd hp hc hfree ((hholds q u).1 hq) way name' c'
  · intro i u hi
    have hi' := (hholds i u).1 hi
    have hsame : i = c ↔ o = u :=
      ⟨fun heq => hc.serial_eq hd (heq ▸ hi'), fun heq => h.sound.eq_of_holds hi' (heq ▸ hc)⟩
    rw [hlinks, h.linkCount_eq hi', List.countP_append, List.countP_singleton]
    simp only [hsame, decide_eq_true_eq]
  · rw [hentries, h.entryCount_eq, List.length_append, List.length_singleton]
  · intro i u way' hi hdirectory hway'
    rw [hcount]
    exact h.short ((hholds i u).1 hi) hdirectory hway'

/-! ### Paths -/

/-- The record of a directory that has been seen has one link. -/
theorem firstLink?_eq (hd : d.Regular) (hsingle : d.SingleNamed) (h : t.Depicts d held tour)
    {x : Sighting} (hx : x ∈ tour) (hdir : d.isDirectory x.object)
    (hp : t.view.Holds d p x.directory) (hi : t.view.Holds d i x.object) :
    t.firstLink? i = some ⟨p, i, x.name⟩ := by
  obtain ⟨r, hr⟩ := exists_record?_of_holds hi
  -- every entry that binds the record binds the only name of the directory
  have honly : ∀ e b, t.entryOf? e = some b → b.child = i → b = ⟨p, i, x.name⟩ := by
    rintro e ⟨q, j, name⟩ hb rfl
    have hbound : t.child? q name = some j := h.sound.child?_eq_some_iff.2 ⟨e, hb⟩
    obtain ⟨⟨r', hr', -⟩, -⟩ := h.sound.live_of_child? hbound
    obtain ⟨u, hu⟩ := h.truthful q r'.identity (identity?_eq_some_iff.2 ⟨r', hr', rfl⟩)
    obtain ⟨y, hy, rfl, rfl, hj⟩ := (h.child_iff hu name j).1 hbound
    have hobject := hj.serial_eq hd hi
    have hchild := (h.sighted y hy).child
    rw [hobject] at hchild
    obtain ⟨hsame, hname⟩ := hsingle.binding_eq hd hchild (h.sighted x hx).child hdir
    rw [hsame] at hu
    rw [h.sound.eq_of_holds hu hp, hname]
  obtain ⟨e, he⟩ := h.sound.child?_eq_some_iff.1 ((h.child_iff hp x.name i).2 ⟨x, hx, rfl, rfl, hi⟩)
  have hlink : e ∈ r.links.elements :=
    (SortedSet.mem_elements _ e).2 ((h.sound.link_iff hr e).2 ⟨_, he, rfl⟩)
  obtain ⟨first, hfirst⟩ : ∃ first, r.links.first? = some first := by
    rw [SortedSet.first?]
    cases helements : r.links.elements with
    | nil =>
      rw [helements] at hlink
      cases hlink
    | cons first rest => exact ⟨first, rfl⟩
  obtain ⟨b, hb, hchild⟩ := (h.sound.link_iff hr first).1
    ((SortedSet.mem_elements _ first).1 (List.mem_of_head? hfirst))
  rw [firstLink?, hr, Option.bind_some, hfirst, Option.bind_some, hb, honly first b hb hchild]

/-- Nothing binds the root. -/
theorem firstLink?_root (hd : d.Regular) (hsingle : d.SingleNamed) (h : t.Depicts d held tour)
    (hi : t.view.Holds d i Disk.rootSerial) : t.firstLink? i = none := by
  obtain ⟨r, hr⟩ := exists_record?_of_holds hi
  have hcount := h.linkCount_eq hi
  have hzero : tour.countP (·.object = Disk.rootSerial) = 0 := by
    refine List.countP_eq_zero.2 fun x hx heq => ?_
    have hchild := (h.sighted x hx).child
    rw [of_decide_eq_true heq] at hchild
    exact hsingle.root_unnamed hd _ _ hchild
  rw [hzero, linkCount, hr, Option.elim_some] at hcount
  have hnone : r.links.first? = none := by
    rw [SortedSet.first?, SortedSet.elements, SortedMap.keys, List.eq_nil_of_length_eq_zero hcount]
    rfl
  rw [firstLink?, hr, Option.bind_some, hnone, Option.bind_none]

/-- On the way up from the record of a directory are the names of the way down to it. -/
theorem namesUp_eq (hd : d.Regular) (hsingle : d.SingleNamed) (h : t.Depicts d held tour)
    (hway : d.WayTo way s) (hdir : d.isDirectory s) (hseen : Disk.Seen tour s)
    (hi : t.view.Holds d i s) {steps : Nat} (hsteps : way.length < steps) :
    t.namesUp i steps = way.reverse := by
  induction hway generalizing i steps with
  | root =>
    obtain ⟨steps, rfl⟩ : ∃ k, steps = k + 1 := ⟨steps - 1, by omega⟩
    rw [namesUp, h.firstLink?_root hd hsingle hi]
    rfl
  | @name way s c name hs hc _ ih =>
    rw [List.length_append, List.length_singleton] at hsteps
    obtain ⟨steps, rfl⟩ : ∃ k, steps = k + 1 := ⟨steps - 1, by omega⟩
    rcases hseen with rfl | ⟨x, hx, rfl⟩
    · exact absurd hc (hsingle.root_unnamed hd s name)
    obtain ⟨rfl, rfl⟩ := hsingle.binding_eq hd (h.sighted x hx).child hc hdir
    obtain ⟨p, hp⟩ := (h.held_iff x.directory).2 (h.ends x hx).1
    have hfewer : way.length < steps := Nat.lt_of_succ_lt_succ hsteps
    have hrest := ih (Disk.isDirectory_of_child? hc) (h.closed x hx) hp hfewer
    rw [namesUp, h.firstLink?_eq hd hsingle hx hdir hp hi]
    simp only [hrest, List.reverse_append, List.reverse_singleton, List.singleton_append]

/-- The path to the record of a directory is that to the directory. -/
theorem resolvePath_eq (hd : d.Regular) (hsingle : d.SingleNamed) (h : t.Depicts d held tour)
    (hway : d.WayTo way s) (hdir : d.isDirectory s) (hseen : Disk.Seen tour s)
    (hi : t.view.Holds d i s) : t.resolvePath i = way.foldl Path.join Path.root := by
  have hshort := h.short hi hdir hway
  rw [resolvePath, h.namesUp_eq hd hsingle hway hdir hseen hi (Nat.lt_succ_of_lt hshort),
    List.reverse_reverse]

/-- The name that is bound is reported as it is on the disk. -/
theorem addEntry_eq (hd : d.Regular) (hsingle : d.SingleNamed) (h : t.Depicts d held tour)
    (hway : d.WayTo way s) (hseen : Disk.Seen tour s) (ho : d.child? s name = some o)
    (hsize : ¬d.Oversized o) (hp : t.view.Holds d p s) (hc : t.view.Holds d c o)
    (hfree : t.view.child p name = none) (fits : (t.withEntry p name c).Fits) :
    ∃ e, t.addEntry p name c =
      .ok (e, t.withEntry p name c, d.observe ⟨way, s, name, o⟩) := by
  obtain ⟨rp, hparent⟩ := exists_record?_of_holds hp
  obtain ⟨rc, hchild⟩ := exists_record?_of_holds hc
  have hdisk := Disk.isDirectory_of_child? ho
  have hdir := (h.sound.isDirectory_iff hd hp hparent).2 hdisk
  have hunbound := (h.sound.childEntryOf?_eq_none_iff hparent).2 hfree
  have hafter := h.withEntry hd hway hseen ho hsize hp hc hfree fits
  have hkept : ∀ {i u}, t.view.Holds d i u → (t.withEntry p name c).view.Holds d i u := by
    intro i u hi
    exact (View.holds_congr (identity?_withEntry i)).2 hi
  have hpath := hafter.resolvePath_eq hd hsingle hway hdisk (hseen.append _) (hkept hp)
  have hino := inoOf_eq_of_holds (hkept hc)
  have hparentIno : rp.ino = d.inoAt s := by
    rw [← inoOf_eq_of_holds hp, inoOf, hparent]
  refine ⟨⟨(t.entries.insert ⟨p, c, name⟩).1⟩, ?_⟩
  rw [addEntry_of_free hchild hparent hdir hunbound, hpath, hino, hparentIno, Disk.observe,
    Disk.Sighting.whole, List.foldl_append]
  rfl

/-! ### Nothing waits -/

/-- All records are bound but for that of the root. -/
theorem root_of_isUnlinked (h : t.Depicts d (Disk.Seen tour) tour) (hrooted : t.view.Rooted d)
    {r : InodeRecord} (hr : t.record? i = some r) (hunlinked : r.isUnlinked) : t.root = some i := by
  obtain ⟨s, hi⟩ := h.truthful i r.identity (identity?_eq_some_iff.2 ⟨r, hr, rfl⟩)
  rcases (h.held_iff s).1 ⟨i, hi⟩ with rfl | ⟨x, hx, rfl⟩
  · obtain ⟨j, hroot, hj⟩ := hrooted
    rw [h.sound.eq_of_holds hi hj]
    exact hroot
  · have hcount := h.linkCount_eq hi
    have hpos : 0 < tour.countP (·.object = x.object) := List.countP_pos_iff.2 ⟨x, hx, by simp⟩
    rw [InodeRecord.isUnlinked, SortedMap.isEmpty, List.isEmpty_iff] at hunlinked
    rw [linkCount, hr, Option.elim_some, SortedMap.size, hunlinked, List.length_nil] at hcount
    omega

theorem orphanIfUnlinked_eq (h : t.Depicts d (Disk.Seen tour) tour) (hrooted : t.view.Rooted d)
    (i : InodeId) (now : Instant) : (t.orphanIfUnlinked i now).2 = t := by
  unfold orphanIfUnlinked
  split
  · next r hr =>
    split
    · next hwait =>
      simp only [Bool.and_eq_true, decide_eq_true_eq] at hwait
      exact absurd (h.root_of_isUnlinked hrooted hr hwait.1.1) hwait.1.2
    · rfl
  · rfl

theorem not_isOrphan (h : t.Depicts d (Disk.Seen tour) tour) (hrooted : t.view.Rooted d)
    (i : InodeId) : ¬t.isOrphan i := by
  intro hi
  obtain ⟨hroot, r, hr, hunlinked⟩ := h.sound.waiting hi
  exact hroot (h.root_of_isUnlinked hrooted hr hunlinked)

end Depicts

end Tree

end TreeWatch

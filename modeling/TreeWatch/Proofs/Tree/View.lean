import TreeWatch.Proofs.Tree.Destroy

/-!
# What a tree shows

A tree shows what its records say of their objects, which names lead from which records to which,
and where its root is. How entries are kept does not show, nor do entries have an identity of their
own: every change of a sound tree is a plain change of what it shows.

## Main definitions

- `View` : records with what they say, names and the root
- `Tree.view` : what a tree shows
- `View.insert`, `View.destroy`, `View.bind`, `View.unbind`, `View.refresh`

## Main results

- `Tree.Sound.view_insertRecord`, `Tree.Destroyed.view_eq` and so on : one equation per change
-/

namespace TreeWatch

/-- What a tree shows. -/
structure View where
  /-- What each record says of its object. -/
  identity : InodeId → Option (Attributes × IdentityToken)
  /-- The record bound to a name in a directory. -/
  child : InodeId → Bytes → Option InodeId
  root : Option InodeId

namespace View

/-- A new record. -/
def insert (v : View) (i : InodeId) (attributes : Attributes) (token : IdentityToken) : View :=
  { v with identity := fun j => if j = i then some (attributes, token) else v.identity j }

/-- A record goes, and every name that leads to it or from it. -/
def destroy (v : View) (x : InodeId) : View where
  identity i := if i = x then none else v.identity i
  child p name := if p = x then none else (v.child p name).filter (· ≠ x)
  root := if v.root = some x then none else v.root

/-- A name comes to lead to a record. -/
def bind (v : View) (p : InodeId) (name : Bytes) (c : InodeId) : View :=
  { v with child := fun p' name' => if p' = p ∧ name' = name then some c else v.child p' name' }

/-- A name comes to lead nowhere. -/
def unbind (v : View) (p : InodeId) (name : Bytes) : View :=
  { v with child := fun p' name' => if p' = p ∧ name' = name then none else v.child p' name' }

/-- A record comes to have another fingerprint. -/
def refresh (v : View) (i : InodeId) (fingerprint : Fingerprint) : View :=
  { v with identity := fun j =>
      (v.identity j).map fun x => if j = i then ({ x.1 with fingerprint }, x.2) else x }

variable (v : View) (i j x p p' c : InodeId) (name name' : Bytes) (a : Attributes)
  (token : IdentityToken) (fingerprint : Fingerprint)

theorem identity_insert :
    (v.insert i a token).identity j = if j = i then some (a, token) else v.identity j := rfl

@[simp] theorem child_insert : (v.insert i a token).child = v.child := rfl

@[simp] theorem root_insert : (v.insert i a token).root = v.root := rfl

theorem identity_destroy :
    (v.destroy x).identity i = if i = x then none else v.identity i := rfl

theorem child_destroy :
    (v.destroy x).child p name = if p = x then none else (v.child p name).filter (· ≠ x) := rfl

theorem root_destroy : (v.destroy x).root = if v.root = some x then none else v.root := rfl

@[simp] theorem identity_bind : (v.bind p name c).identity = v.identity := rfl

theorem child_bind :
    (v.bind p name c).child p' name' =
      if p' = p ∧ name' = name then some c else v.child p' name' := rfl

@[simp] theorem root_bind : (v.bind p name c).root = v.root := rfl

@[simp] theorem identity_unbind : (v.unbind p name).identity = v.identity := rfl

theorem child_unbind :
    (v.unbind p name).child p' name' =
      if p' = p ∧ name' = name then none else v.child p' name' := rfl

@[simp] theorem root_unbind : (v.unbind p name).root = v.root := rfl

theorem identity_refresh :
    (v.refresh i fingerprint).identity j =
      (v.identity j).map fun x => if j = i then ({ x.1 with fingerprint }, x.2) else x := rfl

@[simp] theorem child_refresh : (v.refresh i fingerprint).child = v.child := rfl

@[simp] theorem root_refresh : (v.refresh i fingerprint).root = v.root := rfl

end View

namespace Tree

/-- What a tree shows. -/
def view (t : Tree) : View := ⟨t.identity?, t.child?, t.root⟩

@[simp] theorem view_identity (t : Tree) : t.view.identity = t.identity? := rfl

@[simp] theorem view_child (t : Tree) : t.view.child = t.child? := rfl

@[simp] theorem view_root (t : Tree) : t.view.root = t.root := rfl

variable {t t' : Tree}

/-- Names lead the same way if the entries are the same. -/
theorem child?_eq_of_entryOf?_eq (h : t.Consistent) (h' : t'.Consistent)
    (hentry : ∀ e, t'.entryOf? e = t.entryOf? e) : t'.child? = t.child? := by
  funext p name
  ext c
  rw [h'.child?_eq_some_iff, h.child?_eq_some_iff]
  simp only [hentry]

namespace Sound

/-! ### Questions -/

/-- Names lead from records to records. -/
theorem live_of_child? (h : t.Sound) {p c : InodeId} {name : Bytes} (hc : t.child? p name = some c) :
    (∃ r, t.record? p = some r ∧ r.isDirectory) ∧ ∃ r, t.record? c = some r := by
  obtain ⟨e, he⟩ := h.child?_eq_some_iff.1 hc
  obtain ⟨r, hr⟩ := h.parent_live he
  refine ⟨⟨r, hr, ?_⟩, h.child_live he⟩
  have hname : r.childEntryOf? name = some e := (h.child_iff hr name e).2 ⟨_, he, rfl, rfl⟩
  unfold InodeRecord.childEntryOf? at hname
  unfold InodeRecord.isDirectory
  cases hchildren : r.children with
  | none => simp [hchildren] at hname
  | some _ => rfl

theorem childEntryOf?_eq_none_iff (h : t.Sound) {p : InodeId} {r : InodeRecord} {name : Bytes}
    (hr : t.record? p = some r) : r.childEntryOf? name = none ↔ t.child? p name = none := by
  simp only [Option.eq_none_iff_forall_ne_some, ne_eq, h.child_iff hr, h.child?_eq_some_iff]
  constructor
  · rintro hnone c ⟨e, he⟩
    exact hnone e ⟨_, he, rfl, rfl⟩
  · rintro hnone e ⟨⟨p', c, name'⟩, hb, rfl, rfl⟩
    exact hnone c ⟨e, hb⟩

/-- Nothing leads to or from a record that is not there. -/
theorem child?_of_record?_eq_none (h : t.Sound) {i : InodeId} (hnone : t.record? i = none) :
    (∀ name, t.child? i name = none) ∧ ∀ p name, t.child? p name ≠ some i := by
  constructor
  · intro name
    rw [Option.eq_none_iff_forall_ne_some]
    intro c hc
    obtain ⟨⟨r, hr, -⟩, -⟩ := h.live_of_child? hc
    rw [hnone] at hr
    cases hr
  · intro p name hc
    obtain ⟨-, r, hr⟩ := h.live_of_child? hc
    rw [hnone] at hr
    cases hr

/-- The record of an inode number is the one that says so. -/
theorem lookupIno_eq_some_iff (h : t.Sound) {ino : UInt64} {i : InodeId} :
    t.lookupIno ino = some i ↔ ∃ x, t.identity? i = some x ∧ x.1.ino = ino := by
  rw [h.ino_iff, exists_ino_iff]

/-! ### Changes -/

theorem view_insertRecord (h : t.Sound) {attributes : Attributes} {token : IdentityToken}
    (hino : t.lookupIno attributes.ino = none)
    (fits : (t.insertRecord attributes token).2.Fits) :
    (t.insertRecord attributes token).2.view =
      t.view.insert (t.insertRecord attributes token).1 attributes token := by
  have hsound := h.insertRecord hino fits
  have hchild := child?_eq_of_entryOf?_eq h.toConsistent hsound.toConsistent fun _ => rfl
  have hidentity : (t.insertRecord attributes token).2.identity? = fun j =>
      if j = (t.insertRecord attributes token).1 then some (attributes, token)
      else t.identity? j := by
    funext j
    rw [identity?, record?_insertRecord h.inodes_wellFormed fits]
    split <;> rfl
  rw [view, hchild, hidentity]
  rfl

theorem view_withEntry (h : t.Sound) {parent child : InodeId} {name : Bytes} {r r' : InodeRecord}
    (hchild : t.record? child = some r) (hparent : t.record? parent = some r')
    (hdir : r'.isDirectory) (hfree : r'.childEntryOf? name = none)
    (fits : (t.withEntry parent name child).Fits) :
    (t.withEntry parent name child).view = t.view.bind parent name child := by
  have hsound := h.withEntry hchild hparent hdir hfree fits
  have hidentity : (t.withEntry parent name child).identity? = t.identity? :=
    funext identity?_withEntry
  -- names are read off the entries, of which there is one more
  have hbound : (t.withEntry parent name child).child? = fun p' name' =>
      if p' = parent ∧ name' = name then some child else t.child? p' name' := by
    funext p' name'
    ext c
    have hnew := entryOf?_insert_withEntry h.entries_wellFormed fits
    have hentry := entryOf?_withEntry h.entries_wellFormed fits
    rw [hsound.child?_eq_some_iff]
    constructor
    · rintro ⟨e, he⟩
      rw [hentry] at he
      split at he
      · cases he
        simp
      · have hold := h.child?_eq_some_iff.2 ⟨e, he⟩
        split
        · next hplace =>
          obtain ⟨rfl, rfl⟩ := hplace
          rw [(h.childEntryOf?_eq_none_iff hparent).1 hfree] at hold
          cases hold
        · exact hold
    · intro hc
      split at hc
      · next hplace =>
        obtain ⟨rfl, rfl⟩ := hplace
        cases hc
        exact ⟨_, by rw [hentry, if_pos rfl]⟩
      · obtain ⟨e, he⟩ := h.child?_eq_some_iff.1 hc
        refine ⟨e, ?_⟩
        rw [hentry, if_neg, he]
        rintro rfl
        rw [hnew] at he
        cases he
  rw [view, hidentity, hbound]
  rfl

theorem view_removeEntry (h : t.Sound) {now : Instant} {e : EntryId} {b : DirectoryEntry}
    {o : Observation} (hb : t.entryOf? e = some b) (hremove : t.removeEntry now e = .ok (t', o)) :
    t'.view = t.view.unbind b.parent b.name := by
  obtain ⟨hsound, hidentity, hentry, hroot⟩ := h.removeEntry hremove
  have hchild : t'.child? = fun p' name' =>
      if p' = b.parent ∧ name' = b.name then none else t.child? p' name' := by
    funext p' name'
    ext c
    rw [hsound.child?_eq_some_iff]
    constructor
    · rintro ⟨e', he'⟩
      rw [hentry] at he'
      split at he'
      · cases he'
      · next hne =>
        -- no other entry binds the name in that directory
        have hother : ¬(p' = b.parent ∧ name' = b.name) := fun hsame =>
          hne (List.mem_singleton.2 (h.eq_of_name_eq he' hb hsame.1 hsame.2))
        rw [if_neg hother]
        exact h.child?_eq_some_iff.2 ⟨e', he'⟩
    · intro hc
      split at hc
      · cases hc
      · next hother =>
        obtain ⟨e', he'⟩ := h.child?_eq_some_iff.1 hc
        refine ⟨e', ?_⟩
        rw [hentry, if_neg, he']
        intro hmem
        obtain rfl := List.mem_singleton.1 hmem
        rw [hb] at he'
        cases he'
        exact hother ⟨rfl, rfl⟩
  rw [view, funext hidentity, hchild, hroot]
  rfl

theorem view_refreshFingerprint (h : t.Sound) (i : InodeId) (fingerprint : Fingerprint) :
    (t.refreshFingerprint i fingerprint).view = t.view.refresh i fingerprint := by
  have hchild := child?_eq_of_entryOf?_eq h.toConsistent
    (h.refreshFingerprint i fingerprint).toConsistent fun _ => rfl
  have hidentity : (t.refreshFingerprint i fingerprint).identity? = fun j =>
      (t.identity? j).map fun x => if j = i then ({ x.1 with fingerprint }, x.2) else x := by
    funext j
    rw [identity?, Tree.refreshFingerprint, record?_modifyRecord, identity?, Option.map_map,
      Option.map_map]
    congr 1
    funext r
    simp only [Function.comp_apply]
    split <;> rfl
  rw [view, hchild, hidentity]
  rfl

end Sound

theorem Destroyed.view_eq {x : InodeId} (h : Destroyed x t t') (hsound : t.Sound) :
    t'.view = t.view.destroy x := by
  have hchild : t'.child? = fun p name =>
      if p = x then none else (t.child? p name).filter (· ≠ x) := by
    funext p name
    ext c
    simp only [h.sound.child?_eq_some_iff, h.entryOf?_eq_some_iff, exists_and_right,
      ← hsound.child?_eq_some_iff]
    by_cases hp : p = x
    · simp [hp]
    · simp [hp, Option.filter_eq_some_iff]
  rw [view, funext h.identity?_eq, hchild, h.root_eq]
  rfl

/-- Which records wait does not show. -/
theorem view_orphanIfUnlinked (t : Tree) (i : InodeId) (now : Instant) :
    (t.orphanIfUnlinked i now).2.view = t.view := by
  unfold orphanIfUnlinked
  split
  · split <;> rfl
  · rfl

end Tree

end TreeWatch

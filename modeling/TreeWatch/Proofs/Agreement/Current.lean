import TreeWatch.Proofs.Mirror.Lost

/-!
# Numbers that lead to the right records

Nothing but inode numbers and tokens counts here: a record may say anything else of its object. As
long as no number of a present object leads to the record of another, scans put in records and bind
names, but never invalidate a record.

## Main definitions

- `Tree.Formed` : a consistent tree whose arenas are in order
- `View.Marks` : a record has the number and the token of an object
- `View.UpToDate` : the records with numbers of present objects have their tokens, too
- `View.Onward` : marks stay, and so do names that lead to the right numbers

## Main results

- `View.UpToDate.insert`, `View.Onward.insert`, `View.Onward.bind`, `View.Onward.unbind`
-/

namespace TreeWatch

namespace Tree

/-- A consistent tree whose arenas are in order. Any record may wait. -/
structure Formed (t : Tree) : Prop extends t.Consistent where
  inodes_wellFormed : t.inodes.WellFormed
  entries_wellFormed : t.entries.WellFormed

variable {t t' : Tree}

/-- Which records wait does not matter for the rest of a tree. -/
theorem Formed.sound (h : t.Formed) : ({ t with orphans := .empty } : Tree).Sound where
  toConsistent := ⟨h.link_iff, h.child_iff, h.parent_live, h.child_live, h.directory_iff, h.ino_iff⟩
  inodes_wellFormed := h.inodes_wellFormed
  entries_wellFormed := h.entries_wellFormed
  waiting := fun hi => by cases hi

theorem Sound.formed (h : t.Sound) (hinodes : t'.inodes = t.inodes) (hentries : t'.entries = t.entries)
    (hnumbers : t'.byIno = t.byIno) : t'.Formed := by
  obtain ⟨⟨hlink, hchild, hparent, hlive, hdirectory, hino⟩, hwf, hwf', -⟩ := h
  obtain ⟨inodes, entries, byIno, root, orphans, grace, touched⟩ := t'
  cases hinodes
  cases hentries
  cases hnumbers
  exact ⟨⟨hlink, hchild, hparent, hlive, hdirectory, hino⟩, hwf, hwf'⟩

theorem Formed.lookupIno_eq_some_iff (h : t.Formed) {ino : UInt64} {i : InodeId} :
    t.lookupIno ino = some i ↔ ∃ x, t.view.identity i = some x ∧ x.1.ino = ino :=
  h.sound.lookupIno_eq_some_iff

theorem Formed.insertRecord (h : t.Formed) {attributes : Attributes} {token : IdentityToken}
    (hino : t.lookupIno attributes.ino = none)
    (fits : (t.insertRecord attributes token).2.Fits) :
    (t.insertRecord attributes token).2.Formed ∧
      t.view.Unused (t.insertRecord attributes token).1 ∧
      (t.insertRecord attributes token).2.view =
        t.view.insert (t.insertRecord attributes token).1 attributes token := by
  have hfits : (({ t with orphans := .empty } : Tree).insertRecord attributes token).2.Fits :=
    ⟨fits.inodes, fits.entries⟩
  exact ⟨(h.sound.insertRecord hino hfits).formed rfl rfl rfl,
    h.sound.unused_fst_insertRecord hfits, h.sound.view_insertRecord hino hfits⟩

theorem Formed.withEntry (h : t.Formed) {parent child : InodeId} {name : Bytes}
    {r r' : InodeRecord} (hchild : t.record? child = some r) (hparent : t.record? parent = some r')
    (hdir : r'.isDirectory) (hfree : r'.childEntryOf? name = none)
    (fits : (t.withEntry parent name child).Fits) :
    (t.withEntry parent name child).Formed ∧
      (t.withEntry parent name child).view = t.view.bind parent name child := by
  have hfits : (({ t with orphans := .empty } : Tree).withEntry parent name child).Fits :=
    ⟨fits.inodes, fits.entries⟩
  exact ⟨(h.sound.withEntry hchild hparent hdir hfree hfits).formed rfl rfl rfl,
    h.sound.view_withEntry hchild hparent hdir hfree hfits⟩

theorem waitIfUnlinked_kept (t : Tree) (i : InodeId) (now : Instant) :
    (t.waitIfUnlinked i now).inodes = t.inodes ∧ (t.waitIfUnlinked i now).entries = t.entries ∧
      (t.waitIfUnlinked i now).byIno = t.byIno ∧ (t.waitIfUnlinked i now).root = t.root := by
  rcases waitIfUnlinked_cases (t := t) i now with heq | ⟨heq, -⟩ <;> rw [heq]
  · exact ⟨rfl, rfl, rfl, rfl⟩
  · exact ⟨rfl, rfl, rfl, rfl⟩

theorem view_congr (hinodes : t'.inodes = t.inodes) (hentries : t'.entries = t.entries)
    (hroot : t'.root = t.root) : t'.view = t.view := by
  obtain ⟨inodes, entries, byIno, root, orphans, grace, touched⟩ := t'
  cases hinodes
  cases hentries
  cases hroot
  rfl

theorem Formed.removeEntry (h : t.Formed) {now : Instant} {e : EntryId} {b : DirectoryEntry}
    {o : Observation} (hb : t.entryOf? e = some b) (hremove : t.removeEntry now e = .ok (t', o)) :
    t'.Formed ∧ t'.view = t.view.unbind b.parent b.name := by
  -- the same happens to the tree in which no record waits
  have hexists : ∃ p, ({ t with orphans := .empty } : Tree).removeEntry now e = .ok p :=
    exists_removeEntry_eq_ok hb
  obtain ⟨⟨u, o'⟩, hu⟩ := hexists
  have hview := h.sound.view_removeEntry hb hu
  have hsound := (h.sound.removeEntry hu).sound
  obtain ⟨b₁, entries₁, hentry₁, rfl⟩ := removeEntry_eq_ok hremove
  obtain ⟨b₂, entries₂, hentry₂, rfl⟩ := removeEntry_eq_ok hu
  cases hentry₁.symm.trans hentry₂
  obtain ⟨hinodes, hentries, hnumbers, hroot⟩ :=
    waitIfUnlinked_kept (t.withoutEntry e b₁ entries₁) b₁.child now
  obtain ⟨hinodes', hentries', hnumbers', hroot'⟩ := waitIfUnlinked_kept
    (({ t with orphans := .empty } : Tree).withoutEntry e b₁ entries₁) b₁.child now
  constructor
  · exact hsound.formed (hinodes.trans hinodes'.symm) (hentries.trans hentries'.symm)
      (hnumbers.trans hnumbers'.symm)
  · exact (view_congr (hinodes.trans hinodes'.symm) (hentries.trans hentries'.symm)
      (hroot.trans hroot'.symm)).trans hview

theorem Formed.refreshFingerprint (h : t.Formed) (i : InodeId) (fingerprint : Fingerprint) :
    (t.refreshFingerprint i fingerprint).Formed ∧
      (t.refreshFingerprint i fingerprint).view = t.view.refresh i fingerprint :=
  ⟨(h.sound.refreshFingerprint i fingerprint).formed rfl rfl rfl,
    h.sound.view_refreshFingerprint i fingerprint⟩

theorem Formed.orphanIfUnlinked (h : t.Formed) (i : InodeId) (now : Instant) :
    (t.orphanIfUnlinked i now).2.Formed := by
  refine h.sound.formed ?_ ?_ ?_ <;>
  · unfold Tree.orphanIfUnlinked
    split
    · split <;> rfl
    · rfl

end Tree

namespace View

variable {d : Disk} {present : Serial → Prop} {v v' v'' : View} {i p c : InodeId} {s o : Serial}
  {name : Bytes} {a : Attributes}

/-- The record has the number and the token of the object. -/
def Marks (v : View) (d : Disk) (i : InodeId) (s : Serial) : Prop :=
  ∃ x, v.identity i = some x ∧ x.1.ino = d.inoAt s ∧ x.2 = Disk.tokenOf s

/-- Every record that has the number of a present object has the token of that object. -/
def UpToDate (v : View) (d : Disk) (present : Serial → Prop) : Prop :=
  ∀ i x s, v.identity i = some x → present s → x.1.ino = d.inoAt s → x.2 = Disk.tokenOf s

/-- Marks stay, and names go on to lead to the numbers of their objects. -/
structure Onward (d : Disk) (present : Serial → Prop) (v v' : View) : Prop where
  marks : ∀ {i s}, v.Marks d i s → v'.Marks d i s
  leads : ∀ {p s name c}, present s → v.Marks d p s → d.child? s name = some c → ¬d.Oversized c →
    v.Leads p name (d.inoAt c) → v'.Leads p name (d.inoAt c)

theorem Onward.refl : Onward d present v v := ⟨id, fun _ _ _ _ h => h⟩

theorem Onward.trans (h : Onward d present v v') (h' : Onward d present v' v'') :
    Onward d present v v'' :=
  ⟨fun hi => h'.marks (h.marks hi), fun hs hp hc hsize hleads =>
    h'.leads hs (h.marks hp) hc hsize (h.leads hs hp hc hsize hleads)⟩

theorem Marks.serial_eq (hd : d.Distinguishes present) (h : v.Marks d i s) (h' : v.Marks d i o)
    (hs : present s) (ho : present o) : s = o := by
  obtain ⟨x, hx, hino, -⟩ := h
  obtain ⟨x', hx', hino', -⟩ := h'
  rw [hx] at hx'
  cases hx'
  exact hd.eq_of_ino_eq hs ho (hino.symm.trans hino')

/-! ### New records -/

theorem marks_insert (ha : d.attributes s = .ok a) :
    (v.insert i a (Disk.tokenOf s)).Marks d i s := by
  refine ⟨(a, Disk.tokenOf s), by rw [identity_insert, if_pos rfl], ?_, rfl⟩
  unfold Disk.attributes at ha
  unfold Disk.inoAt
  cases hn : d.node? s with
  | none =>
    rw [hn] at ha
    cases ha
  | some n =>
    rw [hn] at ha
    cases ha
    rfl

theorem identity_insert_of_live (hunused : v.Unused i) {x : Attributes × IdentityToken}
    {token : IdentityToken} (hx : v.identity c = some x) :
    (v.insert i a token).identity c = some x := by
  rw [identity_insert, if_neg, hx]
  rintro rfl
  rw [hunused.identity] at hx
  cases hx

theorem Onward.insert (hunused : v.Unused i) {token : IdentityToken} :
    Onward d present v (v.insert i a token) := by
  constructor
  · rintro j s ⟨x, hx, hmarks⟩
    exact ⟨x, identity_insert_of_live hunused hx, hmarks⟩
  · rintro p s name c - - - - ⟨j, x, hj, hx, hino⟩
    exact ⟨j, x, hj, identity_insert_of_live hunused hx, hino⟩

theorem UpToDate.insert (hd : d.Distinguishes present) (h : v.UpToDate d present)
    (hs : present s) (ha : d.attributes s = .ok a) :
    (v.insert i a (Disk.tokenOf s)).UpToDate d present := by
  intro j x o hx ho hino
  rw [identity_insert] at hx
  split at hx
  · next hji =>
    obtain ⟨x', hx', hino', htoken⟩ := marks_insert (v := v) (i := i) ha
    rw [identity_insert, if_pos rfl, hx] at hx'
    cases hx'
    rw [htoken, hd.eq_of_ino_eq ho hs (hino.symm.trans hino')]
  · exact h j x o hx ho hino

/-! ### Other changes -/

theorem identity_refresh_of_live {fingerprint : Fingerprint} {x : Attributes × IdentityToken}
    (hx : v.identity c = some x) :
    ∃ x', (v.refresh i fingerprint).identity c = some x' ∧ x'.1.ino = x.1.ino ∧ x'.2 = x.2 := by
  rw [identity_refresh, hx, Option.map_some]
  split
  · exact ⟨_, rfl, rfl, rfl⟩
  · exact ⟨_, rfl, rfl, rfl⟩

theorem Onward.refresh {fingerprint : Fingerprint} :
    Onward d present v (v.refresh i fingerprint) := by
  constructor
  · rintro j s ⟨x, hx, hino, htoken⟩
    obtain ⟨x', hx', hino', htoken'⟩ := identity_refresh_of_live (i := i) hx
    exact ⟨x', hx', hino'.trans hino, htoken'.trans htoken⟩
  · rintro p s name c - - - - ⟨j, x, hj, hx, hino⟩
    obtain ⟨x', hx', hino', -⟩ := identity_refresh_of_live (i := i) hx
    exact ⟨j, x', hj, hx', hino'.trans hino⟩

theorem UpToDate.refresh {fingerprint : Fingerprint} (h : v.UpToDate d present) :
    (v.refresh i fingerprint).UpToDate d present := by
  intro j x s hx hs hino
  rw [identity_refresh, Option.map_eq_some_iff] at hx
  obtain ⟨x', hx', rfl⟩ := hx
  split at hino <;> split
  all_goals exact h j x' s hx' hs hino

theorem leads_bind (hc : v.Marks d c o) : (v.bind p name c).Leads p name (d.inoAt o) := by
  obtain ⟨x, hx, hino, -⟩ := hc
  exact ⟨c, x, by rw [child_bind, if_pos ⟨rfl, rfl⟩], hx, hino⟩

/-- A name comes to lead to its object. -/
theorem Onward.bind (hd : d.Distinguishes present) (hs : present s) (hp : v.Marks d p s)
    (ho : d.child? s name = some o) (hc : v.Marks d c o) :
    Onward d present v (v.bind p name c) := by
  refine ⟨id, ?_⟩
  intro p' s' name' c' hs' hp' hc' _ hleads
  by_cases hplace : p' = p ∧ name' = name
  · obtain ⟨rfl, rfl⟩ := hplace
    obtain rfl := hp.serial_eq hd hp' hs hs'
    rw [ho] at hc'
    cases hc'
    exact leads_bind hc
  · obtain ⟨j, x, hj, hx, hino⟩ := hleads
    exact ⟨j, x, by rw [child_bind, if_neg hplace, hj], hx, hino⟩

/-- A name goes that did not lead to its object. -/
theorem Onward.unbind (hd : d.Distinguishes present) (hs : present s) (hp : v.Marks d p s)
    (hwrong : ∀ o, d.child? s name = some o → ¬v.Leads p name (d.inoAt o)) :
    Onward d present v (v.unbind p name) := by
  refine ⟨id, ?_⟩
  intro p' s' name' c' hs' hp' hc' _ hleads
  by_cases hplace : p' = p ∧ name' = name
  · obtain ⟨rfl, rfl⟩ := hplace
    obtain rfl := hp.serial_eq hd hp' hs hs'
    exact absurd hleads (hwrong c' hc')
  · obtain ⟨j, x, hj, hx, hino⟩ := hleads
    exact ⟨j, x, by rw [child_unbind, if_neg hplace, hj], hx, hino⟩

end View

end TreeWatch

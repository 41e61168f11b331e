import Mathlib.Data.Finset.Card
import TreeWatch.Proofs.Disk.Operation
import TreeWatch.Proofs.Path
import TreeWatch.Proofs.Tracker.Reached

/-!
# Replaying the journal

The journal tells with which names, and between which inode numbers, directories bind objects. Replaying
it from the beginning gives the bonds of the tree, each of which appears and goes in turn.

## Main definitions

- `Bond` : a name in a directory, told by inode numbers
- `Observation.replay` : the bonds after a journal, unless one appears twice or goes without having
  been there
- `Ledger.Tallies` : the journal has been replayed, and the bonds are those of the tree

## Main results

- `Ledger.Tallies.bind`, `Ledger.Tallies.unbind` : binding and unbinding a name, each with its observation
- `Ledger.Edits.tallied` : every change of a ledger goes into the journal
- `Tracker.Reached.replay_journal` : the journal is complete in every state of a run

## Design notes

A record that is destroyed loses its entries one after another. In between its inode number is used,
which is why the bonds are told by the numbers of records and not by the records.
-/

namespace TreeWatch

/-- A name that a directory binds to an object, told by inode numbers. -/
structure Bond where
  parentIno : UInt64
  name : Bytes
  ino : UInt64
deriving DecidableEq

namespace Observation

/-- The bond that came or went. The name is the last component of the path. -/
def bond? (o : Observation) : Option Bond :=
  (Path.fileName? o.path).map fun name => ⟨o.parentIno, name, o.ino⟩

/-- The bonds after an observation. A bond that comes must not be there yet, one that goes must be. -/
def applyTo (bonds : Finset Bond) (o : Observation) : Option (Finset Bond) :=
  o.bond?.bind fun b =>
    match o.kind with
    | .linked => if b ∈ bonds then none else some (insert b bonds)
    | .unlinked => if b ∈ bonds then some (bonds.erase b) else none

/-- The bonds after a journal that begins with none. -/
def replay (journal : List Observation) : Option (Finset Bond) :=
  journal.foldlM applyTo ∅

theorem replay_concat (journal : List Observation) (o : Observation) :
    replay (journal ++ [o]) = (replay journal).bind (applyTo · o) := by
  simp [replay, List.foldlM_append]

variable {name : Bytes} {p : Path} {parentIno ino : UInt64} {bonds : Finset Bond}

theorem applyTo_linked (hname : Path.Named name) (h : ⟨parentIno, name, ino⟩ ∉ bonds) :
    applyTo bonds ⟨.linked, p.join name, ino, parentIno⟩ =
      some (insert ⟨parentIno, name, ino⟩ bonds) := by
  simp [applyTo, bond?, Path.fileName?_join p hname, h]

theorem applyTo_unlinked (hname : Path.Named name) (h : ⟨parentIno, name, ino⟩ ∈ bonds) :
    applyTo bonds ⟨.unlinked, p.join name, ino, parentIno⟩ =
      some (bonds.erase ⟨parentIno, name, ino⟩) := by
  simp [applyTo, bond?, Path.fileName?_join p hname, h]

end Observation

namespace Tree

variable {t t' : Tree} {i : InodeId} {b : Bond}

/-- The inode number of a record. -/
def number? (t : Tree) (i : InodeId) : Option UInt64 := (t.record? i).map InodeRecord.ino

/-- Some entry binds the name between the inode numbers. -/
def Bonded (t : Tree) (b : Bond) : Prop :=
  ∃ e d, t.entryOf? e = some d ∧ d.name = b.name ∧ t.number? d.parent = some b.parentIno ∧
    t.number? d.child = some b.ino

theorem number?_eq (t : Tree) (i : InodeId) :
    t.number? i = (t.identity? i).map fun x => x.1.ino := by
  rw [number?, identity?, Option.map_map]
  rfl

theorem number?_congr (h : t'.identity? i = t.identity? i) : t'.number? i = t.number? i := by
  rw [number?_eq, number?_eq, h]

theorem number?_refreshFingerprint (t : Tree) (i j : InodeId) (fingerprint : Fingerprint) :
    (t.refreshFingerprint i fingerprint).number? j = t.number? j := by
  rw [number?, refreshFingerprint, record?_modifyRecord, Option.map_map, number?]
  congr 1
  funext r
  show (if j = i then { r with fingerprint } else r).ino = r.ino
  split <;> rfl

theorem number?_orphanIfUnlinked (t : Tree) (i j : InodeId) (now : Instant) :
    (t.orphanIfUnlinked i now).2.number? j = t.number? j :=
  number?_congr (congrFun (congrArg View.identity (t.view_orphanIfUnlinked i now)) j)

theorem inoOf_of_number? {ino : UInt64} (h : t.number? i = some ino) : t.inoOf i = ino := by
  obtain ⟨r, hr, rfl⟩ := Option.map_eq_some_iff.1 h
  simp [inoOf, hr]

theorem Consistent.eq_of_number?_eq (h : t.Consistent) {i j : InodeId} {ino : UInt64}
    (hi : t.number? i = some ino) (hj : t.number? j = some ino) : i = j := by
  obtain ⟨r, hr, hrino⟩ := Option.map_eq_some_iff.1 hi
  obtain ⟨r', hr', hrino'⟩ := Option.map_eq_some_iff.1 hj
  exact h.eq_of_ino_eq hr hr' (hrino.trans hrino'.symm)

/-- An entry is told by its bond. -/
theorem Consistent.eq_of_bond_eq (h : t.Consistent) {e e' : EntryId} {d d' : DirectoryEntry}
    {ino : UInt64} (hd : t.entryOf? e = some d) (hd' : t.entryOf? e' = some d')
    (hname : d.name = d'.name) (hparent : t.number? d.parent = some ino)
    (hparent' : t.number? d'.parent = some ino) : e = e' :=
  h.eq_of_name_eq hd hd' (h.eq_of_number?_eq hparent hparent') hname

theorem exists_number? (h : ∃ r, t.record? i = some r) : ∃ ino, t.number? i = some ino :=
  h.imp' InodeRecord.ino fun r hr => by rw [number?, hr, Option.map_some]

/-- The records at the ends of entries keep their numbers, and the entries stay. -/
theorem bonded_congr (hentries : t'.entries = t.entries)
    (hnumber : ∀ e d, t.entryOf? e = some d →
      t'.number? d.parent = t.number? d.parent ∧ t'.number? d.child = t.number? d.child) :
    t'.Bonded b ↔ t.Bonded b := by
  have hentryOf : ∀ e, t'.entryOf? e = t.entryOf? e := fun e => by rw [entryOf?, hentries, entryOf?]
  constructor
  · rintro ⟨e, d, hd, hname, hparent, hchild⟩
    rw [hentryOf] at hd
    obtain ⟨hp, hc⟩ := hnumber e d hd
    exact ⟨e, d, hd, hname, hp ▸ hparent, hc ▸ hchild⟩
  · rintro ⟨e, d, hd, hname, hparent, hchild⟩
    obtain ⟨hp, hc⟩ := hnumber e d hd
    exact ⟨e, d, (hentryOf e).trans hd, hname, hp.trans hparent, hc.trans hchild⟩

variable {m n : UInt64} {name : Bytes} {parent child : InodeId}

/-- The ends of an entry and its name make up its bond. -/
theorem eq_bond (hparent : t.number? parent = some m) (hchild : t.number? child = some n)
    (hp : t.number? parent = some b.parentIno) (hname : name = b.name)
    (hc : t.number? child = some b.ino) : b = ⟨m, name, n⟩ := by
  rw [hparent] at hp
  rw [hchild] at hc
  cases b
  cases hp
  cases hc
  cases hname
  rfl

theorem Sound.bonded_withEntry (h : t.Sound) (hparent : t.number? parent = some m)
    (hchild : t.number? child = some n) (fits : (t.withEntry parent name child).Fits) :
    (t.withEntry parent name child).Bonded b ↔ b = ⟨m, name, n⟩ ∨ t.Bonded b := by
  have hentry := entryOf?_withEntry h.entries_wellFormed fits
  have hnumber : ∀ i, (t.withEntry parent name child).number? i = t.number? i :=
    fun i => number?_congr (identity?_withEntry i)
  constructor
  · rintro ⟨e, d, hd, hname, hp, hc⟩
    rw [hentry] at hd
    rw [hnumber] at hp hc
    split at hd
    · cases hd
      exact .inl (eq_bond hparent hchild hp hname hc)
    · exact .inr ⟨e, d, hd, hname, hp, hc⟩
  · rintro (rfl | ⟨e, d, hd, hname, hp, hc⟩)
    · refine ⟨_, ⟨parent, child, name⟩, (hentry _).trans (if_pos rfl), rfl, ?_, ?_⟩
      · exact (hnumber parent).trans hparent
      · exact (hnumber child).trans hchild
    · refine ⟨e, d, ?_, hname, (hnumber _).trans hp, (hnumber _).trans hc⟩
      rw [hentry, if_neg, hd]
      rintro rfl
      rw [entryOf?_insert_withEntry h.entries_wellFormed fits] at hd
      cases hd

theorem Sound.bonded_detached (h : t.Sound) {e : EntryId} {d : DirectoryEntry}
    (hd : t.entryOf? e = some d) (hdetached : Detached [e] t t') (hparent : t.number? d.parent = some m)
    (hchild : t.number? d.child = some n) :
    t'.Bonded b ↔ b ≠ ⟨m, d.name, n⟩ ∧ t.Bonded b := by
  have hentry : ∀ e', t'.entryOf? e' = if e' = e then none else t.entryOf? e' := fun e' => by
    rw [hdetached.entryOf?_eq]
    simp
  have hnumber : ∀ i, t'.number? i = t.number? i := fun i => number?_congr (hdetached.identity?_eq i)
  constructor
  · rintro ⟨e', d', hd', hname, hp, hc⟩
    rw [hentry] at hd'
    rw [hnumber] at hp hc
    split at hd'
    · cases hd'
    · next hne =>
      refine ⟨?_, e', d', hd', hname, hp, hc⟩
      rintro rfl
      exact hne (h.eq_of_bond_eq hd' hd hname hp hparent)
  · rintro ⟨hne, e', d', hd', hname, hp, hc⟩
    refine ⟨e', d', ?_, hname, (hnumber _).trans hp, (hnumber _).trans hc⟩
    rw [hentry, if_neg, hd']
    rintro rfl
    obtain rfl := Option.some.inj (hd.symm.trans hd')
    exact hne (eq_bond hparent hchild hp hname hc)

end Tree

namespace Ledger

variable {l l' : Ledger} {bonds : Finset Bond}

/-- The journal can be replayed and gives the bonds of the tree, one for each entry. -/
structure Tallies (l : Ledger) (bonds : Finset Bond) : Prop where
  replay_eq : Observation.replay l.journal = some bonds
  mem_iff : ∀ b, b ∈ bonds ↔ l.tree.Bonded b
  card_eq : bonds.card = l.tree.entryCount
  named : ∀ e d, l.tree.entryOf? e = some d → Path.Named d.name

namespace Tallies

/-- Changes that touch neither the journal nor an entry. -/
theorem frame (h : l.Tallies bonds) (hjournal : l'.journal = l.journal)
    (hentries : l'.tree.entries = l.tree.entries)
    (hnumber : ∀ e d, l.tree.entryOf? e = some d →
      l'.tree.number? d.parent = l.tree.number? d.parent ∧
        l'.tree.number? d.child = l.tree.number? d.child) : l'.Tallies bonds where
  replay_eq := by rw [hjournal, h.replay_eq]
  mem_iff b := (h.mem_iff b).trans (Tree.bonded_congr hentries hnumber).symm
  card_eq := by rw [h.card_eq, Tree.entryCount, Tree.entryCount, hentries]
  named e d hd := by
    rw [Tree.entryOf?, hentries] at hd
    exact h.named e d hd

/-- A name that is bound comes into the journal. -/
theorem bind (h : l.Tallies bonds) (hsound : l.tree.Sound) {parent child : InodeId} {name : Bytes}
    {e : EntryId} (hname : Path.Named name) (hadd : l.addEntry parent name child = .ok (e, l'))
    (fits : l'.tree.Fits) : ∃ bonds', l'.Tallies bonds' := by
  obtain ⟨t, o, htree, rfl⟩ := addEntry_eq_ok hadd
  obtain ⟨⟨r, hr⟩, ⟨r', hr', hdir, hfree⟩, -, -⟩ := Tree.addEntry_eq_ok htree
  rw [Tree.addEntry_of_free hr hr' hdir hfree] at htree
  cases htree
  have hparent : l.tree.number? parent = some r'.ino := by rw [Tree.number?, hr', Option.map_some]
  have hchild : l.tree.number? child = some r.ino := by rw [Tree.number?, hr, Option.map_some]
  have hnew : ⟨r'.ino, name, r.ino⟩ ∉ bonds := by
    rw [h.mem_iff]
    rintro ⟨e, d, hd, hdname, hdparent, -⟩
    obtain rfl := hsound.eq_of_number?_eq hdparent hparent
    have hbound := (hsound.child_iff hr' name e).2 ⟨d, hd, rfl, hdname⟩
    rw [hfree] at hbound
    cases hbound
  refine ⟨insert ⟨r'.ino, name, r.ino⟩ bonds, ⟨?_, fun b => ?_, ?_, fun e d hd => ?_⟩⟩
  · have hino : (l.tree.withEntry parent name child).inoOf child = r.ino :=
      Tree.inoOf_of_number? ((Tree.number?_congr (Tree.identity?_withEntry child)).trans hchild)
    rw [Observation.replay_concat, h.replay_eq, Option.bind_some, hino,
      Observation.applyTo_linked hname hnew]
  · rw [Finset.mem_insert, h.mem_iff, hsound.bonded_withEntry hparent hchild fits]
  · rw [Finset.card_insert_of_notMem hnew, h.card_eq]
    exact (Arena.size_insert ..).symm
  · rw [Tree.entryOf?_withEntry hsound.entries_wellFormed fits] at hd
    split at hd
    · cases hd
      exact hname
    · exact h.named e d hd

/-- A name that is unbound comes into the journal. -/
theorem unbind (h : l.Tallies bonds) (hsound : l.tree.Sound) {clock : Clock} {e : EntryId}
    (hremove : l.removeEntry clock e = .ok l') : ∃ bonds', l'.Tallies bonds' := by
  obtain ⟨t, o, htree, rfl⟩ := removeEntry_eq_ok hremove
  obtain ⟨d, entries, hentries, -⟩ := Tree.removeEntry_eq_ok htree
  have hdetached := hsound.removeEntry htree
  have hd : l.tree.entryOf? e = some d := Arena.get?_of_remove hentries
  rw [Tree.removeEntry_of_bound hentries] at htree
  cases htree
  obtain ⟨m, hparent⟩ := Tree.exists_number? (hsound.parent_live hd)
  obtain ⟨n, hchild⟩ := Tree.exists_number? (hsound.child_live hd)
  have hold : ⟨m, d.name, n⟩ ∈ bonds := (h.mem_iff _).2 ⟨e, d, hd, rfl, hparent, hchild⟩
  refine ⟨bonds.erase ⟨m, d.name, n⟩, ⟨?_, fun b => ?_, ?_, fun e' d' hd' => ?_⟩⟩
  · rw [Observation.replay_concat, h.replay_eq, Option.bind_some, Tree.inoOf_of_number? hparent,
      Tree.inoOf_of_number? hchild, Observation.applyTo_unlinked (h.named e d hd) hold]
  · rw [Finset.mem_erase, h.mem_iff, hsound.bonded_detached hd hdetached hparent hchild]
  · rw [Finset.card_erase_of_mem hold, h.card_eq, Tree.entryCount, Tree.entryCount,
      Tree.entries_waitIfUnlinked]
    exact (Arena.size_remove hentries).symm
  · rw [hdetached.entryOf?_eq] at hd'
    split at hd'
    · cases hd'
    · exact h.named e' d' hd'

end Tallies

/-- The tree is sound, and the journal gives its bonds. -/
structure Tallied (l : Ledger) : Prop where
  sound : l.tree.Sound
  tallies : ∃ bonds, l.Tallies bonds

namespace Tallied

theorem frame (h : l.Tallied) (hsound : l'.tree.Sound) (hjournal : l'.journal = l.journal)
    (hentries : l'.tree.entries = l.tree.entries)
    (hnumber : ∀ i, (∃ r, l.tree.record? i = some r) → l'.tree.number? i = l.tree.number? i) :
    l'.Tallied := by
  obtain ⟨bonds, htallies⟩ := h.tallies
  exact ⟨hsound, bonds, htallies.frame hjournal hentries fun e d hd =>
    ⟨hnumber _ (h.sound.parent_live hd), hnumber _ (h.sound.child_live hd)⟩⟩

theorem empty (grace : Nat) : ({ tree := { grace } } : Ledger).Tallied := by
  refine ⟨Tree.sound_empty grace, ∅, rfl, fun b => ?_, rfl, fun e d hd => ?_⟩
  · refine ⟨fun hb => absurd hb (Finset.notMem_empty b), ?_⟩
    rintro ⟨e, d, hd, -⟩
    cases hd
  · cases hd

/-! ### Destroying records -/

theorem detach (h : l.Tallied) (clock : Clock) (x : InodeId) (e : EntryId) :
    (detach clock x l e).Tallied := by
  have hsound := (detached_detach clock x h.sound e).sound
  obtain ⟨bonds, htallies⟩ := h.tallies
  unfold Ledger.detach at hsound ⊢
  cases hremove : l.removeEntry clock e with
  | ok l' =>
    rw [hremove] at hsound
    exact ⟨hsound, htallies.unbind h.sound hremove⟩
  | error x => exact h.frame h.sound rfl rfl fun _ _ => rfl

theorem foldl_detach (h : l.Tallied) (clock : Clock) (x : InodeId) (entries : List EntryId) :
    (entries.foldl (Ledger.detach clock x) l).Tallied := by
  induction entries generalizing l with
  | nil => exact h
  | cons e rest ih => exact ih (h.detach clock x e)

/-- When a record is destroyed, all its entries have come into the journal before. -/
theorem destroy (h : l.Tallied) (clock : Clock) (x : InodeId) : (l.destroy clock x).2.Tallied := by
  have hsound := sound_destroy clock x h.sound
  cases hr : l.tree.record? x with
  | none =>
    rw [destroy_of_none clock x hr] at hsound ⊢
    exact h.frame hsound rfl rfl fun _ _ => rfl
  | some r =>
    obtain ⟨-, bonds, htallies⟩ :=
      h.foldl_detach clock x (r.links.elements ++ r.childList.map Prod.snd)
    have hjournal : (l.destroy clock x).2.journal =
        ((r.links.elements ++ r.childList.map Prod.snd).foldl (Ledger.detach clock x) l).journal := by
      simp only [Ledger.destroy, hr]
    have hdestroyed := destroyed_destroy clock x h.sound hr
    have htree := tree_destroy clock x hr
    generalize (r.links.elements ++ r.childList.map Prod.snd).foldl (Ledger.detach clock x) l = m at *
    refine ⟨hsound, bonds, htallies.frame hjournal ?_ fun e d hd => ?_⟩
    · rw [htree, Tree.entries_dropRecord]
    · -- no entry into the record or out of it is left, and the others keep their ends
      have hends := (hdestroyed.entryOf?_eq_some_iff e d).1
        (by rw [htree, Tree.entryOf?_dropRecord, hd])
      have hkept : ∀ i, i ≠ x → (l.destroy clock x).2.tree.number? i = m.tree.number? i :=
        fun i hi => by rw [htree, Tree.number?, Tree.record?_dropRecord, if_neg hi, Tree.number?]
      exact ⟨hkept _ hends.2.1, hkept _ hends.2.2⟩

theorem invalidate (h : l.Tallied) (clock : Clock) (x : InodeId) : (l.invalidate clock x).Tallied := by
  have hdestroy := h.destroy clock x
  unfold Ledger.invalidate
  generalize l.destroy clock x = outcome at hdestroy ⊢
  obtain ⟨destroyed, l'⟩ := outcome
  cases destroyed
  · exact hdestroy
  · exact hdestroy.frame hdestroy.sound rfl rfl fun _ _ => rfl

/-! ### Changes of a ledger -/

theorem insertRecord (h : l.Tallied) {a : Attributes} {token : IdentityToken}
    (hsound : (l.insertRecord a token).2.tree.Sound) (fits : (l.insertRecord a token).2.tree.Fits) :
    (l.insertRecord a token).2.Tallied := by
  refine h.frame hsound (journal_insertRecord l a token) ?_ fun i hi => ?_
  · rw [tree_insertRecord]
    rfl
  · obtain ⟨r, hr⟩ := hi
    rw [tree_insertRecord] at fits ⊢
    rw [Tree.number?, Tree.record?_insertRecord_of_some h.sound.inodes_wellFormed fits hr,
      Tree.number?, hr]

variable {known : Testimony} {clock : Clock}

/-- Every change that binds or unbinds a name goes into the journal, and no other change does. -/
theorem edit (hnames : ∀ name, known.listed name → Path.Named name) (h : l.Tallied)
    (hedit : Edit known clock l l') (fits : l'.tree.Fits) : l'.Tallied := by
  have hsound : l'.tree.Sound := hedit.tree.sound h.sound fits
  cases hedit with
  | note event => exact h.frame hsound rfl rfl fun _ _ => rfl
  | insert _ _ => exact h.insertRecord hsound fits
  | @replace old _ _ _ _ _ => exact (h.invalidate clock old).insertRecord hsound fits
  | refresh => exact h.frame hsound rfl rfl fun _ _ => Tree.number?_refreshFingerprint ..
  | bind hname hadd =>
    obtain ⟨bonds, htallies⟩ := h.tallies
    exact ⟨hsound, htallies.bind h.sound (hnames _ hname) hadd fits⟩
  | unbind hremove =>
    obtain ⟨bonds, htallies⟩ := h.tallies
    exact ⟨hsound, htallies.unbind h.sound hremove⟩
  | wait =>
    exact h.frame hsound rfl (Tree.entries_orphanIfUnlinked ..) fun _ _ =>
      Tree.number?_orphanIfUnlinked ..
  | root _ => exact h.frame hsound rfl rfl fun _ _ => rfl
  | reclaim =>
    exact keep_reclaim (fun _ x h => h.destroy clock x) _ (h.frame h.sound rfl rfl fun _ _ => rfl)

end Tallied

/-- The journal goes on to be complete. -/
theorem Edits.tallied {known : Testimony} {clock : Clock}
    (hnames : ∀ name, known.listed name → Path.Named name) (h : Edits known clock l l')
    (hl : l.Tallied) (fits : l'.tree.Fits) : l'.Tallied :=
  h.keep (fun _ _ hedit _ fits hl => hl.edit hnames hedit fits) hl.sound fits hl

end Ledger

/-! ### Runs -/

variable {σ H : Type} {fs : Filesystem σ H} {world : σ → Prop}

/-- Calls keep `world`, and the names that are listed in it stay in one piece as parts of paths. -/
structure Filesystem.Spells (fs : Filesystem σ H) (world : σ → Prop) : Prop where
  keeps : fs.Vouches world {}
  undivided : ∀ directory files listing, world files →
    ((fs.list directory).run files).1 = .ok listing → ∀ e ∈ listing, Path.Undivided e.name

theorem Filesystem.Spells.vouches (h : fs.Spells world) :
    fs.Vouches world { listed := Path.Named } :=
  { h.keeps with
    listed := fun directory files listing hw hlisting e he hproper =>
      ⟨h.undivided directory files listing hw hlisting e he, hproper⟩ }

/-- All names on the disk stay in one piece as parts of paths. -/
def Disk.Spelled (d : Disk) : Prop :=
  ∀ n ∈ d.nodes, (∀ p ∈ n.childMap.toList, Path.Undivided p.1) ∧
    ∀ e ∈ n.phantoms, Path.Undivided e.name

instance (d : Disk) : Decidable d.Spelled :=
  inferInstanceAs (Decidable (∀ n ∈ d.nodes, _ ∧ _))

theorem Disk.spells : Disk.filesystem.Spells Disk.Spelled where
  keeps := Disk.vouches _
  undivided := by
    intro s d listing hd hlisting e he
    change d.list s = .ok listing at hlisting
    unfold Disk.list at hlisting
    split at hlisting
    · cases hlisting
    · next n hn =>
      split at hlisting
      · cases hlisting
      · split at hlisting
        · next children hchildren =>
          cases hlisting
          obtain ⟨hnames, hphantoms⟩ := hd n (List.mem_of_getElem? hn)
          simp only [Disk.listing, List.mem_append, List.mem_map] at he
          rcases he with (hdots | ⟨p, hp, rfl⟩) | hphantom
          · -- the directory itself and the one above
            rcases List.mem_pair.1 hdots with rfl | rfl
            · exact (by decide : Path.Undivided Path.dot)
            · exact (by decide : Path.Undivided Path.dotDot)
          · exact hnames p (by rwa [Node.childMap, hchildren])
          · exact hphantoms e hphantom
        · cases hlisting

namespace Tracker

variable {w : Tracker σ}

/-- What a run has done to its ledger is in the journal. -/
theorem Reached.tallied (hfs : fs.Spells world) (h : Reached fs world (fun _ => world) w)
    (fits : w.tree.Fits) : world w.files ∧ w.ledger.Tallied := by
  induction h with
  | start hstart => exact ⟨hstart, .empty _⟩
  | @call w strict c _ ih =>
    obtain ⟨hw, htallied⟩ := ih ((c.grows strict w).fits fits)
    have hedited := c.edits hfs.vouches strict w hw
    exact ⟨hedited.files, hedited.edits.tallied (fun _ => id) htallied fits⟩
  | elsewhere _ hmoved ih => exact ⟨hmoved, (ih fits).2⟩

/-- The journal is complete: in every state of a run, whatever the filesystem answered and whether calls
failed, replaying it from no bonds at all never meets a bond that comes twice or goes without having
been there, and it gives exactly the bonds of the entries, one for each. -/
theorem Reached.replay_journal (hfs : fs.Spells world) (h : Reached fs world (fun _ => world) w)
    (fits : w.tree.Fits) :
    ∃ bonds, Observation.replay w.ledger.journal = some bonds ∧
      (∀ b, b ∈ bonds ↔ w.tree.Bonded b) ∧ bonds.card = w.tree.entryCount := by
  obtain ⟨bonds, htallies⟩ := (h.tallied hfs fits).2.tallies
  exact ⟨bonds, htallies.replay_eq, htallies.mem_iff, htallies.card_eq⟩

/-- A tracker that has seen a file come and go, and has then been asked to scan what is not there. -/
def cameAndWent : Tracker Disk :=
  let seen := Call.rescanRoots.after Disk.filesystem false
    ⟨Disk.empty.perform (.create (.ofString "/a")), {}, fun _ => 0, { tree := {} }⟩
  (Call.scan 7 true).after Disk.filesystem false
    (Call.rescanRoots.after Disk.filesystem false { seen with files := .empty })

theorem replay_journal_cameAndWent :
    Disk.filesystem.Spells Disk.Spelled ∧
      Reached Disk.filesystem Disk.Spelled (fun _ => Disk.Spelled) cameAndWent ∧
      cameAndWent.tree.Fits ∧
      ∃ bonds, Observation.replay cameAndWent.ledger.journal = some bonds ∧
        (∀ b, b ∈ bonds ↔ cameAndWent.tree.Bonded b) ∧
        bonds.card = cameAndWent.tree.entryCount := by
  have hreached : Reached Disk.filesystem Disk.Spelled (fun _ => Disk.Spelled) cameAndWent :=
    .call false (.scan 7 true) (.call false .rescanRoots
      (.elsewhere (.call false .rescanRoots (.start (by decide +kernel))) (by decide +kernel)))
  have fits : cameAndWent.tree.Fits := by decide +kernel
  exact ⟨Disk.spells, hreached, fits, hreached.replay_journal Disk.spells fits⟩

end Tracker

end TreeWatch

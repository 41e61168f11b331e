import TreeWatch.Proofs.Tree.Consistent

/-!
# Changes keep trees sound

Each change of the tree keeps the places in which records and entries are kept in agreement.

## Main definitions

- `Tree.Sound` : a consistent tree whose arenas and waiting records are in order

## Main results

- `Tree.Sound.insertRecord`, `Tree.Sound.addEntry`, `Tree.Sound.removeEntry` and so on

## Design notes

A change that puts something into an arena needs the arena to fit its slot numbers afterwards.
Nothing is asked of generations.
-/

namespace TreeWatch.Tree

/-- A consistent tree whose arenas are in order and in which only records wait that may be
destroyed. -/
structure Sound (t : Tree) : Prop extends t.Consistent where
  inodes_wellFormed : t.inodes.WellFormed
  entries_wellFormed : t.entries.WellFormed
  /-- Waiting records are in the tree, unbound and not its root. -/
  waiting : ∀ {i}, t.isOrphan i → t.root ≠ some i ∧ ∃ r, t.record? i = some r ∧ r.isUnlinked

theorem sound_empty (grace : Nat) : ({ grace } : Tree).Sound where
  link_iff := by
    intro i r hr
    cases hr
  child_iff := by
    intro i r hr
    cases hr
  parent_live := by
    intro e b hb
    cases hb
  child_live := by
    intro e b hb
    cases hb
  directory_iff := by
    intro i r hr
    cases hr
  ino_iff := by
    intro ino i
    constructor
    · intro h
      cases h
    · rintro ⟨r, hr, -⟩
      cases hr
  inodes_wellFormed := Arena.wellFormed_empty
  entries_wellFormed := Arena.wellFormed_empty
  waiting := by
    intro i h
    cases h

/-- A record of an inode number, seen through what records say of their objects. -/
theorem exists_ino_iff {t : Tree} {ino : UInt64} {i : InodeId} :
    (∃ x, t.identity? i = some x ∧ x.1.ino = ino) ↔ ∃ r, t.record? i = some r ∧ r.ino = ino := by
  unfold identity?
  cases t.record? i <;> simp [InodeRecord.identity]

namespace Sound

variable {t : Tree}

/-! ### New records -/

section insertRecord

variable {attributes : Attributes} {token : IdentityToken}

/-- A record put in under a free inode number keeps the tree consistent. -/
theorem insertRecord (h : t.Sound) (hino : t.lookupIno attributes.ino = none)
    (fits : (t.insertRecord attributes token).2.Fits) :
    (t.insertRecord attributes token).2.Sound where
  link_iff := by
    intro i r hr e
    rw [record?_insertRecord h.inodes_wellFormed fits] at hr
    split at hr
    · next hi =>
      cases hr
      constructor
      · intro he
        simp at he
      · rintro ⟨b, hb, hchild⟩
        obtain ⟨r', hr'⟩ := h.child_live hb
        exact absurd (hchild.trans hi) (ne_fst_insertRecord h.inodes_wellFormed fits hr')
    · exact h.link_iff hr e
  child_iff := by
    intro i r hr name e
    rw [record?_insertRecord h.inodes_wellFormed fits] at hr
    split at hr
    · next hi =>
      cases hr
      constructor
      · intro he
        simp at he
      · rintro ⟨b, hb, hparent, -⟩
        obtain ⟨r', hr'⟩ := h.parent_live hb
        exact absurd (hparent.trans hi) (ne_fst_insertRecord h.inodes_wellFormed fits hr')
    · exact h.child_iff hr name e
  parent_live := by
    intro e b hb
    obtain ⟨r, hr⟩ := h.parent_live hb
    exact ⟨r, record?_insertRecord_of_some h.inodes_wellFormed fits hr⟩
  child_live := by
    intro e b hb
    obtain ⟨r, hr⟩ := h.child_live hb
    exact ⟨r, record?_insertRecord_of_some h.inodes_wellFormed fits hr⟩
  directory_iff := by
    intro i r hr
    rw [record?_insertRecord h.inodes_wellFormed fits] at hr
    split at hr
    · cases hr
      exact InodeRecord.isDirectory_ofObject ..
    · exact h.directory_iff hr
  ino_iff := by
    intro ino i
    rw [lookupIno_insertRecord, record?_insertRecord h.inodes_wellFormed fits]
    -- the number was free, so the new record is the only one that says it
    by_cases hi : i = (t.insertRecord attributes token).1
    · have hunused : t.lookupIno ino ≠ some i := by
        intro hlookup
        obtain ⟨r, hr, -⟩ := (h.ino_iff ino i).1 hlookup
        exact ne_fst_insertRecord h.inodes_wellFormed fits hr hi
      by_cases hsame : ino = attributes.ino
      · simp [hi, hsame, InodeRecord.ofObject]
      · rw [if_neg hsame, if_pos hi]
        simp [hunused, InodeRecord.ofObject, Ne.symm hsame]
    · by_cases hsame : ino = attributes.ino
      · have hnone := mt (h.ino_iff ino i).2 (by rw [hsame, hino]; simp)
        simpa [hi, hsame, Ne.symm hi] using hnone
      · rw [if_neg hsame, if_neg hi]
        exact h.ino_iff ino i
  inodes_wellFormed := h.inodes_wellFormed.insert _
  entries_wellFormed := h.entries_wellFormed
  waiting := by
    intro i hi
    obtain ⟨hroot, r, hr, hunlinked⟩ := h.waiting hi
    exact ⟨hroot, r, record?_insertRecord_of_some h.inodes_wellFormed fits hr, hunlinked⟩

end insertRecord

/-! ### Binding a name -/

section withEntry

variable {parent child : InodeId} {name : Bytes} {r r' : InodeRecord}

/-- A name bound where it was free keeps the tree consistent. -/
theorem withEntry (h : t.Sound) (hchild : t.record? child = some r)
    (hparent : t.record? parent = some r') (hdir : r'.isDirectory)
    (hfree : r'.childEntryOf? name = none) (fits : (t.withEntry parent name child).Fits) :
    (t.withEntry parent name child).Sound where
  link_iff := by
    intro i s' hs' e
    obtain ⟨s, hs, -, -, hlinks, -⟩ := exists_record?_withEntry hparent hdir hs'
    have hnew := entryOf?_insert_withEntry h.entries_wellFormed fits
    rw [hlinks, h.link_iff hs, entryOf?_withEntry h.entries_wellFormed fits]
    split
    · next he =>
      simp [he, hnew, eq_comm]
    · next he =>
      simp [he]
  child_iff := by
    intro i s' hs' name' e
    obtain ⟨s, hs, -, -, -, hchildren⟩ := exists_record?_withEntry hparent hdir hs'
    have hnew := entryOf?_insert_withEntry h.entries_wellFormed fits
    rw [hchildren, entryOf?_withEntry h.entries_wellFormed fits]
    -- only in one place a name has been bound, and there it was free
    by_cases hplace : i = parent ∧ name' = name
    · obtain ⟨rfl, rfl⟩ := hplace
      have hnone : ¬∃ b, t.entryOf? e = some b ∧ b.parent = i ∧ b.name = name' := by
        rw [← h.child_iff hparent, hfree]
        simp
      rw [if_pos ⟨rfl, rfl⟩]
      split
      · next he => simp [he]
      · next he => simpa [Ne.symm he] using hnone
    · rw [if_neg hplace, h.child_iff hs]
      split
      · next he =>
        simp only [he, hnew, Option.some.injEq, exists_eq_left']
        simp only [reduceCtorEq, false_and, exists_false, false_iff]
        exact fun hsame => hplace ⟨hsame.1.symm, hsame.2.symm⟩
      · rfl
  parent_live := by
    intro e b hb
    rw [entryOf?_withEntry h.entries_wellFormed fits] at hb
    rw [exists_record?_withEntry_iff]
    split at hb
    · cases hb
      exact ⟨_, hparent⟩
    · exact h.parent_live hb
  child_live := by
    intro e b hb
    rw [entryOf?_withEntry h.entries_wellFormed fits] at hb
    rw [exists_record?_withEntry_iff]
    split at hb
    · cases hb
      exact ⟨_, hchild⟩
    · exact h.child_live hb
  directory_iff := by
    intro i s' hs'
    obtain ⟨s, hs, hidentity, hdirectory, -⟩ := exists_record?_withEntry hparent hdir hs'
    rw [hdirectory, InodeRecord.kind_eq_of_identity_eq hidentity]
    exact h.directory_iff hs
  ino_iff := by
    intro ino i
    have hlookup : (t.withEntry parent name child).lookupIno ino = t.lookupIno ino := rfl
    rw [hlookup, h.ino_iff, ← exists_ino_iff, ← exists_ino_iff, identity?_withEntry]
  inodes_wellFormed := (h.inodes_wellFormed.modify ..).modify ..
  entries_wellFormed := h.entries_wellFormed.insert _
  waiting := by
    intro i hi
    -- what is bound does not wait any more
    have hother : i ≠ child ∧ t.isOrphan i := by
      have herase : (t.withEntry parent name child).isOrphan i = (t.orphans.erase child).contains i :=
        rfl
      rw [herase, OrderedMap.contains, OrderedMap.get?_erase] at hi
      split at hi
      · simp at hi
      · next hne => exact ⟨hne, hi⟩
    obtain ⟨hroot, s, hs, hunlinked⟩ := h.waiting hother.2
    obtain ⟨s', hs'⟩ := exists_record?_withEntry_iff.2 ⟨s, hs⟩
    refine ⟨hroot, s', hs', ?_⟩
    obtain ⟨s₀, hs₀, -, -, hlinks, -⟩ := exists_record?_withEntry hparent hdir hs'
    rw [hs] at hs₀
    cases hs₀
    rw [InodeRecord.isUnlinked_iff] at hunlinked ⊢
    intro e he
    rcases (hlinks e).1 he with ⟨hsame, -⟩ | hold
    · exact hother.1 hsame
    · exact hunlinked e hold

end withEntry

/-! ### Unbinding a name -/

section withoutEntry

variable {e : EntryId} {b : DirectoryEntry} {entries : Arena DirectoryEntry}

/-- An entry taken out of both of its ends keeps the tree consistent. -/
theorem withoutEntry (h : t.Sound) (hremove : t.entries.remove e.index = some (b, entries)) :
    (t.withoutEntry e b entries).Sound where
  link_iff := by
    intro i s' hs' e'
    obtain ⟨s, hs, -, -, hlinks, -⟩ := exists_record?_withoutEntry hs'
    have hb : t.entryOf? e = some b := Arena.get?_of_remove hremove
    rw [hlinks, h.link_iff hs, entryOf?_withoutEntry hremove]
    split
    · next he =>
      simp [he, hb, eq_comm]
    · next he =>
      simp [he]
  child_iff := by
    intro i s' hs' name e'
    obtain ⟨s, hs, -, -, -, hchildren⟩ := exists_record?_withoutEntry hs'
    have hb : t.entryOf? e = some b := Arena.get?_of_remove hremove
    rw [hchildren, entryOf?_withoutEntry hremove]
    by_cases hplace : i = b.parent ∧ name = b.name
    · obtain ⟨rfl, rfl⟩ := hplace
      -- the name was bound by the removed entry and no other
      have honly : ∀ b', t.entryOf? e' = some b' → b'.parent = b.parent → b'.name = b.name →
          e' = e := fun b' hb' hparent hname => h.eq_of_name_eq hb' hb hparent hname
      rw [if_pos ⟨rfl, rfl⟩]
      split
      · simp
      · next he =>
        simp only [reduceCtorEq, false_iff, not_exists, not_and]
        exact fun b' hb' hparent hname => he (honly b' hb' hparent hname)
    · rw [if_neg hplace, h.child_iff hs]
      split
      · next he =>
        simp only [he, hb, Option.some.injEq, exists_eq_left', reduceCtorEq, false_and,
          exists_false, iff_false]
        exact fun hsame => hplace ⟨hsame.1.symm, hsame.2.symm⟩
      · rfl
  parent_live := by
    intro e' b' hb'
    rw [entryOf?_withoutEntry hremove] at hb'
    rw [exists_record?_withoutEntry_iff]
    split at hb'
    · cases hb'
    · exact h.parent_live hb'
  child_live := by
    intro e' b' hb'
    rw [entryOf?_withoutEntry hremove] at hb'
    rw [exists_record?_withoutEntry_iff]
    split at hb'
    · cases hb'
    · exact h.child_live hb'
  directory_iff := by
    intro i s' hs'
    obtain ⟨s, hs, hidentity, hdirectory, -⟩ := exists_record?_withoutEntry hs'
    rw [hdirectory, InodeRecord.kind_eq_of_identity_eq hidentity]
    exact h.directory_iff hs
  ino_iff := by
    intro ino i
    have hlookup : (t.withoutEntry e b entries).lookupIno ino = t.lookupIno ino := rfl
    rw [hlookup, h.ino_iff, ← exists_ino_iff, ← exists_ino_iff, identity?_withoutEntry]
  inodes_wellFormed := (h.inodes_wellFormed.modify ..).modify ..
  entries_wellFormed := h.entries_wellFormed.remove hremove
  waiting := by
    intro i hi
    obtain ⟨hroot, s, hs, hunlinked⟩ := h.waiting hi
    obtain ⟨s', hs'⟩ := exists_record?_withoutEntry_iff.2 ⟨s, hs⟩
    refine ⟨hroot, s', hs', ?_⟩
    obtain ⟨s₀, hs₀, -, -, hlinks, -⟩ := exists_record?_withoutEntry hs'
    rw [hs] at hs₀
    cases hs₀
    rw [InodeRecord.isUnlinked_iff] at hunlinked ⊢
    exact fun e' he' => hunlinked e' ((hlinks e').1 he').1

end withoutEntry

/-! ### Waiting records and the root -/

/-- An unbound record that is not the root may wait. -/
theorem startWaiting (h : t.Sound) {i : InodeId} {r : InodeRecord} (hroot : t.root ≠ some i)
    (hr : t.record? i = some r) (hunlinked : r.isUnlinked) (now : Instant) :
    (t.startWaiting i now).Sound where
  toConsistent := ⟨h.link_iff, h.child_iff, h.parent_live, h.child_live, h.directory_iff, h.ino_iff⟩
  inodes_wellFormed := h.inodes_wellFormed
  entries_wellFormed := h.entries_wellFormed
  waiting := by
    intro j hj
    have hinsert : (t.startWaiting i now).isOrphan j = (t.orphans.insert i now).contains j := rfl
    rw [hinsert, OrderedMap.contains, OrderedMap.get?_insert] at hj
    split at hj
    · next hji =>
      subst hji
      exact ⟨hroot, r, hr, hunlinked⟩
    · exact h.waiting hj

theorem waitIfUnlinked (h : t.Sound) (i : InodeId) (now : Instant) :
    (t.waitIfUnlinked i now).Sound := by
  rcases waitIfUnlinked_cases (t := t) i now with heq | ⟨heq, hroot, r, hr, hunlinked⟩
  · rwa [heq]
  · rw [heq]
    exact h.startWaiting hroot hr hunlinked now

theorem orphanIfUnlinked (h : t.Sound) (i : InodeId) (now : Instant) :
    (t.orphanIfUnlinked i now).2.Sound := by
  unfold Tree.orphanIfUnlinked
  split
  · next r hr =>
    split
    · next hwait =>
      simp only [Bool.and_eq_true, decide_eq_true_eq] at hwait
      exact h.startWaiting hwait.1.2 hr hwait.1.1 now
    · exact h
  · exact h

theorem setRoot (h : t.Sound) (i : InodeId) : (t.setRoot i).Sound where
  toConsistent := ⟨h.link_iff, h.child_iff, h.parent_live, h.child_live, h.directory_iff, h.ino_iff⟩
  inodes_wellFormed := h.inodes_wellFormed
  entries_wellFormed := h.entries_wellFormed
  waiting := by
    intro j hj
    have herase : (t.setRoot i).isOrphan j = (t.orphans.erase i).contains j := rfl
    rw [herase, OrderedMap.contains, OrderedMap.get?_erase] at hj
    split at hj
    · simp at hj
    · next hne =>
      obtain ⟨-, hrecord⟩ := h.waiting hj
      exact ⟨fun hroot => hne (Option.some.inj hroot).symm, hrecord⟩

/-- Only the fingerprint of a record changes. -/
theorem refreshFingerprint (h : t.Sound) (i : InodeId) (fingerprint : Fingerprint) :
    (t.refreshFingerprint i fingerprint).Sound := by
  have hrecord : ∀ {j r'}, (t.refreshFingerprint i fingerprint).record? j = some r' →
      ∃ r, t.record? j = some r ∧ ∃ fp, r' = { r with fingerprint := fp } := by
    intro j r' hr'
    rw [Tree.refreshFingerprint, record?_modifyRecord, Option.map_eq_some_iff] at hr'
    obtain ⟨r, hr, rfl⟩ := hr'
    refine ⟨r, hr, ?_⟩
    split
    · exact ⟨fingerprint, rfl⟩
    · exact ⟨r.fingerprint, rfl⟩
  have hlive : ∀ {j r}, t.record? j = some r →
      ∃ fp, (t.refreshFingerprint i fingerprint).record? j = some { r with fingerprint := fp } := by
    intro j r hr
    rw [Tree.refreshFingerprint, record?_modifyRecord, hr]
    by_cases hj : j = i
    · exact ⟨fingerprint, by simp [hj]⟩
    · exact ⟨r.fingerprint, by simp [hj]⟩
  refine ⟨⟨?_, ?_, ?_, ?_, ?_, ?_⟩, h.inodes_wellFormed.modify .., h.entries_wellFormed, ?_⟩
  · intro j r' hr'
    obtain ⟨r, hr, fp, rfl⟩ := hrecord hr'
    have := h.link_iff hr
    exact this
  · intro j r' hr'
    obtain ⟨r, hr, fp, rfl⟩ := hrecord hr'
    have := h.child_iff hr
    exact this
  · intro e b hb
    obtain ⟨r, hr⟩ := h.parent_live hb
    obtain ⟨fp, hr'⟩ := hlive hr
    exact ⟨_, hr'⟩
  · intro e b hb
    obtain ⟨r, hr⟩ := h.child_live hb
    obtain ⟨fp, hr'⟩ := hlive hr
    exact ⟨_, hr'⟩
  · intro j r' hr'
    obtain ⟨r, hr, fp, rfl⟩ := hrecord hr'
    have := h.directory_iff hr
    exact this
  · intro ino j
    have hlookup : (t.refreshFingerprint i fingerprint).lookupIno ino = t.lookupIno ino := rfl
    rw [hlookup, h.ino_iff]
    constructor
    · rintro ⟨r, hr, hino⟩
      obtain ⟨fp, hr'⟩ := hlive hr
      exact ⟨_, hr', hino⟩
    · rintro ⟨r', hr', hino⟩
      obtain ⟨r, hr, fp, rfl⟩ := hrecord hr'
      exact ⟨r, hr, hino⟩
  · intro j hj
    obtain ⟨hroot, r, hr, hunlinked⟩ := h.waiting hj
    obtain ⟨fp, hr'⟩ := hlive hr
    exact ⟨hroot, _, hr', hunlinked⟩

/-! ### Taking out a record -/

/-- A record that no entry mentions can be taken out. -/
theorem dropRecord (h : t.Sound) {i : InodeId} {r : InodeRecord} (hr : t.record? i = some r)
    (halone : ∀ e b, t.entryOf? e = some b → b.parent ≠ i ∧ b.child ≠ i) :
    (t.dropRecord i).2.Sound where
  link_iff := by
    intro j r hr e
    rw [record?_dropRecord] at hr
    split at hr
    · cases hr
    · rw [entryOf?_dropRecord]
      exact h.link_iff hr e
  child_iff := by
    intro j r hr name e
    rw [record?_dropRecord] at hr
    split at hr
    · cases hr
    · rw [entryOf?_dropRecord]
      exact h.child_iff hr name e
  parent_live := by
    intro e b hb
    rw [entryOf?_dropRecord] at hb
    rw [record?_dropRecord, if_neg (halone e b hb).1]
    exact h.parent_live hb
  child_live := by
    intro e b hb
    rw [entryOf?_dropRecord] at hb
    rw [record?_dropRecord, if_neg (halone e b hb).2]
    exact h.child_live hb
  directory_iff := by
    intro j r hr
    rw [record?_dropRecord] at hr
    split at hr
    · cases hr
    · exact h.directory_iff hr
  ino_iff := by
    intro ino j
    obtain ⟨inodes, hremove⟩ := exists_remove_of_some hr
    -- the number leads to the record that goes, so it is forgotten with it
    have hregistered : t.byIno.get? r.ino = some i := (h.ino_iff r.ino i).2 ⟨r, hr, rfl⟩
    have hlookup : (t.dropRecord i).2.lookupIno ino =
        if ino = r.ino then none else t.lookupIno ino := by
      rw [dropRecord_of_some hremove]
      simp only [hregistered, if_true]
      exact SortedMap.get?_erase ..
    rw [hlookup, record?_dropRecord]
    by_cases hj : j = i
    · subst hj
      rw [if_pos rfl]
      by_cases hino : ino = r.ino
      · simp [hino]
      · rw [if_neg hino, h.ino_iff, hr]
        simp [Ne.symm hino]
    · rw [if_neg hj]
      by_cases hino : ino = r.ino
      · rw [if_pos hino]
        constructor
        · intro hnone
          cases hnone
        · rintro ⟨r', hr', hino'⟩
          exact absurd (h.eq_of_ino_eq hr' hr (hino'.trans hino)) hj
      · rw [if_neg hino, h.ino_iff]
  inodes_wellFormed := by
    obtain ⟨inodes, hremove⟩ := exists_remove_of_some hr
    rw [dropRecord_of_some hremove]
    exact h.inodes_wellFormed.remove hremove
  entries_wellFormed := by
    rw [entries_dropRecord]
    exact h.entries_wellFormed
  waiting := by
    intro j hj
    rw [isOrphan, orphans_dropRecord, OrderedMap.contains, OrderedMap.get?_erase] at hj
    split at hj
    · simp at hj
    · next hne =>
      obtain ⟨hroot, hrecord⟩ := h.waiting hj
      rw [root_dropRecord, record?_dropRecord, if_neg hne]
      refine ⟨?_, hrecord⟩
      split
      · simp
      · exact hroot

end Sound

end TreeWatch.Tree

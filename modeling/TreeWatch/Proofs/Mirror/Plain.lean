import TreeWatch.Disk.Scripted
import TreeWatch.Proofs.Mirror.Name
import TreeWatch.Proofs.Tracker.Does

/-!
# Work on a plain disk

The tracker at work on a filesystem that answers as a disk does and stays as it is. Whatever the tree
was like before, all that happens to what it shows are updates.

## Main definitions

- `Filesystem.Plain` : in a state, a filesystem answers as a disk does
- `Tracker.Ready` : the tracker can begin to work
- `Tracker.Worked` : what all work has in common

## Main results

- `Disk.plain`, `ScriptedDisk.Clean.plain` : where filesystems are plain
- `Tracker.does_resolve` : finding the record of an object
-/

namespace TreeWatch

/-! ### Plain filesystems -/

/-- In a state, a filesystem answers all calls as a disk does, and it stays in that state. -/
structure Filesystem.Plain {σ : Type} (fs : Filesystem σ Serial) (files : σ) (d : Disk) : Prop where
  attributes : ∀ s, (fs.attributes s).run files = (d.attributes s, files)
  identityToken : ∀ s, (fs.identityToken s).run files = (d.identityToken s, files)
  openByToken : ∀ token, (fs.openByToken token).run files = (d.openByToken token, files)
  list : ∀ s, (fs.list s).run files = (d.list s, files)
  openChild : ∀ s name, (fs.openChild s name).run files = (d.openChild s name, files)
  openDirectory : ∀ s, (fs.openDirectory s).run files = (d.openDirectory s, files)
  openRoot : fs.openRoot.run files = (.ok Disk.rootSerial, files)
  nesting : d.nodes.length ≤ fs.nesting files

theorem Disk.plain (d : Disk) : Disk.filesystem.Plain d d where
  attributes _ := rfl
  identityToken _ := rfl
  openByToken _ := rfl
  list _ := rfl
  openChild _ _ := rfl
  openDirectory _ := rfl
  openRoot := rfl
  nesting := Nat.le_refl _

/-- Nothing is armed and nothing is replaced. -/
structure ScriptedDisk.Clean (d : ScriptedDisk) : Prop where
  faults : d.faults = []
  overrides : d.overrides = .empty
  listings : d.listings = .empty
  aliases : d.aliases = []

theorem ScriptedDisk.Clean.plain {d : ScriptedDisk} (h : d.Clean) :
    ScriptedDisk.filesystem.Plain d d.disk := by
  obtain ⟨disk, faults, overrides, listings, aliases, broken⟩ := d
  obtain ⟨rfl, rfl, rfl, rfl⟩ := h
  constructor
  · intro s
    change ((disk.attributes s).map fun a => a, _) = _
    cases disk.attributes s <;> rfl
  · exact fun _ => rfl
  · exact fun _ => rfl
  · exact fun _ => rfl
  · exact fun _ _ => rfl
  · exact fun _ => rfl
  · rfl
  · show disk.nodes.length ≤ (disk.nodes.length + 0 + 1) * 1
    omega

namespace Disk

variable {d : Disk} {s o : Serial} {n : Node}

theorem attributes_eq (hn : d.node? s = some n) :
    d.attributes s = .ok ⟨n.ino, n.mode, n.fingerprint⟩ := by
  rw [attributes, hn]

theorem identityToken_eq (hn : d.node? s = some n) (hsize : ¬d.Oversized s) :
    d.identityToken s = .ok (tokenOf s) := by
  have hfalse : n.oversized = false := by
    cases h : n.oversized with
    | false => rfl
    | true => exact absurd ⟨n, hn, h⟩ hsize
  rw [identityToken, hn]
  simp [hfalse]

theorem identityToken_of_oversized (hsize : d.Oversized s) :
    d.identityToken s = .error (.tooLarge oversizedTokenSize) := by
  obtain ⟨n, hn, htrue⟩ := hsize
  rw [identityToken, hn]
  simp [htrue]

theorem eq_tokenOf_of_identityToken {token : IdentityToken} (h : d.identityToken s = .ok token) :
    token = tokenOf s := by
  unfold identityToken at h
  split at h
  · split at h
    · cases h
    · cases h
      rfl
  · cases h

/-- An object without names cannot be opened by its token. -/
theorem openByToken_of_not_named (hd : d.Regular) (hn : d.node? o = some n) (ho : ¬d.Named o) :
    d.openByToken (tokenOf o) = .error .stale := by
  have hlinks : ¬0 < n.links := fun hpos => ho ((hd.named_iff hn).2 hpos)
  rw [openByToken, serialIn?_tokenOf (hd.lt_capacity hn)]
  simp [hn, hlinks]

end Disk

/-! ### Calls -/

namespace Filesystem.Plain

open Tracker

variable {σ : Type} {fs : Filesystem σ Serial} {d : Disk} {w : Tracker σ} {s : Serial}

theorem run_attributes (h : fs.Plain w.files d) (s : Serial) :
    (Tracker.attributes fs s).run w = (d.attributes s, w) := by
  rw [Tracker.attributes, run_ask, h.attributes]

theorem run_identityToken (h : fs.Plain w.files d) (s : Serial) :
    (Tracker.identityToken fs s).run w = (d.identityToken s, w) := by
  rw [Tracker.identityToken, run_ask, h.identityToken]

theorem run_list (h : fs.Plain w.files d) (s : Serial) : (Tracker.list fs s).run w = (d.list s, w) := by
  rw [Tracker.list, run_ask, h.list]

theorem run_openChild (h : fs.Plain w.files d) (hdir : d.isDirectory s) (name : Bytes) :
    ∃ leases, (Tracker.openChild fs s name).run w = (.ok (d.child? s name), { w with leases }) := by
  refine ⟨if (d.child? s name).isSome then w.leases.take else w.leases, ?_⟩
  rw [Tracker.openChild, run_askOpen, h.openChild, Disk.openChild, if_pos hdir]

theorem run_openDirectory (h : fs.Plain w.files d) (hdir : d.isDirectory s) :
    (Tracker.openDirectory fs s).run w = (.ok s, { w with leases := w.leases.take }) := by
  rw [Tracker.openDirectory, run_askOpen, h.openDirectory, Disk.openDirectory, if_pos hdir]
  rfl

theorem run_openRoot (h : fs.Plain w.files d) :
    (Tracker.openRoot fs).run w = (.ok Disk.rootSerial, { w with leases := w.leases.take }) := by
  rw [Tracker.openRoot, run_askOpen, h.openRoot]
  rfl

theorem run_openDirectory_of_not (h : fs.Plain w.files d) (hdir : ¬d.isDirectory s) :
    (Tracker.openDirectory fs s).run w = (.error ⟨.openDirectory, .notDirectory⟩, w) := by
  rw [Tracker.openDirectory, run_askOpen, h.openDirectory, Disk.openDirectory, if_neg hdir]

theorem run_resolve_of_oversized (h : fs.Plain w.files d) (hsize : d.Oversized s) :
    (Tracker.resolve fs s).run w = (.error (.tooLarge Disk.oversizedTokenSize), w) := by
  obtain ⟨n, hn, -⟩ := id hsize
  unfold Tracker.resolve
  rw [run_bind, run_wrapping, h.run_attributes, Disk.attributes_eq hn]
  simp only
  rw [run_bind, h.run_identityToken, Disk.identityToken_of_oversized hsize]

end Filesystem.Plain

namespace View

/-- Some record is for the object. -/
def Held (v : View) (d : Disk) (s : Serial) : Prop := ∃ i, v.Holds d i s

variable {d : Disk} {present : Serial → Prop} {v : View} {i x : InodeId} {s o : Serial}
  {a : Attributes}

/-- The record of an object has been found. -/
structure Found (d : Disk) (present : Serial → Prop) (s : Serial) (v : View) (i : InodeId)
    (v' : View) : Prop where
  updates : Updates d present v v'
  current : v'.Current d i s
  held : ∀ c, v'.Held d c → v.Held d c ∨ c = s
  /-- A new record is bound nowhere and has no names inside. -/
  unused : ¬v.Held d s → (∀ name, v'.child i name = none) ∧ ∀ p name, v'.child p name ≠ some i

theorem found_insert (hd : d.Regular) (hunused : v.Unused i) (hs : present s)
    (ha : d.attributes s = .ok a) (hfree : ∀ j x, v.identity j = some x → x.1.ino ≠ a.ino) :
    Found d present s v i (v.insert i a (Disk.tokenOf s)) := by
  refine ⟨.single (.insert hunused hs ha hfree), current_insert ha, ?_, fun _ => ?_⟩
  · rintro c ⟨j, hj⟩
    rcases holds_of_insert hd ha hj with ⟨-, rfl⟩ | ⟨-, hold⟩
    · exact .inr rfl
    · exact .inl ⟨j, hold⟩
  · exact ⟨hunused.out, hunused.into⟩

theorem found_refresh (hi : v.Holds d i s) (ha : d.attributes s = .ok a) :
    Found d present s v i (v.refresh i a.fingerprint) := by
  refine ⟨.single (.refresh hi ha), ?_, ?_, fun hnone => absurd ⟨i, hi⟩ hnone⟩
  · obtain ⟨a', n, ha', hn, hino, hmode⟩ := hi
    rw [Disk.attributes_eq hn] at ha
    cases ha
    refine ⟨_, Disk.attributes_eq hn, ?_⟩
    rw [identity_refresh, ha', Option.map_some, if_pos rfl, ← hino, ← hmode]
  · rintro c ⟨j, hj⟩
    exact .inl ⟨j, holds_refresh.1 hj⟩

theorem found_replace (hd : d.Regular) (hx : v.Holds d x o) (ho : ¬present o)
    (hino : d.inoAt o = a.ino) (hunused : (v.destroy x).Unused i) (hs : present s)
    (ha : d.attributes s = .ok a) :
    Found d present s v i ((v.destroy x).insert i a (Disk.tokenOf s)) := by
  refine ⟨.single (.replace hx ho hino hunused hs ha), current_insert ha, ?_, fun _ => ?_⟩
  · rintro c ⟨j, hj⟩
    rcases holds_of_insert hd ha hj with ⟨-, rfl⟩ | ⟨-, hold⟩
    · exact .inr rfl
    · exact .inl ⟨j, (holds_destroy.1 hold).2⟩
  · exact ⟨hunused.out, hunused.into⟩

end View

theorem Tree.Sound.eq_of_holds {t : Tree} (h : t.Sound) {d : Disk} {i j : InodeId} {s : Serial}
    (hi : t.view.Holds d i s) (hj : t.view.Holds d j s) : i = j := by
  obtain ⟨a, n, ha, hn, hino, -⟩ := hi
  obtain ⟨a', n', ha', hn', hino', -⟩ := hj
  rw [hn] at hn'
  cases hn'
  have hleft := h.lookupIno_eq_some_iff.2 ⟨_, ha, hino⟩
  have hright := h.lookupIno_eq_some_iff.2 ⟨_, ha', hino'⟩
  rw [hleft] at hright
  exact Option.some.inj hright

/-- No name leads to or from a new record. -/
theorem Tree.Sound.unused_fst_insertRecord {t : Tree} (h : t.Sound) {attributes : Attributes}
    {token : IdentityToken} (fits : (t.insertRecord attributes token).2.Fits) :
    t.view.Unused (t.insertRecord attributes token).1 := by
  have hnone := Tree.record?_fst_insertRecord h.inodes_wellFormed fits
  obtain ⟨hout, hinto⟩ := h.child?_of_record?_eq_none hnone
  exact ⟨Tree.identity?_eq_none_iff.2 hnone, hout, hinto⟩

namespace Ledger

variable {l : Ledger} {d : Disk} {present : Serial → Prop} {s o : Serial} {a : Attributes}

theorem found_insertRecord (hsound : l.tree.Sound) (hd : d.Regular)
    (hlookup : l.tree.lookupIno a.ino = none) (hs : present s) (ha : d.attributes s = .ok a)
    (fits : (l.insertRecord a (Disk.tokenOf s)).2.tree.Fits) :
    View.Found d present s l.tree.view (l.insertRecord a (Disk.tokenOf s)).1
      (l.insertRecord a (Disk.tokenOf s)).2.tree.view := by
  rw [tree_insertRecord] at fits
  rw [tree_insertRecord, fst_insertRecord, hsound.view_insertRecord hlookup fits]
  refine View.found_insert hd (hsound.unused_fst_insertRecord fits) hs ha fun j x hx hsame => ?_
  rw [hsound.lookupIno_eq_some_iff.2 ⟨x, hx, hsame⟩] at hlookup
  cases hlookup

theorem found_invalidate {existing : InodeId} (hsound : l.tree.Sound) (hd : d.Regular)
    (hlookup : l.tree.lookupIno a.ino = some existing) (ho : l.tree.view.Holds d existing o)
    (hgone : ¬present o) (hino : d.inoAt o = a.ino) (hs : present s) (ha : d.attributes s = .ok a)
    (clock : Clock)
    (fits : ((l.invalidate clock existing).insertRecord a (Disk.tokenOf s)).2.tree.Fits) :
    View.Found d present s l.tree.view
      ((l.invalidate clock existing).insertRecord a (Disk.tokenOf s)).1
      ((l.invalidate clock existing).insertRecord a (Disk.tokenOf s)).2.tree.view := by
  obtain ⟨x, hx, -⟩ := hsound.lookupIno_eq_some_iff.1 hlookup
  obtain ⟨r, hr, -⟩ := Tree.identity?_eq_some_iff.1 hx
  have hdestroyed := destroyed_destroy clock existing hsound hr
  have hnone := Tree.lookupIno_invalidate clock hsound hlookup
  rw [← tree_invalidate] at hdestroyed
  rw [tree_insertRecord] at fits
  have hunused := hdestroyed.sound.unused_fst_insertRecord fits
  rw [hdestroyed.view_eq hsound] at hunused
  rw [tree_insertRecord, fst_insertRecord, hdestroyed.sound.view_insertRecord hnone fits,
    hdestroyed.view_eq hsound]
  exact View.found_replace hd ho hgone hino hunused hs ha

end Ledger

namespace Tracker

variable {σ ε : Type} {fs : Filesystem σ Serial} {d : Disk} {present : Serial → Prop}
  {w w' w'' : Tracker σ} {s : Serial}

/-! ### Being ready and having worked -/

/-- The filesystem answers as the disk does, the tree is sound, and every record of it is for some
object of the disk. -/
structure Ready (fs : Filesystem σ Serial) (d : Disk) (w : Tracker σ) : Prop where
  plain : fs.Plain w.files d
  sound : w.tree.Sound
  truthful : w.tree.view.Truthful d

/-- The filesystem is as it was, the tree is still sound, and what it shows has been updated. -/
structure Worked (d : Disk) (present : Serial → Prop) (w w' : Tracker σ) : Prop where
  files : w'.files = w.files
  sound : w'.tree.Sound
  updates : View.Updates d present w.tree.view w'.tree.view

theorem Ready.worked (h : Ready fs d w) : Worked d present w w := ⟨rfl, h.sound, .refl⟩

theorem Worked.trans (h : Worked d present w w') (h' : Worked d present w' w'') :
    Worked d present w w'' :=
  ⟨h'.files.trans h.files, h'.sound, h.updates.trans h'.updates⟩

theorem Ready.after (h : Ready fs d w) (hwork : Worked d present w w') : Ready fs d w' :=
  ⟨hwork.files ▸ h.plain, hwork.sound, View.Updates.truthful hwork.updates h.truthful⟩

/-- How many handles are open does not matter. -/
theorem Ready.leases (h : Ready fs d w) (leases : Leases) : Ready fs d { w with leases } :=
  ⟨h.plain, h.sound, h.truthful⟩

/-! ### Finding the record of an object -/

/-- What `resolve` does as long as no number leads to the record of another object. -/
theorem run_resolve {n : Node} (hplain : fs.Plain w.files d) (hn : d.node? s = some n)
    (hsize : ¬d.Oversized s) (htoken : ∀ i, w.tree.lookupIno n.ino = some i →
      ∃ r, w.tree.record? i = some r ∧ r.token = Disk.tokenOf s) :
    (resolve fs s).run w =
      match w.tree.lookupIno n.ino with
      | none => (editGet fun _ l =>
          l.insertRecord ⟨n.ino, n.mode, n.fingerprint⟩ (Disk.tokenOf s)).run w
      | some i =>
        (.ok i, { w with ledger.tree := w.tree.refreshFingerprint i n.fingerprint }) := by
  unfold resolve
  rw [run_bind, run_wrapping, hplain.run_attributes, Disk.attributes_eq hn]
  simp only
  rw [run_bind, hplain.run_identityToken, Disk.identityToken_eq hn hsize]
  simp only
  rw [run_bind, run_look]
  simp only
  cases hlookup : w.tree.lookupIno n.ino with
  | none => rfl
  | some i =>
    obtain ⟨r, hr, heq⟩ := htoken i hlookup
    have hbelongs : (belongsTo fs i (Disk.tokenOf s)).run w = (.ok true, w) := by
      unfold belongsTo
      rw [run_bind, run_look]
      simp [hr, heq]
    simp only
    rw [run_bind, hbelongs]
    rfl

/-- A record belongs to the object whose number it has if it is for that object: another object with
this number has no name left. -/
theorem Ready.run_belongsTo (h : Ready fs d w) (hd : d.Distinguishes present) {existing : InodeId}
    {o : Serial} (ho : w.tree.view.Holds d existing o) (hs : present s)
    (hino : d.inoAt o = d.inoAt s) :
    ∃ leases, (belongsTo fs existing (Disk.tokenOf s)).run w =
      (.ok (decide (o = s)), { w with leases }) := by
  obtain ⟨a, n, ha, hn, -⟩ := id ho
  obtain ⟨r, hr, hidentity⟩ := Tree.identity?_eq_some_iff.1 ha
  have htoken : r.token = Disk.tokenOf o := congrArg Prod.snd hidentity
  have hrun : (belongsTo fs existing (Disk.tokenOf s)).run w =
      (if r.token = Disk.tokenOf s then pure true else tokenOpens fs r.token).run w := by
    unfold belongsTo
    rw [run_bind, run_look]
    simp only [hr]
  rw [hrun, htoken]
  by_cases heq : o = s
  · subst heq
    exact ⟨w.leases, by simp⟩
  · -- the other object has lost its names, so its token is stale
    have hne : Disk.tokenOf o ≠ Disk.tokenOf s := by
      intro hsame
      obtain ⟨m, hm⟩ := hd.exists_node hs
      exact heq (Disk.eq_of_tokenOf_eq (hd.regular.lt_capacity hn) (hd.regular.lt_capacity hm) hsame)
    have hgone : ¬d.Named o := fun hnamed => heq (hd.eq_of_ino_eq (hd.of_named hnamed) hs hino)
    refine ⟨w.leases, ?_⟩
    rw [if_neg hne, tokenOpens, run_bind, run_attempt, openByToken, run_askOpen,
      h.plain.openByToken, Disk.openByToken_of_not_named hd.regular hn hgone]
    simp [heq]

/-- Finding the record of an object whose token is not too large always succeeds. -/
theorem does_resolve (hd : d.Distinguishes present) (hw : Ready fs d w) (hs : present s)
    (hsize : ¬d.Oversized s) :
    Does (resolve fs s) w True fun i w' => Worked d present w w' ∧
      View.Found d present s w.tree.view i w'.tree.view := by
  obtain ⟨n, hn⟩ := hd.exists_node hs
  have ha : d.attributes s = .ok ⟨n.ino, n.mode, n.fingerprint⟩ := Disk.attributes_eq hn
  generalize hattributes : (⟨n.ino, n.mode, n.fingerprint⟩ : Attributes) = a at ha
  have hino : a.ino = d.inoAt s := by rw [← hattributes, Disk.inoAt_eq hn]
  have hfound : Does (resolve fs s) w True fun i w' => w'.files = w.files ∧
      View.Found d present s w.tree.view i w'.tree.view := by
    unfold resolve
    have hasked : (wrapping IdentityError.call (attributes fs s)).run w = (.ok a, w) := by
      rw [run_wrapping, hw.plain.run_attributes, ha]
    have htoken : (identityToken fs s).run w = (.ok (Disk.tokenOf s), w) := by
      rw [hw.plain.run_identityToken, Disk.identityToken_eq hn hsize]
    refine .step hasked (.step htoken ?_)
    refine .step (run_look _ w) ?_
    cases hlookup : w.tree.lookupIno a.ino with
    | none =>
      -- no record has the number yet
      exact fun fits => ⟨rfl, Ledger.found_insertRecord hw.sound hd.regular hlookup hs ha fits⟩
    | some existing =>
      obtain ⟨x, hx, hxino⟩ := hw.sound.lookupIno_eq_some_iff.1 hlookup
      obtain ⟨o, ho⟩ := hw.truthful existing x hx
      have hsame : d.inoAt o = d.inoAt s := by rw [← ho.ino_eq hx, hxino, hino]
      obtain ⟨leases, hbelongs⟩ := hw.run_belongsTo hd ho hs hsame
      refine .step hbelongs ?_
      by_cases heq : o = s
      · -- the record is for the object
        subst heq
        simp only [decide_true, if_true]
        refine .step (run_edit _ _) (.pure ⟨rfl, ?_⟩)
        have hknown : View.Found d present o w.tree.view existing _ := View.found_refresh ho ha
        rw [← hw.sound.view_refreshFingerprint] at hknown
        exact hknown
      · -- the record is for an object that is gone
        simp only [heq, decide_false, Bool.false_eq_true, if_false]
        refine .step (run_look _ _) (.step (run_note _ _) (.step (run_edit _ _) ?_))
        intro fits
        have hgone : ¬present o := fun hpresent => heq (hd.eq_of_ino_eq hpresent hs hsame)
        have hnew := Ledger.found_invalidate
          (l := w.ledger.note (.recycled a.ino (w.tree.resolvePath existing)))
          hw.sound hd.regular hlookup ho hgone (hsame.trans hino.symm) hs ha w.clock fits
        exact ⟨rfl, hnew⟩
  exact (hfound.sound (editsOnly_resolve fs.vouches_trivial s) hw.sound).mono
    fun i w' ⟨⟨hfiles, hfound⟩, hsound⟩ => ⟨⟨hfiles, hsound, hfound.updates⟩, hfound⟩

end Tracker

end TreeWatch

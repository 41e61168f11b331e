import TreeWatch.Proofs.Mirror.Plain

/-!
# Binding names on a plain disk

A name that is opened comes to lead to the record of its object.

## Main results

- `Tracker.does_rebind` : a name comes to lead to a given record
- `Tracker.does_bindObject` : a name comes to lead to the record of an open object, and a directory
  that is new to the tree is handed on to be scanned
-/

namespace TreeWatch

variable {d : Disk} {present : Serial → Prop}

theorem Tree.exists_record?_of_holds {t : Tree} {i : InodeId} {s : Serial}
    (h : t.view.Holds d i s) : ∃ r, t.record? i = some r := by
  obtain ⟨a, n, ha, -⟩ := h
  obtain ⟨r, hr, -⟩ := Tree.identity?_eq_some_iff.1 ha
  exact ⟨r, hr⟩

/-- Records of directories are directories. -/
theorem Tree.Sound.isDirectory_iff {t : Tree} (h : t.Sound) (hd : d.Regular) {i : InodeId}
    {s : Serial} {r : InodeRecord} (hi : t.view.Holds d i s) (hr : t.record? i = some r) :
    r.isDirectory ↔ d.isDirectory s := by
  obtain ⟨a, n, ha, hn, -, hmode⟩ := hi
  obtain ⟨r', hr', hidentity⟩ := Tree.identity?_eq_some_iff.1 ha
  rw [hr] at hr'
  cases hr'
  have hkind : r.kind = FileKind.ofMode n.mode := by
    have hrecord : r.mode = a.mode := congrArg (fun x => x.1.mode) hidentity
    rw [InodeRecord.kind, hrecord, hmode]
  rw [h.directory_iff hr, hkind, ← hd.directory_iff hn, Disk.isDirectory, hn, Option.bind_some]

namespace Tracker

variable {σ : Type} {fs : Filesystem σ Serial} {w w' : Tracker σ} {s o : Serial} {p c : InodeId}
  {name : Bytes}

/-! ### Entries -/

theorem does_unbindEntry {e : EntryId} {b : DirectoryEntry} (hsound : w.tree.Sound)
    (hb : w.tree.entryOf? e = some b) :
    Does (unbindEntry e : Track σ ScanError Unit) w True fun _ w' =>
      w'.files = w.files ∧ w'.tree.Sound ∧ w'.tree.view = w.tree.view.unbind b.parent b.name ∧
        ∀ e', w'.tree.entryOf? e' = if e' = e then none else w.tree.entryOf? e' := by
  have hexists : ∃ removed, w.ledger.tree.removeEntry (w.clock w.ledger.reads) e = .ok removed :=
    Tree.exists_removeEntry_eq_ok hb
  obtain ⟨⟨t', observation⟩, hremove⟩ := hexists
  refine .wrapping fun _ => ?_
  rw [run_editTry, Ledger.removeEntry]
  simp only [hremove]
  have hdetached := hsound.removeEntry hremove
  refine ⟨trivial, hdetached.sound, hsound.view_removeEntry hb hremove, fun e' => ?_⟩
  have hentry := hdetached.entryOf?_eq e'
  simp only [List.mem_singleton] at hentry
  exact hentry

theorem does_bindName (hd : d.Regular) (hsound : w.tree.Sound) (hp : w.tree.view.Holds d p s)
    (hdir : d.isDirectory s) (hc : w.tree.view.Holds d c o)
    (hfree : w.tree.view.child p name = none) :
    Does (bindName p name c : Track σ ScanError Unit) w True fun _ w' =>
      w'.files = w.files ∧ w'.tree.Sound ∧ w'.tree.view = w.tree.view.bind p name c := by
  obtain ⟨rp, hparent⟩ := Tree.exists_record?_of_holds hp
  obtain ⟨rc, hchild⟩ := Tree.exists_record?_of_holds hc
  have hdirectory : rp.isDirectory := (hsound.isDirectory_iff hd hp hparent).2 hdir
  have hunbound : rp.childEntryOf? name = none :=
    (hsound.childEntryOf?_eq_none_iff hparent).2 hfree
  have hadd := Tree.addEntry_of_free hchild hparent hdirectory hunbound
  refine .wrapping fun fits => ?_
  change w.ledger.tree.addEntry p name c = _ at hadd
  rw [run_editTry, Ledger.addEntry] at fits ⊢
  simp only [hadd, Except.map] at fits ⊢
  exact ⟨trivial, hsound.withEntry hchild hparent hdirectory hunbound fits,
    hsound.view_withEntry hchild hparent hdirectory hunbound fits⟩

/-! ### Names -/

/-- A name has come to lead to a record, and nothing else has changed. -/
structure Rebound (d : Disk) (present : Serial → Prop) (p : InodeId) (name : Bytes) (c : InodeId)
    (w : Tracker σ) (summary : ScanSummary) (w' : Tracker σ) : Prop
    extends Worked d present w w' where
  bound : w'.tree.view.child p name = some c
  identity : w'.tree.view.identity = w.tree.view.identity
  others : ∀ p' name', ¬(p' = p ∧ name' = name) →
    w'.tree.view.child p' name' = w.tree.view.child p' name'
  linked : w.tree.view.child p name ≠ some c → 0 < summary.linked

theorem does_rebind (hd : d.Distinguishes present) (hw : Ready fs d w)
    (hp : w.tree.view.Holds d p s) (hs : present s) (hdir : d.isDirectory s)
    (htends : d.Tends s name) (ho : d.child? s name = some o) (hc : w.tree.view.Holds d c o) :
    Does (rebind p name c : Track σ ScanError ScanSummary) w True fun summary w' =>
      Rebound d present p name c w summary w' := by
  unfold rebind
  refine .step (run_look _ w) ?_
  cases hentry : w.tree.childEntryOf? p name with
  | none =>
    have hfree : w.tree.view.child p name = none := by
      rw [Tree.view_child, Tree.child?, hentry]
      rfl
    refine .bind (does_bindName hd.regular hw.sound hp hdir hc hfree) (fun _ => .pure _) ?_
    rintro ⟨⟩ w' ⟨hfiles, hsound, hview⟩
    refine .pure ⟨⟨hfiles, hsound, ?_⟩, ?_, ?_, ?_, fun _ => Nat.one_pos⟩
    all_goals rw [hview]
    · exact .single (.bind hp hs htends ho hc)
    · rw [View.child_bind, if_pos ⟨rfl, rfl⟩]
    · rfl
    · intro p' name' hother
      rw [View.child_bind, if_neg hother]
  | some e =>
    obtain ⟨b, hb, rfl, rfl⟩ := hw.sound.childEntryOf?_eq_some_iff.1 hentry
    have hold : w.tree.view.child b.parent b.name = some b.child := by
      rw [Tree.view_child, Tree.child?, hentry, Option.bind_some, hb]
      rfl
    simp only [Option.map_some, hb]
    by_cases hsame : b.child = c
    · subst hsame
      simp only [if_true]
      exact .pure ⟨hw.worked, hold, rfl, fun _ _ _ => rfl, fun hne => absurd hold hne⟩
    · simp only [Option.some.injEq, hsame, if_false]
      have htame : ∀ _ : Unit, Tame (do
          bindName b.parent b.name c
          pure { unlinked := 1, linked := 1 } : Track σ ScanError ScanSummary) :=
        fun _ => .bind (editsOnly_bindName trivial _ _) fun _ => .pure _
      refine .bind (does_unbindEntry hw.sound hb) htame ?_
      rintro ⟨⟩ w₁ ⟨hfiles₁, hsound₁, hview₁, -⟩
      -- what the name led to is not the object, since records of one object are the same
      have hunbound : View.Update d present w.tree.view w₁.tree.view := by
        rw [hview₁]
        refine .unbind hp hs htends fun o' ho' => ?_
        rw [ho] at ho'
        cases ho'
        refine ⟨⟨c, hc⟩, fun j hj hjo => ?_⟩
        rw [hold] at hj
        cases hj
        exact hsame (hw.sound.eq_of_holds hjo hc)
      have hp₁ : w₁.tree.view.Holds d b.parent s := hunbound.holds hd.regular hs hp
      have hc₁ : w₁.tree.view.Holds d c o := hunbound.holds hd.regular (hd.of_child? ho) hc
      have hfree₁ : w₁.tree.view.child b.parent b.name = none := by
        rw [hview₁, View.child_unbind, if_pos ⟨rfl, rfl⟩]
      refine .bind (does_bindName hd.regular hsound₁ hp₁ hdir hc₁ hfree₁) (fun _ => .pure _) ?_
      rintro ⟨⟩ w' ⟨hfiles, hsound, hview⟩
      refine .pure ⟨⟨hfiles.trans hfiles₁, hsound, ?_⟩, ?_, ?_, ?_, fun _ => Nat.one_pos⟩
      all_goals rw [hview]
      · exact .tail (.single hunbound) (.bind hp₁ hs htends ho hc₁)
      · rw [View.child_bind, if_pos ⟨rfl, rfl⟩]
      · rw [View.identity_bind, hview₁, View.identity_unbind]
      · intro p' name' hother
        rw [View.child_bind, if_neg hother, hview₁, View.child_unbind, if_neg hother]

/-- A name has come to lead to the record of its object. -/
structure Bound (d : Disk) (present : Serial → Prop) (p : InodeId) (s : Serial) (name : Bytes)
    (o : Serial) (recursive : Bool) (w : Tracker σ) (next : Option Serial) (w' : Tracker σ) : Prop
    extends Worked d present w w' where
  right : ¬d.Oversized o → w'.tree.view.Agrees d p s name ∧ ∃ j, w'.tree.view.Current d j o
  held : ∀ c, w'.tree.view.Held d c → w.tree.view.Held d c ∨ (c = o ∧ ¬d.Oversized o)
  next_eq : ∀ handle, next = some handle → handle = o ∧ d.isDirectory o
  /-- Directories are handed on if the scan is recursive, and in any case if they are new. -/
  explored : d.isDirectory o → ¬d.Oversized o → recursive = true ∨ ¬w.tree.view.Held d o →
    next = some o

/-- How many handles were and are open does not matter. -/
theorem Bound.leases {recursive : Bool} {next : Option Serial} {before after : Leases}
    (h : Bound d present p s name o recursive { w with leases := before } next w') :
    Bound d present p s name o recursive w next { w' with leases := after } :=
  ⟨⟨h.files, h.sound, h.updates⟩, h.right, h.held, h.next_eq, h.explored⟩

theorem does_handOn (hd : d.Regular) (hw : Ready fs d w) {i : InodeId}
    (hi : w.tree.view.Holds d i o) (summary : ScanSummary) (recursive : Bool) :
    Does (handOn fs i summary recursive o) w True fun r w' =>
      w'.files = w.files ∧ w'.tree = w.tree ∧
      (∀ handle, r.2 = some handle → handle = o ∧ d.isDirectory o) ∧
      (d.isDirectory o → recursive = true ∨
        (0 < summary.linked ∧ ∀ name, w.tree.view.child i name = none) → r.2 = some o) := by
  obtain ⟨r, hr⟩ := Tree.exists_record?_of_holds hi
  have hdirectory := hw.sound.isDirectory_iff hd hi hr
  unfold handOn
  refine .step (run_look _ w) ?_
  simp only [hr, Option.any_some]
  split
  · next hopen =>
    simp only [Bool.and_eq_true, hdirectory] at hopen
    refine .attempt_step (hw.plain.run_openDirectory hopen.1) (.pure ⟨rfl, rfl, ?_, fun _ _ => rfl⟩)
    rintro handle ⟨⟩
    exact ⟨rfl, hopen.1⟩
  · next hclosed =>
    refine .pure ⟨rfl, rfl, fun handle hnone => (by cases hnone), fun hdir hwanted => ?_⟩
    refine absurd ?_ hclosed
    simp only [Bool.and_eq_true, hdirectory, Bool.or_eq_true, decide_eq_true_eq]
    refine ⟨hdir, hwanted.imp_right fun ⟨hlinked, hempty⟩ => ⟨hlinked, ?_⟩⟩
    refine r.isEmptyDirectory_iff.2 ⟨hdirectory.2 hdir, fun name => ?_⟩
    rw [hw.sound.childEntryOf?_eq_none_iff hr]
    exact hempty name

theorem does_bindObject (hd : d.Distinguishes present) (hw : Ready fs d w)
    (hp : w.tree.view.Holds d p s) (hs : present s) (hdir : d.isDirectory s)
    (hsmall : ¬d.Oversized s) (ho : d.child? s name = some o) (recursive : Bool) :
    Does (bindObject fs p name recursive o) w True fun r w' =>
      Bound d present p s name o recursive w r.2 w' := by
  unfold bindObject
  by_cases hsize : d.Oversized o
  · refine .attempt_step (hw.plain.run_resolve_of_oversized hsize) (.step (run_note _ _) (.pure ?_))
    refine ⟨⟨rfl, hw.sound, .refl⟩, fun hnot => absurd hsize hnot, fun c hc => .inl hc, ?_, ?_⟩
    · rintro handle ⟨⟩
    · exact fun _ hnot => absurd hsize hnot
  refine .attempt_bind (does_resolve hd hw (hd.of_child? ho) hsize) (fun r => ?_) ?_
    fun _ _ hfalse => absurd trivial hfalse
  · split
    · exact .bind (.note _) fun _ => .pure _
    · split
      · exact .bind (.note _) fun _ => .pure _
      · exact .throw _
    · exact .throw _
    · exact .bind (editsOnly_rebind trivial _ _) fun _ => editsOnly_handOn fs.vouches_trivial _ _ _ _
  rintro i w₁ ⟨hwork, hfound⟩
  have hw₁ := hw.after hwork
  have hp₁ : w₁.tree.view.Holds d p s := hwork.updates.holds hd.regular hs hp
  refine .bind (does_rebind hd hw₁ hp₁ hs hdir (Disk.tends_of_child? hsmall ho hsize) ho
    hfound.current.holds)
    (fun _ => editsOnly_handOn fs.vouches_trivial _ _ _ _) ?_
  intro summary w₂ hbound
  have hw₂ := hw₁.after hbound.toWorked
  have hcurrent : w₂.tree.view.Current d i o := by
    obtain ⟨a, ha, hidentity⟩ := hfound.current
    exact ⟨a, ha, by rw [hbound.identity, hidentity]⟩
  refine (does_handOn hd.regular hw₂ hcurrent.holds summary recursive).mono ?_
  rintro ⟨summary', next⟩ w' ⟨hfiles, htree, hnext, hwanted⟩
  have hlast : Worked d present w₂ w' := ⟨hfiles, htree ▸ hw₂.sound, htree ▸ .refl⟩
  refine ⟨(hwork.trans hbound.toWorked).trans hlast, fun _ => ⟨?_, i, ?_⟩, fun c hc => ?_, hnext,
    fun hdirectory _ hreason => hwanted hdirectory (hreason.imp_right fun hnew => ⟨?_, ?_⟩)⟩
  · rw [htree, View.agrees_of_some ho]
    exact ⟨i, hbound.bound, hcurrent.holds⟩
  · rw [htree]
    exact hcurrent
  · obtain ⟨j, hj⟩ := hc
    rw [htree, View.holds_congr (congrFun hbound.identity j)] at hj
    exact (hfound.held c ⟨j, hj⟩).imp_right fun heq => ⟨heq, hsize⟩
  · exact hbound.linked ((hfound.unused hnew).2 p name)
  · -- the new record is not the directory that the name is in
    intro name'
    rw [hbound.others i name', (hfound.unused hnew).1]
    rintro ⟨rfl, -⟩
    rw [hfound.current.holds.serial_eq hd.regular hp₁] at hnew
    exact hnew ⟨i, hp⟩

end Tracker

end TreeWatch

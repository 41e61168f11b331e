import TreeWatch.Proofs.Agreement.Together

/-!
# Names with and without opening them

A name that is taken for unchanged could as well have been opened: the object would have been found to
have the record that the name leads to, and nothing would have changed but a fingerprint.

## Main definitions

- `ScanSummary.Matches` : two summaries differ in names passed over at most
- `Tracker.ScansTogether` : two functions that scan directories go together, down to a depth

## Main results

- `Tracker.Together.bindName`, `Tracker.Together.unbindEntry` : changes of the tree go together
- `Tracker.together_reopen` : opening a name on both sides
-/

namespace TreeWatch

namespace Tree

variable {t t' : Tree}

theorem record?_of_blank_eq (h : t'.blank = t.blank) {i : InodeId} {r : InodeRecord}
    (hr : t.record? i = some r) :
    ∃ r', t'.record? i = some r' ∧ r'.blank = r.blank := by
  have hrecord : (t'.record? i).map InodeRecord.blank = (t.record? i).map InodeRecord.blank := by
    rw [← record?_blank, h, record?_blank]
  rw [hr, Option.map_some, Option.map_eq_some_iff] at hrecord
  exact hrecord

theorem insertRecord_of_blank_eq (h : t'.blank = t.blank) (attributes : Attributes)
    (token : IdentityToken) :
    (t'.insertRecord attributes token).1 = (t.insertRecord attributes token).1 ∧
      (t'.insertRecord attributes token).2.blank = (t.insertRecord attributes token).2.blank := by
  have hleft := insertRecord_blank t attributes token
  have hright := insertRecord_blank t' attributes token
  rw [h, hleft] at hright
  exact ⟨(congrArg Prod.fst hright).symm, (congrArg Prod.snd hright).symm⟩

theorem cases_of_map_eq {ε α β : Type} {f : α → β} {x y : Except ε α} (h : x.map f = y.map f) :
    (∃ e, x = .error e ∧ y = .error e) ∨ ∃ a b, x = .ok a ∧ y = .ok b ∧ f a = f b := by
  cases x with
  | error e =>
    cases y with
    | error e' =>
      cases h
      exact .inl ⟨e, rfl, rfl⟩
    | ok b => cases h
  | ok a =>
    cases y with
    | error e' => cases h
    | ok b => exact .inr ⟨a, b, rfl, rfl, Except.ok.inj h⟩

/-- Binding a name has the same outcome in both trees. -/
theorem addEntry_of_blank_eq (h : t'.blank = t.blank) (p : InodeId) (name : Bytes) (c : InodeId) :
    (∃ x, t.addEntry p name c = .error x ∧ t'.addEntry p name c = .error x) ∨
      ∃ e u u' o, t.addEntry p name c = .ok (e, u, o) ∧ t'.addEntry p name c = .ok (e, u', o) ∧
        u'.blank = u.blank := by
  have hboth : (t.addEntry p name c).map (fun q => (q.1, q.2.1.blank, q.2.2)) =
      (t'.addEntry p name c).map fun q => (q.1, q.2.1.blank, q.2.2) := by
    rw [← addEntry_blank, ← h, addEntry_blank]
  refine (cases_of_map_eq hboth).imp_right ?_
  rintro ⟨⟨e, u, o⟩, ⟨e', u', o'⟩, hadd, hadd', heq⟩
  cases (congrArg Prod.fst heq : e = e')
  cases (congrArg (·.2.2) heq : o = o')
  exact ⟨e, u, u', o, hadd, hadd', (congrArg (·.2.1) heq : u.blank = u'.blank).symm⟩

/-- So has unbinding an entry. -/
theorem removeEntry_of_blank_eq (h : t'.blank = t.blank) (now : Instant) (e : EntryId) :
    (∃ x, t.removeEntry now e = .error x ∧ t'.removeEntry now e = .error x) ∨
      ∃ u u' o, t.removeEntry now e = .ok (u, o) ∧ t'.removeEntry now e = .ok (u', o) ∧
        u'.blank = u.blank := by
  have hboth : (t.removeEntry now e).map (fun q => (q.1.blank, q.2)) =
      (t'.removeEntry now e).map fun q => (q.1.blank, q.2) := by
    rw [← removeEntry_blank, ← h, removeEntry_blank]
  refine (cases_of_map_eq hboth).imp_right ?_
  rintro ⟨⟨u, o⟩, ⟨u', o'⟩, hremove, hremove', heq⟩
  cases (congrArg Prod.snd heq : o = o')
  exact ⟨u, u', o, hremove, hremove', (congrArg Prod.fst heq : u.blank = u'.blank).symm⟩

theorem childEntryOf?_of_blank_eq (h : t'.blank = t.blank) (p : InodeId) (name : Bytes) :
    t'.childEntryOf? p name = t.childEntryOf? p name := by
  rw [← childEntryOf?_blank, h, childEntryOf?_blank]

theorem entryOf?_of_blank_eq (h : t'.blank = t.blank) (e : EntryId) :
    t'.entryOf? e = t.entryOf? e := by
  rw [← entryOf?_blank, h, entryOf?_blank]

theorem child?_of_blank_eq (h : t'.blank = t.blank) (p : InodeId) (name : Bytes) :
    t'.child? p name = t.child? p name := by
  rw [← child?_blank, h, child?_blank]

theorem lookupIno_of_blank_eq (h : t'.blank = t.blank) (ino : UInt64) :
    t'.lookupIno ino = t.lookupIno ino := by
  rw [← lookupIno_blank, h, lookupIno_blank]

end Tree

/-- The summaries differ in what was taken for unchanged or passed over at most. -/
structure ScanSummary.Matches (a b : ScanSummary) : Prop where
  directories : a.directories = b.directories
  linked : a.linked = b.linked
  unlinked : a.unlinked = b.unlinked

namespace ScanSummary.Matches

variable {a a' b b' c : ScanSummary}

theorem refl (a : ScanSummary) : a.Matches a := ⟨rfl, rfl, rfl⟩

theorem symm (h : a.Matches b) : b.Matches a :=
  ⟨h.directories.symm, h.linked.symm, h.unlinked.symm⟩

theorem trans (h : a.Matches b) (h' : b.Matches c) : a.Matches c :=
  ⟨h.directories.trans h'.directories, h.linked.trans h'.linked, h.unlinked.trans h'.unlinked⟩

theorem oneSkipped (h : a.Matches {}) : a.Matches .oneSkipped :=
  h.trans ⟨rfl, rfl, rfl⟩

theorem add (h : a.Matches b) (h' : a'.Matches b') : (a + a').Matches (b + b') where
  directories := congrArg₂ (· + ·) h.directories h'.directories
  linked := congrArg₂ (· + ·) h.linked h'.linked
  unlinked := congrArg₂ (· + ·) h.unlinked h'.unlinked

end ScanSummary.Matches

namespace Tracker

open View

variable {σ ε : Type} {fs : Filesystem σ Serial} {d : Disk} {present : Serial → Prop}
  {w w' w₁ : Tracker σ} {s o : Serial} {p c j : InodeId} {name : Bytes} {recursive : Bool}
  {r : InodeRecord} {n : Node}

/-! ### Finding records -/

theorem InStep.token_of_lookupIno (h : InStep fs d present w w') (hs : present s)
    (hn : d.node? s = some n) {i : InodeId} (hlookup : w.tree.lookupIno n.ino = some i) :
    ∃ r, w.tree.record? i = some r ∧ r.token = Disk.tokenOf s := by
  obtain ⟨x, hx, hino⟩ := h.formed.lookupIno_eq_some_iff.1 hlookup
  obtain ⟨r, hr, rfl⟩ := Tree.identity?_eq_some_iff.1 hx
  refine ⟨r, hr, h.upToDate i _ s hx hs ?_⟩
  rw [hino, Disk.inoAt_eq hn]

theorem InStep.token_of_lookupIno_right (h : InStep fs d present w w') (hs : present s)
    (hn : d.node? s = some n) {i : InodeId} (hlookup : w'.tree.lookupIno n.ino = some i) :
    ∃ r, w'.tree.record? i = some r ∧ r.token = Disk.tokenOf s := by
  rw [Tree.lookupIno_of_blank_eq h.blank] at hlookup
  obtain ⟨r, hr, htoken⟩ := h.token_of_lookupIno hs hn hlookup
  obtain ⟨r', hr', hblank⟩ := Tree.record?_of_blank_eq h.blank hr
  exact ⟨r', hr', (congrArg InodeRecord.token hblank).trans htoken⟩

theorem InStep.insertRecord (hd : d.Distinguishes present) (h : InStep fs d present w w')
    (hs : present s) {a : Attributes} (ha : d.attributes s = .ok a)
    (hino : w.tree.lookupIno a.ino = none)
    (fits : (w.ledger.insertRecord a (Disk.tokenOf s)).2.tree.Fits) :
    InStep fs d present { w with ledger := (w.ledger.insertRecord a (Disk.tokenOf s)).2 }
        { w' with ledger := (w'.ledger.insertRecord a (Disk.tokenOf s)).2 } ∧
      Onward d present w.tree.view (w.ledger.insertRecord a (Disk.tokenOf s)).2.tree.view ∧
      (w'.ledger.insertRecord a (Disk.tokenOf s)).1 =
        (w.ledger.insertRecord a (Disk.tokenOf s)).1 ∧
      (w.ledger.insertRecord a (Disk.tokenOf s)).2.tree.view.Marks d
        (w.ledger.insertRecord a (Disk.tokenOf s)).1 s := by
  have htree : (w.ledger.insertRecord a (Disk.tokenOf s)).2.tree =
      (w.tree.insertRecord a (Disk.tokenOf s)).2 := Ledger.tree_insertRecord ..
  have htree' : (w'.ledger.insertRecord a (Disk.tokenOf s)).2.tree =
      (w'.tree.insertRecord a (Disk.tokenOf s)).2 := Ledger.tree_insertRecord ..
  obtain ⟨hfirst, hblank⟩ := Tree.insertRecord_of_blank_eq h.blank a (Disk.tokenOf s)
  rw [htree] at fits
  obtain ⟨hformed, hunused, hview⟩ := h.formed.insertRecord hino fits
  refine ⟨h.edited ?_ ?_ ?_ ?_ ?_, ?_, ?_, ?_⟩
  · exact htree ▸ hformed
  · rw [htree, hview]
    exact h.upToDate.insert hd hs ha
  · rw [Ledger.reads_insertRecord, Ledger.reads_insertRecord, h.reads]
  · rw [Ledger.journal_insertRecord, Ledger.journal_insertRecord, h.journal]
  · rw [htree, htree', hblank]
  · rw [htree, hview]
    exact .insert hunused
  · rw [Ledger.fst_insertRecord, Ledger.fst_insertRecord]
    exact hfirst
  · rw [htree, Ledger.fst_insertRecord, ← tree, hview]
    exact marks_insert ha

/-- Finding the record of an object succeeds on both sides. -/
theorem together_resolve (hd : d.Distinguishes present) (h : InStep fs d present w w')
    (hs : present s) (hsize : ¬d.Oversized s) :
    Together fs d present (attempt (resolve fs s) : Track σ ε (Except IdentityError InodeId))
      (attempt (resolve fs s)) w w'
      fun r r' w₁ => ∃ i, r = .ok i ∧ r' = .ok i ∧ w₁.tree.view.Marks d i s := by
  obtain ⟨n, hn⟩ := hd.exists_node hs
  intro fits
  rw [run_attempt] at fits ⊢
  rw [run_attempt]
  rw [run_resolve h.plain hn hsize fun i => h.token_of_lookupIno hs hn] at fits ⊢
  rw [run_resolve h.plain' hn hsize fun i => h.token_of_lookupIno_right hs hn,
    Tree.lookupIno_of_blank_eq h.blank]
  cases hlookup : w.tree.lookupIno n.ino with
  | none =>
    simp only [hlookup, run_editGet] at fits ⊢
    obtain ⟨hstep, honward, hfirst, hmarks⟩ :=
      h.insertRecord hd hs (Disk.attributes_eq hn) hlookup fits
    exact ⟨hstep, honward, _, rfl, congrArg Except.ok hfirst, hmarks⟩
  | some i =>
    obtain ⟨x, hx, hino⟩ := h.formed.lookupIno_eq_some_iff.1 hlookup
    rw [← Disk.inoAt_eq hn] at hino
    have hmarks : w.tree.view.Marks d i s := ⟨x, hx, hino, h.upToDate i x s hx hs hino⟩
    obtain ⟨hformed, hview⟩ := h.formed.refreshFingerprint i n.fingerprint
    have honward : Onward d present w.tree.view (w.tree.refreshFingerprint i n.fingerprint).view :=
      hview ▸ .refresh
    refine ⟨h.edited hformed (hview ▸ h.upToDate.refresh) h.reads h.journal ?_, honward, i, rfl, rfl,
      honward.marks hmarks⟩
    show (w'.tree.refreshFingerprint i n.fingerprint).blank =
      (w.tree.refreshFingerprint i n.fingerprint).blank
    rw [Tree.blank_refreshFingerprint, Tree.blank_refreshFingerprint, h.blank]

/-! ### Entries -/

theorem together_bindName (hd : d.Distinguishes present) (h : InStep fs d present w w')
    (hs : present s) (hp : w.tree.view.Marks d p s) (ho : d.child? s name = some o)
    (hc : w.tree.view.Marks d c o) :
    Together fs d present (bindName p name c) (bindName p name c) w w'
      fun _ _ w₁ => w₁.tree.view.Leads p name (d.inoAt o) := by
  intro fits
  rw [run_bindName] at fits ⊢
  rw [run_bindName]
  rcases Tree.addEntry_of_blank_eq h.blank p name c with
    ⟨x, hadd, hadd'⟩ | ⟨e, u, u', observation, hadd, hadd', hblank⟩
  · rw [hadd, hadd']
    exact ⟨h, .refl, rfl⟩
  simp only [hadd] at fits ⊢
  rw [hadd']
  obtain ⟨⟨r, hchild⟩, ⟨r', hparent, hdir, hfree⟩, -, rfl⟩ := Tree.addEntry_eq_ok hadd
  obtain ⟨hformed, hview⟩ := h.formed.withEntry hchild hparent hdir hfree fits
  refine ⟨h.edited hformed ?_ h.reads ?_ hblank, ?_, ?_⟩
  · exact hview ▸ h.upToDate
  · rw [h.journal]
  · show Onward d present w.tree.view (w.tree.withEntry p name c).view
    exact hview ▸ .bind hd hs hp ho hc
  · show (w.tree.withEntry p name c).view.Leads p name (d.inoAt o)
    exact hview ▸ leads_bind hc

/-- A name goes that did not lead to its object. -/
theorem together_unbindEntry (hd : d.Distinguishes present) (h : InStep fs d present w w')
    (hs : present s) (hp : w.tree.view.Marks d p s) {e : EntryId}
    (hwrong : ∀ b, w.tree.entryOf? e = some b → b.parent = p ∧
      ∀ o, d.child? s b.name = some o → ¬w.tree.view.Leads p b.name (d.inoAt o)) :
    Together fs d present (unbindEntry e) (unbindEntry e) w w' fun _ _ w₁ =>
      ∀ e' b, w₁.tree.entryOf? e' = some b → w.tree.entryOf? e' = some b := by
  intro fits
  rw [run_unbindEntry] at fits ⊢
  rw [run_unbindEntry]
  rcases Tree.removeEntry_of_blank_eq h.blank (w.clock w.ledger.reads) e with
    ⟨x, hremove, hremove'⟩ | ⟨u, u', observation, hremove, hremove', hblank⟩
  · rw [← h.clock, ← h.reads] at hremove'
    rw [hremove, hremove']
    exact ⟨h, .refl, rfl⟩
  simp only [hremove] at fits ⊢
  rw [← h.clock, ← h.reads] at hremove'
  rw [hremove']
  obtain ⟨b, entries, hentry, hu⟩ := Tree.removeEntry_eq_ok hremove
  have hb : w.tree.entryOf? e = some b := Arena.get?_of_remove hentry
  obtain ⟨hformed, hview⟩ := h.formed.removeEntry hb hremove
  obtain ⟨rfl, hwrong⟩ := hwrong b hb
  refine ⟨h.edited hformed ?_ (congrArg (· + 1) h.reads) ?_ hblank, ?_, fun e' b' he' => ?_⟩
  · exact hview ▸ h.upToDate
  · rw [h.journal]
  · show Onward d present w.tree.view u.view
    exact hview ▸ .unbind hd hs hp hwrong
  · change u.entryOf? e' = some b' at he'
    rw [hu, (Tree.waitIfUnlinked_frame _ b.child).2.1, Tree.entryOf?_withoutEntry hentry] at he'
    split at he'
    · cases he'
    · exact he'

/-- A name comes to lead to the record of its object. -/
theorem together_rebind (hd : d.Distinguishes present) (h : InStep fs d present w w')
    (hs : present s) (hp : w.tree.view.Marks d p s) (ho : d.child? s name = some o)
    (hc : w.tree.view.Marks d c o) :
    Together fs d present (rebind p name c : Track σ ScanError ScanSummary) (rebind p name c) w w'
      fun a b w₁ => a = b ∧ w₁.tree.view.Leads p name (d.inoAt o) := by
  unfold rebind
  refine .step (run_look _ w) (run_look _ w') rfl ?_
  rw [Tree.childEntryOf?_of_blank_eq h.blank]
  cases hentry : w.tree.childEntryOf? p name with
  | none =>
    refine (together_bindName hd h hs hp ho hc).bind (fun _ => .pure _) ?_
    exact fun _ _ w₁ w₁' hstep _ hleads => .pure hstep ⟨rfl, hleads⟩
  | some e =>
    obtain ⟨b, hb, rfl, rfl⟩ := h.formed.childEntryOf?_eq_some_iff.1 hentry
    simp only [Option.map_some, Tree.entryOf?_of_blank_eq h.blank, hb]
    have hbound : w.tree.view.child b.parent b.name = some b.child := by
      rw [Tree.view_child, Tree.child?, hentry, Option.bind_some, hb]
      rfl
    by_cases hsame : b.child = c
    · subst hsame
      obtain ⟨x, hx, hino, -⟩ := hc
      simp only [if_true]
      exact .pure h ⟨rfl, b.child, x, hbound, hx, hino⟩
    · simp only [Option.some.injEq, hsame, if_false]
      -- the number leads to the record of the object, and the name leads to another one
      have hwrong : ∀ o, d.child? s b.name = some o →
          ¬w.tree.view.Leads b.parent b.name (d.inoAt o) := by
        rintro o' ho' ⟨j, x, hj, hx, hino⟩
        rw [hbound] at hj
        cases hj
        rw [ho] at ho'
        cases ho'
        obtain ⟨x', hx', hino', -⟩ := hc
        have hleft := h.formed.lookupIno_eq_some_iff.2 ⟨x, hx, hino⟩
        rw [h.formed.lookupIno_eq_some_iff.2 ⟨x', hx', hino'⟩] at hleft
        exact hsame (Option.some.inj hleft).symm
      refine (together_unbindEntry hd h hs hp (e := e) ?_).bind ?_ ?_
      · intro b' hb'
        rw [hb] at hb'
        cases hb'
        exact ⟨rfl, hwrong⟩
      · exact fun _ => .bind (editsOnly_bindName trivial _ _) fun _ => .pure _
      intro _ _ w₁ w₁' hstep honward _
      refine (together_bindName hd hstep hs (honward.marks hp) ho (honward.marks hc)).bind
        (fun _ => .pure _) ?_
      exact fun _ _ w₂ w₂' hstep' _ hleads => .pure hstep' ⟨rfl, hleads⟩

/-! ### Opening names on both sides -/

theorem InStep.any_record? (h : InStep fs d present w w') (c : InodeId) {f : InodeRecord → Bool}
    (hf : ∀ r, f r.blank = f r) : (w'.tree.record? c).any f = (w.tree.record? c).any f := by
  have hleft : (w.tree.blank.record? c).any f = (w.tree.record? c).any f := by
    rw [Tree.record?_blank, Option.any_map]
    exact congrArg (fun g => (w.tree.record? c).any g) (funext hf)
  have hright : (w'.tree.blank.record? c).any f = (w'.tree.record? c).any f := by
    rw [Tree.record?_blank, Option.any_map]
    exact congrArg (fun g => (w'.tree.record? c).any g) (funext hf)
  rw [← hright, h.blank, hleft]

theorem together_handOn (h : InStep fs d present w w') (c : InodeId) (summary : ScanSummary)
    (recursive : Bool) (o : Serial) :
    Together fs d present (handOn fs c summary recursive o) (handOn fs c summary recursive o) w w'
      fun a b _ => a = b ∧ ∀ handle, a.2 = some handle → handle = o ∧ d.isDirectory o := by
  unfold handOn
  refine .step (run_look _ w) (run_look _ w') rfl ?_
  simp only [h.any_record? c (f := InodeRecord.isDirectory) fun _ => rfl,
    h.any_record? c (f := InodeRecord.isEmptyDirectory) fun _ => rfl]
  split
  · by_cases hdir : d.isDirectory o
    · have hrun := h.plain.run_openDirectory hdir
      have hrun' := h.plain'.run_openDirectory hdir
      refine .attempt_step hrun hrun' rfl ?_
      refine .pure (h.leases _ _) ⟨rfl, ?_⟩
      rintro handle ⟨⟩
      exact ⟨rfl, hdir⟩
    · have hrun := h.plain.run_openDirectory_of_not hdir
      have hrun' := h.plain'.run_openDirectory_of_not hdir
      refine .attempt_step hrun hrun' rfl ?_
      refine .pure h ⟨rfl, ?_⟩
      rintro handle ⟨⟩
  · refine .pure h ⟨rfl, ?_⟩
    rintro handle ⟨⟩

theorem together_bindObject (hd : d.Distinguishes present) (h : InStep fs d present w w')
    (hs : present s) (hp : w.tree.view.Marks d p s) (ho : d.child? s name = some o)
    (recursive : Bool) :
    Together fs d present (bindObject fs p name recursive o) (bindObject fs p name recursive o) w w'
      fun a b w₁ => a = b ∧ (∀ handle, a.2 = some handle → handle = o ∧ d.isDirectory o) ∧
        (¬d.Oversized o → w₁.tree.view.Leads p name (d.inoAt o)) := by
  unfold bindObject
  by_cases hsize : d.Oversized o
  · have hrun := h.plain.run_resolve_of_oversized hsize
    have hrun' := h.plain'.run_resolve_of_oversized hsize
    refine .attempt_step hrun hrun' rfl ?_
    refine .step (run_note _ _) (run_note _ _) rfl ?_
    refine .pure (h.noted _ _) ⟨rfl, ?_, fun hnot => absurd hsize hnot⟩
    rintro handle ⟨⟩
  refine (together_resolve hd h (hd.of_child? ho) hsize).bind (fun r => ?_) ?_
  · split
    · exact .bind (.note _) fun _ => .pure _
    · split
      · exact .bind (.note _) fun _ => .pure _
      · exact .throw _
    · exact .throw _
    · exact .bind (editsOnly_rebind trivial _ _) fun _ => editsOnly_handOn fs.vouches_trivial _ _ _ _
  rintro _ _ w₁ w₁' hstep honward ⟨i, rfl, rfl, hi⟩
  have hp₁ := honward.marks hp
  refine (together_rebind hd hstep hs hp₁ ho hi).bind
    (fun _ => editsOnly_handOn fs.vouches_trivial _ _ _ _) ?_
  rintro summary _ w₂ w₂' hstep' honward' ⟨rfl, hleads⟩
  refine (together_handOn hstep' i summary recursive o).mono ?_
  rintro a b w₃ honward'' ⟨heq, hnext⟩
  exact ⟨heq, hnext, fun _ => honward''.leads hs (honward'.marks hp₁) ho hsize hleads⟩

/-- Down to a depth, the functions scan directories and go together. The first one passes over
directories with a token that is too large. -/
structure ScansTogether (fs : Filesystem σ Serial) (d : Disk) (present : Serial → Prop)
    (depth : Nat) (scanBelow scanBelow' : ScanBelow σ Serial) : Prop where
  tame : ∀ c recursive, Tame (scanBelow c recursive)
  together : ∀ {c recursive} {w w' : Tracker σ}, present c → d.isDirectory c →
    InStep fs d present w w' → d.Shallow depth c →
      Together fs d present (scanBelow c recursive) (scanBelow' c recursive) w w'
        fun a b _ => a.Matches b
  skips : ∀ {c} (recursive : Bool) {w : Tracker σ}, d.Oversized c →
    fs.Plain w.files d → d.Shallow depth c → ∃ w₁, (scanBelow c recursive).run w = (.ok .oneSkipped, w₁) ∧
      w₁.files = w.files ∧ w₁.clock = w.clock ∧ w₁.ledger.reads = w.ledger.reads ∧
        w₁.ledger.journal = w.ledger.journal ∧ w₁.tree = w.tree

variable {scanBelow scanBelow' : ScanBelow σ Serial} {depth : Nat}

theorem together_reopen (hd : d.Distinguishes present)
    (hbelow : ScansTogether fs d present depth scanBelow scanBelow')
    (h : InStep fs d present w w') (hs : present s) (hdir : d.isDirectory s)
    (hshallow : ∀ c, d.Subdirectory s c → d.Shallow depth c) (hp : w.tree.view.Marks d p s)
    (recursive : Bool) (name : Bytes) :
    Together fs d present (reopen fs scanBelow s p recursive name)
      (reopen fs scanBelow' s p recursive name) w w' fun a b w₁ => a.Matches b ∧
        ∀ o, d.child? s name = some o → ¬d.Oversized o →
          w₁.tree.view.Leads p name (d.inoAt o) := by
  obtain ⟨leases, hopen⟩ := h.plain.run_openChild hdir name
  obtain ⟨leases', hopen'⟩ := h.plain'.run_openChild hdir name
  unfold reopen
  refine .wrapping_step hopen hopen' rfl ?_
  have h₀ := h.leases leases leases'
  cases hchild : d.child? s name with
  | none =>
    refine .step (run_note _ _) (run_note _ _) rfl (.pure (h₀.noted _ _) ⟨.refl _, ?_⟩)
    rintro o ⟨⟩
  | some o =>
    refine ((together_bindObject hd h₀ hs hp hchild recursive).releasing fun _ _ _ _ h => h).bind
      ?_ ?_
    · rintro ⟨summary, next⟩
      cases next with
      | none => exact .pure _
      | some handle => exact .bind (hbelow.tame _ _) fun _ => .pure _
    rintro ⟨summary, next⟩ _ w₁ w₁' hstep honward ⟨rfl, hnext, hleads⟩
    cases next with
    | none =>
      refine .pure hstep ⟨.refl _, ?_⟩
      rintro o' ⟨⟩
      exact hleads
    | some handle =>
      obtain ⟨rfl, hodir⟩ := hnext handle rfl
      refine (hbelow.together (hd.of_child? hchild) hodir hstep
        (hshallow _ ⟨⟨_, hchild⟩, hodir⟩)).bind (fun _ => .pure _) ?_
      intro a b w₂ w₂' hstep' honward' hmatch
      refine .pure hstep' ⟨.add (.refl _) hmatch, ?_⟩
      rintro o' ⟨⟩ hsize
      exact honward'.leads hs (honward.marks hp) hchild hsize (hleads hsize)

end Tracker

end TreeWatch

import TreeWatch.Proofs.Agreement.Listing
import TreeWatch.Proofs.Garbage.Stray

/-!
# Scans that find nothing to do

Where names already lead to records that say of their objects what the disk says, a scan binds and unbinds
nothing, and it leaves the tree as it is: what it writes into a record is there already.

## Main definitions

- `Tracker.Still` : nothing has happened but that handles were opened and events reported
- `Tracker.Idles` : from a state on, a computation gives a result and does nothing else

## Main results

- `Tracker.Idles.bind`, `Tracker.Idles.attempt_bind` and so on : one rule for each way to build a
  computation
- `Tracker.idles_resolve`, `Tracker.idles_reopen`, `Tracker.idles_applyListing` and so on : when the parts
  of a scan idle
-/

namespace TreeWatch

/-! ### Changes that change nothing -/

namespace Arena

variable {α : Type} {a : Arena α} {i : Index} {value : α}

theorem set_of_get? (h : a.get? i = some value) : a.set i value = a := by
  unfold set
  rw [contains, h, Option.isSome_some, if_pos rfl]
  have hslots : a.slots.setIfInBounds i.slot.toNat ⟨i.generation, some value⟩ = a.slots := by
    refine Array.ext_getElem? fun k => ?_
    rw [Array.getElem?_setIfInBounds]
    split
    · next hk =>
      subst hk
      obtain ⟨hinside, -⟩ := Array.getElem?_eq_some_iff.1 (slots_of_get? h)
      rw [if_pos hinside, slots_of_get? h]
    · rfl
  rw [hslots]

theorem modify_of_get? {f : α → α} (h : a.get? i = some value) (hf : f value = value) :
    a.modify i f = a := by
  unfold modify
  rw [h]
  simp only [hf]
  exact set_of_get? h

end Arena

namespace Tree

variable {t : Tree} {i : InodeId} {r : InodeRecord}

/-- A fingerprint that is there already. -/
theorem refreshFingerprint_of_record? (h : t.record? i = some r) :
    t.refreshFingerprint i r.fingerprint = t := by
  have hinodes : t.inodes.modify i.index (fun r' => { r' with fingerprint := r.fingerprint }) =
      t.inodes := Arena.modify_of_get? h rfl
  unfold refreshFingerprint modifyRecord
  rw [hinodes]

/-- A record waits, is bound or is the root unless it is stray. -/
theorem Sound.orphanIfUnlinked_of_not_stray (h : t.Sound) (hi : ¬t.Stray i) (now : Instant) :
    (t.orphanIfUnlinked i now).2 = t := by
  unfold Tree.orphanIfUnlinked
  split
  · next r hr =>
    split
    · next hwaits =>
      simp only [Bool.and_eq_true, decide_eq_true_eq, Bool.not_eq_true'] at hwaits
      obtain ⟨⟨hunlinked, hroot⟩, hidle⟩ := hwaits
      refine absurd ⟨⟨hroot, fun p name hname => ?_⟩, ?_, hidle⟩ hi
      · obtain ⟨e, he⟩ := h.child?_eq_some_iff.1 hname
        exact r.isUnlinked_iff.1 hunlinked e ((h.link_iff hr e).2 ⟨_, he, rfl⟩)
      · rw [identity?_eq_some_iff.2 ⟨r, hr, rfl⟩]
        exact Option.some_ne_none _
    · rfl
  · rfl

end Tree

namespace ScanSummary

variable {a b : ScanSummary}

theorem changed_add (ha : a.changed = false) (hb : b.changed = false) : (a + b).changed = false := by
  rw [changed_eq_false_iff] at ha hb ⊢
  exact ⟨congrArg₂ (· + ·) ha.1 hb.1, congrArg₂ (· + ·) ha.2 hb.2⟩

end ScanSummary

namespace Tracker

open View

variable {σ ε ε' α β : Type}

/-- Between the two states nothing has happened but that handles were opened and events reported. -/
structure Still (w w' : Tracker σ) : Prop where
  files : w'.files = w.files
  tree : w'.tree = w.tree
  journal : w'.ledger.journal = w.ledger.journal

/-- Begun in `w`, the computation gives a result as told, and nothing else has happened. -/
def Idles (x : Track σ ε α) (w : Tracker σ) (P : α → Prop) : Prop :=
  ∃ a w', x.run w = (.ok a, w') ∧ P a ∧ Still w w'

/-- Begun in `w`, the scan binds and unbinds nothing, and nothing else has happened. -/
abbrev Rests (x : Track σ ε ScanSummary) (w : Tracker σ) : Prop :=
  Idles x w fun summary => summary.changed = false

variable {w w' w'' : Tracker σ}

theorem Still.refl (w : Tracker σ) : Still w w := ⟨rfl, rfl, rfl⟩

theorem Still.trans (h : Still w w') (h' : Still w' w'') : Still w w'' :=
  ⟨h'.files.trans h.files, h'.tree.trans h.tree, h'.journal.trans h.journal⟩

theorem Still.leases (w : Tracker σ) (leases : Leases) : Still w { w with leases } := ⟨rfl, rfl, rfl⟩

theorem Still.noted (w : Tracker σ) (event : LogEvent) :
    Still w { w with ledger := w.ledger.note event } := ⟨rfl, rfl, rfl⟩

theorem Still.ready {fs : Filesystem σ Serial} {d : Disk} (h : Still w w') (hw : Ready fs d w) :
    Ready fs d w' :=
  ⟨h.files ▸ hw.plain, h.tree ▸ hw.sound, h.tree ▸ hw.truthful⟩

namespace Idles

variable {P : α → Prop} {Q : β → Prop} {x : Track σ ε α} {f : α → Track σ ε β} {a : α}

protected theorem pure (h : P a) : Idles (pure a : Track σ ε α) w P := ⟨a, w, rfl, h, .refl w⟩

theorem mono {P' : α → Prop} (h : Idles x w P) (hP : ∀ a, P a → P' a) : Idles x w P' := by
  obtain ⟨a, w', hrun, ha, hstill⟩ := h
  exact ⟨a, w', hrun, hP a ha, hstill⟩

theorem step (hx : x.run w = (.ok a, w')) (hstill : Still w w') (hf : Idles (f a) w' Q) :
    Idles (x >>= f) w Q := by
  obtain ⟨b, w'', hrun, hb, hstill'⟩ := hf
  refine ⟨b, w'', ?_, hb, hstill.trans hstill'⟩
  rw [run_bind, hx]
  exact hrun

theorem bind (hx : Idles x w P) (hf : ∀ a w', P a → Still w w' → Idles (f a) w' Q) :
    Idles (x >>= f) w Q := by
  obtain ⟨a, w', hrun, ha, hstill⟩ := hx
  exact .step hrun hstill (hf a w' ha hstill)

theorem attempt_step {g : Except ε α → Track σ ε' β} {r : Except ε α} (hx : x.run w = (r, w'))
    (hstill : Still w w') (hg : Idles (g r) w' Q) : Idles (attempt x >>= g) w Q := by
  have hrun : (attempt x : Track σ ε' (Except ε α)).run w = (.ok r, w') := by rw [run_attempt, hx]
  exact .step hrun hstill hg

theorem attempt_bind {g : Except ε α → Track σ ε' β} (hx : Idles x w P)
    (hg : ∀ a w', P a → Still w w' → Idles (g (.ok a)) w' Q) : Idles (attempt x >>= g) w Q := by
  obtain ⟨a, w', hrun, ha, hstill⟩ := hx
  exact .attempt_step hrun hstill (hg a w' ha hstill)

theorem releasing (hx : Idles x w P) : Idles (releasing x) w P := by
  obtain ⟨a, w', hrun, ha, hstill⟩ := hx
  refine ⟨a, { w' with leases := w'.leases.giveBack }, ?_, ha, hstill.trans (.leases w' _)⟩
  rw [run_releasing, hrun]

end Idles

variable {fs : Filesystem σ Serial} {d : Disk} {s o : Serial} {p i : InodeId} {name : Bytes}
  {strict recursive : Bool} {scanBelow : ScanBelow σ Serial}

/-! ### Names -/

/-- A record that says what the disk says is found, and it is not changed. -/
theorem idles_resolve (hw : Ready fs d w) (hsize : ¬d.Oversized o)
    (hi : w.tree.view.Current d i o) : Idles (resolve fs o) w fun i' => i' = i := by
  obtain ⟨-, n, -, hn, -⟩ := hi.holds
  obtain ⟨a, ha, hidentity⟩ := hi
  cases (Disk.attributes_eq hn).symm.trans ha
  have hlookup : w.tree.lookupIno n.ino = some i :=
    hw.sound.lookupIno_eq_some_iff.2 ⟨_, hidentity, rfl⟩
  obtain ⟨r, hr, hsame⟩ := Tree.identity?_eq_some_iff.1 hidentity
  have htoken : r.token = Disk.tokenOf o := congrArg Prod.snd hsame
  have hrefresh : w.tree.refreshFingerprint i n.fingerprint = w.tree := by
    have hfingerprint : r.fingerprint = n.fingerprint := congrArg (·.1.fingerprint) hsame
    rw [← hfingerprint]
    exact Tree.refreshFingerprint_of_record? hr
  let w' : Tracker σ := { w with ledger.tree := w.tree.refreshFingerprint i n.fingerprint }
  refine ⟨i, w', ?_, rfl, rfl, hrefresh, rfl⟩
  rw [run_resolve hw.plain hn hsize, hlookup]
  intro i' hi'
  rw [hlookup] at hi'
  cases hi'
  exact ⟨r, hr, htoken⟩

theorem run_rebind_of_child? (h : w.tree.child? p name = some i) :
    (rebind p name i : Track σ ScanError ScanSummary).run w = (.ok {}, w) := by
  obtain ⟨e, hentry, he⟩ := Option.bind_eq_some_iff.1 h
  unfold rebind
  rw [run_bind, run_look, hentry]
  simp only [Option.map_some, he, if_true, run_pure]

/-- Nothing has been bound, so only a recursive scan goes on below. -/
theorem idles_handOn (hplain : fs.Plain w.files d) (i : InodeId) (recursive : Bool) (o : Serial) :
    Idles (handOn fs i {} recursive o) w fun r => r.1.changed = false ∧
      ∀ handle, r.2 = some handle → handle = o ∧ recursive = true ∧ d.isDirectory o := by
  unfold handOn
  refine .step (run_look _ w) (.refl w) ?_
  have hzero : decide (0 < ({} : ScanSummary).linked) = false := rfl
  simp only [hzero, Bool.false_and, Bool.or_false]
  split
  · next hopen =>
    obtain ⟨-, hrecursive⟩ := (Bool.and_eq_true _ _).mp hopen
    by_cases hodir : d.isDirectory o
    · refine .attempt_step (hplain.run_openDirectory hodir) (.leases w _) (.pure ⟨rfl, ?_⟩)
      rintro handle ⟨⟩
      exact ⟨rfl, hrecursive, hodir⟩
    · refine .attempt_step (hplain.run_openDirectory_of_not hodir) (.refl w) (.pure ⟨rfl, ?_⟩)
      rintro handle ⟨⟩
  · refine .pure ⟨rfl, ?_⟩
    rintro handle ⟨⟩

theorem idles_bindObject (hw : Ready fs d w) (hbound : ¬d.Oversized o →
      ∃ i, w.tree.child? p name = some i ∧ w.tree.view.Current d i o) (recursive : Bool) :
    Idles (bindObject fs p name recursive o) w fun r => r.1.changed = false ∧
      ∀ handle, r.2 = some handle →
        handle = o ∧ recursive = true ∧ d.isDirectory o ∧ ¬d.Oversized o := by
  unfold bindObject
  by_cases hsize : d.Oversized o
  · refine .attempt_step (hw.plain.run_resolve_of_oversized hsize) (.refl w) ?_
    refine .step (run_note _ w) (.noted w _) (.pure ⟨rfl, ?_⟩)
    rintro handle ⟨⟩
  obtain ⟨i, hname, hi⟩ := hbound hsize
  refine .attempt_bind (idles_resolve hw hsize hi) ?_
  rintro _ w₁ rfl hstill
  rw [← hstill.tree] at hname
  refine .step (run_rebind_of_child? hname) (.refl w₁) ?_
  refine (idles_handOn (hstill.ready hw).plain _ recursive o).mono fun r hr => ⟨hr.1, ?_⟩
  intro handle hnext
  obtain ⟨rfl, hrecursive, hodir⟩ := hr.2 handle hnext
  exact ⟨rfl, hrecursive, hodir, hsize⟩

section names

variable (hw : Ready fs d w) (hdir : d.isDirectory s)
include hw hdir

/-- A name that is opened. -/
theorem rests_reopen (hbound : ∀ o, d.child? s name = some o → ¬d.Oversized o →
      ∃ i, w.tree.child? p name = some i ∧ w.tree.view.Current d i o)
    (hbelow : recursive = true → ∀ o, d.child? s name = some o → d.isDirectory o → ¬d.Oversized o →
      ∀ w', Still w w' → Rests (scanBelow o true) w') :
    Rests (reopen fs scanBelow s p recursive name) w := by
  obtain ⟨leases, hopen⟩ := hw.plain.run_openChild hdir name
  unfold reopen
  refine .step (by rw [run_wrapping, hopen]) (.leases w leases) ?_
  cases hchild : d.child? s name with
  | none => exact .step (run_note _ _) (.noted _ _) (.pure rfl)
  | some o =>
    have hbinds := idles_bindObject (hw.leases leases) (hbound o hchild) recursive
    refine .bind hbinds.releasing ?_
    rintro ⟨summary, next⟩ w₁ ⟨hsummary, hnext⟩ hstill
    cases next with
    | none => exact .pure hsummary
    | some handle =>
      obtain ⟨rfl, rfl, hodir, hsize⟩ := hnext handle rfl
      have hopened : Still w w₁ := (Still.leases w leases).trans hstill
      refine .bind (hbelow rfl _ hchild hodir hsize w₁ hopened) fun a w₂ ha _ => ?_
      exact .pure (ScanSummary.changed_add hsummary ha)

/-- The directory behind a name that is taken for unchanged. -/
theorem rests_descend (hbelow : ∀ o, d.child? s name = some o → d.isDirectory o →
      ∀ w', Still w w' → Rests (scanBelow o true) w') :
    Rests (descend fs scanBelow s name) w := by
  obtain ⟨leases, hdescend⟩ := run_descend scanBelow hw.plain hdir name
  have hopened : Still w { w with leases } := .leases w leases
  unfold Rests Idles
  rw [hdescend]
  cases hchild : d.child? s name with
  | none => exact ⟨_, _, rfl, rfl, hopened⟩
  | some o =>
    by_cases hodir : d.isDirectory o
    · obtain ⟨a, w', hrun, ha, hstill⟩ := hbelow o hchild hodir _ hopened
      simp only [hodir, if_true]
      exact ⟨a, w', hrun, ha, hopened.trans hstill⟩
    · simp only [hodir]
      exact ⟨_, _, rfl, rfl, hopened⟩

end names

/-! ### Directories -/

theorem rests_reconcileAll {listing : List ListedEntry} (h : ∀ e ∈ listing, ∀ w', Still w w' →
      Rests (reconcile fs strict scanBelow s p recursive e) w') :
    Rests (reconcileAll fs strict scanBelow s p recursive listing) w := by
  induction listing generalizing w with
  | nil => exact .pure rfl
  | cons e rest ih =>
    refine .bind (h e List.mem_cons_self w (.refl w)) fun a w₁ ha hstill => ?_
    refine .bind (ih fun e' he' w' hstill' => ?_) fun b w₂ hb _ => ?_
    · exact h e' (List.mem_cons_of_mem _ he') w' (hstill.trans hstill')
    · exact .pure (ScanSummary.changed_add ha hb)

/-- The record of a directory is in line with a listing. -/
theorem rests_applyListing (hsound : w.tree.Sound) {listing : List ListedEntry}
    (hlisted : ∀ e ∈ listing.filter (!·.isPseudo), ∀ w', Still w w' →
      Rests (reconcile fs strict scanBelow s p recursive e) w')
    (hnames : ∀ name i, w.tree.child? p name = some i →
      name ∈ (listing.filter (!·.isPseudo)).map (·.name))
    (hp : ¬w.tree.Stray p) : Rests (applyListing fs strict scanBelow s p recursive listing) w := by
  unfold applyListing
  refine .bind (rests_reconcileAll hlisted) fun below w₁ hbelow hstill => ?_
  rw [← hstill.tree] at hsound hnames hp
  refine .step (run_look _ _) (.refl w₁) ?_
  rw [goneEntries_eq_nil hsound hnames]
  refine .step (run_pure _ _) (.refl w₁) ?_
  have hwaits : Still w₁ { w₁ with ledger := w₁.ledger.orphanIfUnlinked p w₁.clock } :=
    ⟨rfl, hsound.orphanIfUnlinked_of_not_stray hp _, rfl⟩
  refine .step (run_edit _ _) hwaits (.step (run_look _ _) (.refl _) ?_)
  refine .step (run_note _ _) (.noted _ _) (.pure ?_)
  exact ScanSummary.changed_add (ScanSummary.changed_add rfl hbelow) rfl

/-- A directory with a token that is too large is passed over; another one has its record. -/
theorem rests_scanDirectory (hw : Ready fs d w) (h : ¬d.Oversized s → ∃ p,
      w.tree.view.Current d p s ∧ ∀ w', Still w w' →
        Rests (scanRecord fs strict scanBelow s p recursive) w') :
    Rests (scanDirectory fs strict scanBelow s recursive) w := by
  unfold scanDirectory
  refine .releasing ?_
  by_cases hsize : d.Oversized s
  · refine .attempt_step (hw.plain.run_resolve_of_oversized hsize) (.refl w) ?_
    exact .step (run_note _ w) (.noted w _) (.pure rfl)
  · obtain ⟨p, hp, hrests⟩ := h hsize
    refine .attempt_bind (idles_resolve hw hsize hp) ?_
    rintro _ w₁ rfl hstill
    exact hrests w₁ hstill

end Tracker

end TreeWatch

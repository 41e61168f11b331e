import TreeWatch.Proofs.Garbage.Stray
import TreeWatch.Proofs.Tracker.Reached

/-!
# Which computations leave stray records

A computation that succeeds leaves no stray record that was not one before, unless it hands it on to its
caller: finding the record of an object does that, and binding it redeems the debt.

## Main definitions

- `View.RootIs` : the root is the record of an inode number
- `Tracker.Standing` : the circumstances in which all this holds
- `Tracker.Sweeps` : a computation redeems some debts and makes others, if it succeeds

## Main results

- `Tracker.sweeps_scan`, `Tracker.sweeps_processBatch` and so on : one for each function
-/

namespace TreeWatch

namespace View

variable {v : View} {number : UInt64} {i x : InodeId}

/-- If there is a root, it is the record of the inode number. -/
def RootIs (v : View) (number : UInt64) : Prop :=
  ∀ r, v.root = some r → ∃ x, v.identity r = some x ∧ x.1.ino = number

theorem RootIs.insert (h : v.RootIs number) (hunused : v.identity i = none) (a : Attributes)
    (token : IdentityToken) : (v.insert i a token).RootIs number := by
  intro r hr
  obtain ⟨x, hx, hino⟩ := h r hr
  refine ⟨x, ?_, hino⟩
  rw [identity_insert, if_neg, hx]
  rintro rfl
  rw [hunused] at hx
  cases hx

theorem RootIs.refresh (h : v.RootIs number) (i : InodeId) (fingerprint : Fingerprint) :
    (v.refresh i fingerprint).RootIs number := by
  intro r hr
  obtain ⟨x, hx, hino⟩ := h r hr
  rw [identity_refresh, hx, Option.map_some]
  split
  · exact ⟨_, rfl, hino⟩
  · exact ⟨_, rfl, hino⟩

theorem RootIs.destroy (h : v.RootIs number) (x : InodeId) : (v.destroy x).RootIs number := by
  intro r hr
  simp only [View.destroy] at hr ⊢
  split at hr
  · cases hr
  · next hne =>
    obtain ⟨a, ha, hino⟩ := h r hr
    refine ⟨a, ?_, hino⟩
    rw [if_neg, ha]
    rintro rfl
    exact hne hr

end View

theorem Tree.Pruned.rootIs {t t' : Tree} {number : UInt64} (h : t.Pruned t')
    (ht : t.view.RootIs number) : t'.view.RootIs number := by
  intro r hr
  have hold : t.root = some r := h.root_eq ▸ hr
  obtain ⟨x, hx, hino⟩ := ht r hold
  exact ⟨x, (h.root_kept hold).trans hx, hino⟩

/-- Making the only record of the number the root leaves no stray behind. -/
theorem Tree.Sound.stray_setRoot {t : Tree} {i j : InodeId} {number : UInt64} (h : t.Sound)
    (hroot : t.view.RootIs number) (hi : ∃ x, t.identity? i = some x ∧ x.1.ino = number)
    (hj : (t.setRoot i).Stray j) : t.Stray j ∧ j ≠ i := by
  have hne : j ≠ i := by
    rintro rfl
    exact hj.root_ne rfl
  refine ⟨hj.before (fun hold => ?_) (fun _ _ => id) id fun hwaiting => ?_, hne⟩
  · -- the old root has the number, too
    have hleft := h.lookupIno_eq_some_iff.2 (hroot j hold)
    rw [h.lookupIno_eq_some_iff.2 hi] at hleft
    exact congrArg some (Option.some.inj hleft)
  · have hkept : (t.setRoot i).isOrphan j =
        ({ t with orphans := t.orphans.erase i } : Tree).isOrphan j := rfl
    rw [hkept, Tree.isOrphan_erase, hwaiting, decide_eq_true hne]
    rfl

/-- Whenever the root has been opened, its attributes say the inode number. -/
def Filesystem.RootNumbered {σ H : Type} (fs : Filesystem σ H) (world : σ → Prop) (number : UInt64) :
    Prop :=
  ∀ files files' object a, world files → (fs.openRoot.run files).1 = .ok object → world files' →
    ((fs.attributes object).run files').1 = .ok a → a.ino = number

namespace Tracker

variable {σ H ε ε' α β : Type}

/-! ### Sweeping computations -/

variable (world : σ → Prop) (made : Attributes → IdentityToken → Prop) (number : UInt64)

/-- The filesystem is in one of the states it can be in, the tree is sound, and its root is the record of
the number. -/
structure Standing (w : Tracker σ) : Prop where
  files : world w.files
  sound : w.tree.Sound
  root : w.tree.view.RootIs number

/-- If the computation gives a result, strays are as told by `post`, or they were strays before and are
not among those in `pre`. -/
structure Sweeps (x : Track σ ε α) (pre : InodeId → Prop) (post : α → InodeId → Prop) : Prop where
  edits : EditsOnly world { made } x
  root : ∀ w, Standing world number w → (x.run w).2.tree.Fits →
    (x.run w).2.tree.view.RootIs number
  strays : ∀ w a, Standing world number w → (x.run w).2.tree.Fits → (x.run w).1 = .ok a →
    ∀ i, (x.run w).2.tree.Stray i → post a i ∨ (w.tree.Stray i ∧ ¬pre i)

/-- No debts. -/
abbrev nothing : InodeId → Prop := fun _ => False

/-- The debts after a computation whose failures are caught. -/
def caught (post : α → InodeId → Prop) (failed : InodeId → Prop) : Except ε α → InodeId → Prop
  | .ok a => post a
  | .error _ => failed

variable {world made number}

theorem Sweeps.standing {x : Track σ ε α} {pre : InodeId → Prop} {post : α → InodeId → Prop}
    (hx : Sweeps world made number x pre post) {w : Tracker σ} (hw : Standing world number w)
    (fits : (x.run w).2.tree.Fits) : Standing world number (x.run w).2 where
  files := (hx.edits w hw.files).files
  sound := Tree.Edits.sound (hx.edits w hw.files).tree hw.sound fits
  root := hx.root w hw fits

namespace Sweeps

variable {pre mid : InodeId → Prop} {post : α → InodeId → Prop} {post' : β → InodeId → Prop}

/-- A computation that leaves the tree alone. -/
theorem of_frame {x : Track σ ε α} (hx : EditsOnly world { made } x)
    (htree : ∀ w, (x.run w).2.tree = w.tree) (hpost : ∀ a i, pre i → post a i) :
    Sweeps world made number x pre post where
  edits := hx
  root w hw _ := (htree w).symm ▸ hw.root
  strays w a _ _ _ i hi := by
    rw [htree] at hi
    by_cases hpre : pre i
    · exact .inl (hpost a i hpre)
    · exact .inr ⟨hi, hpre⟩

protected theorem pure {a : α} (h : ∀ i, pre i → post a i) :
    Sweeps world made number (pure a : Track σ ε α) pre post where
  edits := .pure a
  root _ hw _ := hw.root
  strays w a' _ _ hrun i hi := by
    cases hrun
    by_cases hpre : pre i
    · exact .inl (h i hpre)
    · exact .inr ⟨hi, hpre⟩

/-- Nothing is claimed of failures. -/
protected theorem throw (e : ε) : Sweeps world made number (throw e : Track σ ε α) pre post where
  edits := .throw e
  root _ hw _ := hw.root
  strays _ _ _ _ hrun := by cases hrun

theorem bind {x : Track σ ε α} {f : α → Track σ ε β} (hx : Sweeps world made number x pre post)
    (hf : ∀ a, Sweeps world made number (f a) (post a) post') :
    Sweeps world made number (x >>= f) pre post' := by
  have hboth : ∀ w, Standing world number w → ((x >>= f).run w).2.tree.Fits →
      (∃ e w₁, x.run w = (.error e, w₁) ∧ (x >>= f).run w = (.error e, w₁)) ∨
        ∃ a w₁, x.run w = (.ok a, w₁) ∧ (x >>= f).run w = (f a).run w₁ ∧ w₁.tree.Fits := by
    intro w hw fits
    have hworld := (hx.edits w hw.files).files
    rw [run_bind] at fits ⊢
    generalize x.run w = outcome at *
    obtain ⟨r, w₁⟩ := outcome
    cases r with
    | error e => exact .inl ⟨e, w₁, rfl, rfl⟩
    | ok a =>
      exact .inr ⟨a, w₁, rfl, rfl, ((hf a).edits w₁ hworld).tree.grows.fits fits⟩
  refine ⟨.bind hx.edits fun a => (hf a).edits, fun w hw fits => ?_, fun w b hw fits hrun i hi => ?_⟩
  · rcases hboth w hw fits with ⟨e, w₁, hrun, hboth⟩ | ⟨a, w₁, hrun, hboth, hmid⟩
    · rw [hboth] at fits ⊢
      have hroot := hx.root w hw
      rw [hrun] at hroot
      exact hroot fits
    · have hstanding := hx.standing hw
      rw [hrun] at hstanding
      rw [hboth] at fits ⊢
      exact (hf a).root w₁ (hstanding hmid) fits
  · rcases hboth w hw fits with ⟨e, w₁, -, hboth⟩ | ⟨a, w₁, hfirst, hboth, hmid⟩
    · rw [hboth] at hrun
      cases hrun
    · have hstanding := hx.standing hw
      have hstrays := hx.strays w a hw
      rw [hfirst] at hstanding hstrays
      rw [hboth] at fits hrun hi
      refine ((hf a).strays w₁ b (hstanding hmid) fits hrun i hi).imp_right fun hleft => ?_
      exact (hstrays hmid rfl i hleft.1).resolve_left hleft.2

theorem look (f : Tracker σ → α) :
    Sweeps world made number (look f : Track σ ε α) pre fun _ => pre :=
  .of_frame (.look f) (fun _ => rfl) fun _ _ => id

theorem note (event : LogEvent) :
    Sweeps world made number (note event : Track σ ε Unit) pre fun _ => pre :=
  .of_frame (.note event) (fun _ => rfl) fun _ _ => id

theorem wrapping {x : Track σ ε α} (wrap : ε → ε') (hx : Sweeps world made number x pre post) :
    Sweeps world made number (wrapping wrap x) pre post := by
  refine ⟨.wrapping wrap hx.edits, fun w hw => ?_, fun w a hw => ?_⟩
  · have hroot := hx.root w hw
    rw [run_wrapping]
    generalize x.run w = outcome at *
    obtain ⟨r, w₁⟩ := outcome
    cases r <;> exact hroot
  · have hstrays := hx.strays w a hw
    rw [run_wrapping]
    generalize x.run w = outcome at *
    obtain ⟨r, w₁⟩ := outcome
    cases r with
    | error e => exact fun _ h => by cases h
    | ok a' => exact fun fits h => hstrays fits (by cases h; rfl)

theorem releasing {x : Track σ ε α} (hx : Sweeps world made number x pre post) :
    Sweeps world made number (releasing x) pre post :=
  ⟨.releasing hx.edits, fun w hw fits => hx.root w hw fits,
    fun w a hw fits hrun => hx.strays w a hw fits hrun⟩

/-- If a failure is caught, something must be known of what it left. -/
theorem attempt {x : Track σ ε α} (hx : Sweeps world made number x pre post)
    (failed : InodeId → Prop) (hfailed : ∀ w e, Standing world number w → (x.run w).1 = .error e →
      ∀ i, (x.run w).2.tree.Stray i → failed i ∨ (w.tree.Stray i ∧ ¬pre i)) :
    Sweeps world made number (attempt x : Track σ ε' (Except ε α)) pre (caught post failed) := by
  refine ⟨.attempt hx.edits, fun w hw fits => hx.root w hw fits, fun w r hw fits hrun => ?_⟩
  have hrun : (x.run w).1 = r := Except.ok.inj hrun
  cases r with
  | ok a => exact hx.strays w a hw fits hrun
  | error e => exact hfailed w e hw hrun

/-- A part that depends on the tree need redeem only those of the debts that are strays there. -/
theorem look_bind {γ : Type} {f : Tracker σ → γ} {g : γ → Track σ ε α}
    (hedits : EditsOnly world { made } (Tracker.look f >>= g))
    (h : ∀ w, Standing world number w → ∃ pre', (∀ i, w.tree.Stray i → pre i → pre' i) ∧
      Sweeps world made number (g (f w)) pre' post) :
    Sweeps world made number (Tracker.look f >>= g) pre post := by
  refine ⟨hedits, fun w hw fits => ?_, fun w a hw fits hrun i hi => ?_⟩
  · obtain ⟨pre', -, hx⟩ := h w hw
    exact hx.root w hw fits
  · obtain ⟨pre', hpre, hx⟩ := h w hw
    exact (hx.strays w a hw fits hrun i hi).imp_right fun hold =>
      ⟨hold.1, fun hi => hold.2 (hpre i hold.1 hi)⟩

/-- Debts of the caller stay as they are. -/
theorem carry {x : Track σ ε α} (hx : Sweeps world made number x nothing fun _ => nothing)
    (debts : InodeId → Prop) : Sweeps world made number x debts fun _ => debts where
  edits := hx.edits
  root := hx.root
  strays w a hw fits hrun i hi := by
    have hold := ((hx.strays w a hw fits hrun i hi).resolve_left id).1
    exact (Classical.em (debts i)).imp_right fun hnot => ⟨hold, hnot⟩

end Sweeps

/-! ### Finding records and binding names -/

/-- What finding the record of an object does to strays and to the root. -/
structure Resolved (number : UInt64) (a : Attributes) (t : Tree) (i : InodeId) (t' : Tree) :
    Prop where
  root : t.view.RootIs number → t'.view.RootIs number
  strays : ∀ j, t'.Stray j → t.Stray j ∨ j = i
  ino : ∃ x, t'.identity? i = some x ∧ x.1.ino = a.ino

theorem resolved_insertRecord {t t' : Tree} {a : Attributes} {token : IdentityToken} {i : InodeId}
    (h : t.Sound) (hino : t.lookupIno a.ino = none) (hinsert : t.insertRecord a token = (i, t'))
    (fits : t'.Fits) : Resolved number a t i t' := by
  obtain ⟨rfl, rfl⟩ := Prod.ext_iff.1 hinsert
  have hview := h.view_insertRecord hino fits
  refine ⟨fun hroot => ?_, fun j hj => h.stray_insertRecord hino fits hj, (a, token), ?_, rfl⟩
  · rw [hview]
    exact hroot.insert (h.unused_fst_insertRecord fits).identity a token
  · have hidentity := congrFun (congrArg View.identity hview) (t.insertRecord a token).1
    rwa [View.identity_insert, if_pos rfl] at hidentity

theorem Resolved.of_destroy {l : Ledger} {clock : Clock} {old i : InodeId} {t' : Tree}
    {a : Attributes} (h : l.tree.Sound)
    (hresolved : Resolved number a (l.destroy clock old).2.tree i t') :
    Resolved number a l.tree i t' := by
  refine ⟨fun hroot => hresolved.root ?_, fun j hj => ?_, hresolved.ino⟩
  · cases hr : l.tree.record? old with
    | none =>
      rw [Ledger.destroy_of_none clock old hr]
      exact hroot
    | some r =>
      rw [(Ledger.destroyed_destroy clock old h hr).view_eq h]
      exact hroot.destroy old
  · exact (hresolved.strays j hj).imp_left (Ledger.stray_destroy h)

/-- When the record of an object is found, the filesystem has given its attributes. -/
theorem resolved_of_run (number : UInt64) {fs : Filesystem σ H} {object : H} {w w' : Tracker σ}
    {i : InodeId} (h : w.tree.Sound) (hrun : (resolve fs object).run w = (.ok i, w')) (fits : w'.tree.Fits) :
    ∃ a, ((fs.attributes object).run w.files).1 = .ok a ∧ Resolved number a w.tree i w'.tree := by
  rcases resolve_cases fs object w with ⟨e, w₁, herror, -⟩ | ⟨a, token, ha, -, j, w₁, hok, hcases⟩
  · cases hrun.symm.trans herror
  cases hrun.symm.trans hok
  refine ⟨a, ha, ?_⟩
  rcases hcases with ⟨hino, hinsert⟩ | ⟨hino, htree⟩ | ⟨old, l, clock, hold, hl, hinsert⟩
  · exact resolved_insertRecord h hino hinsert fits
  · obtain ⟨x, hx, hxino⟩ := h.lookupIno_eq_some_iff.1 hino
    have hview := h.view_refreshFingerprint i a.fingerprint
    rw [htree]
    refine ⟨fun hroot => hview ▸ hroot.refresh _ _,
      fun j hj => .inl (h.stray_refreshFingerprint hj), ?_⟩
    have hidentity := congrFun (congrArg View.identity hview) i
    rw [View.identity_refresh, Tree.view_identity, Tree.view_identity, hx, Option.map_some,
      if_pos rfl] at hidentity
    exact ⟨_, hidentity, hxino⟩
  · rw [← hl] at h hold ⊢
    have hfree := Tree.lookupIno_invalidate clock h hold
    rw [Ledger.tree_invalidate] at hfree hinsert
    exact (resolved_insertRecord (Ledger.sound_destroy clock old h) hfree hinsert fits).of_destroy h

variable {fs : Filesystem σ H} (hfs : fs.Vouches world { made })
include hfs

/-- A new record is a debt. -/
theorem sweeps_resolve (object : H) :
    Sweeps world made number (resolve fs object) nothing fun i j => j = i := by
  refine ⟨editsOnly_resolve hfs object, fun w hw fits => ?_, fun w i hw fits hrun j hj => ?_⟩
  · rcases resolve_cases fs object w with ⟨e, w', hrun, htree⟩ | ⟨-, -, -, -, i, w', hrun, -⟩
    · rw [hrun, htree]
      exact hw.root
    · rw [hrun] at fits ⊢
      obtain ⟨a, -, hresolved⟩ := resolved_of_run number hw.sound hrun fits
      exact hresolved.root hw.root
  · generalize houtcome : (resolve fs object).run w = outcome at *
    obtain ⟨r, w'⟩ := outcome
    cases hrun
    obtain ⟨a, -, hresolved⟩ := resolved_of_run number hw.sound houtcome fits
    exact (hresolved.strays j hj).symm.imp_right fun hold => ⟨hold, id⟩

theorem sweeps_attempt_resolve (object : H) :
    Sweeps world made number (attempt (resolve fs object) : Track σ ε (Except IdentityError InodeId))
      nothing (caught (fun i j => j = i) nothing) := by
  refine (sweeps_resolve hfs object).attempt nothing fun w e hw hrun j hj => .inr ⟨?_, id⟩
  rcases resolve_cases fs object w with ⟨e', w', herror, htree⟩ | ⟨-, -, -, -, i, w', hok, -⟩
  · rw [herror, htree] at hj
    exact hj
  · rw [hok] at hrun
    cases hrun

omit hfs

/-- Binding a record redeems it. -/
theorem sweeps_bindName (parent : InodeId) (name : Bytes) (child : InodeId) :
    Sweeps world made number (bindName parent name child : Track σ ScanError Unit) (· = child)
      fun _ => nothing := by
  refine ⟨editsOnly_bindName trivial parent child, fun w hw fits => ?_, fun w a hw fits hrun j hj => ?_⟩
  · rw [run_bindName] at fits ⊢
    cases hadd : w.tree.addEntry parent name child with
    | error e => exact hw.root
    | ok q =>
      obtain ⟨e, t, o⟩ := q
      simp only [hadd] at fits ⊢
      obtain ⟨⟨r, hchild⟩, ⟨r', hparent, hdir, hfree⟩, -, rfl⟩ := Tree.addEntry_eq_ok hadd
      show (w.tree.withEntry parent name child).view.RootIs number
      rw [hw.sound.view_withEntry hchild hparent hdir hfree fits]
      exact hw.root
  · rw [run_bindName] at fits hrun hj
    cases hadd : w.tree.addEntry parent name child with
    | error e =>
      rw [hadd] at hrun
      cases hrun
    | ok q =>
      obtain ⟨e, t, o⟩ := q
      simp only [hadd] at fits hj
      exact .inr (hw.sound.stray_addEntry hadd fits hj)

theorem sweeps_unbindEntry (entry : EntryId) (pre : InodeId → Prop) :
    Sweeps world made number (unbindEntry entry : Track σ ScanError Unit) pre fun _ => pre := by
  refine ⟨editsOnly_unbindEntry entry, fun w hw fits => ?_, fun w a hw fits hrun j hj => ?_⟩
  · rw [run_unbindEntry] at fits ⊢
    cases hremove : w.tree.removeEntry (w.clock w.ledger.reads) entry with
    | error e => exact hw.root
    | ok q =>
      obtain ⟨t, o⟩ := q
      obtain ⟨b, entries, hentry, -⟩ := Tree.removeEntry_eq_ok hremove
      show t.view.RootIs number
      rw [hw.sound.view_removeEntry (Arena.get?_of_remove hentry) hremove]
      exact hw.root
  · rw [run_unbindEntry] at hrun hj
    cases hremove : w.tree.removeEntry (w.clock w.ledger.reads) entry with
    | error e =>
      rw [hremove] at hrun
      cases hrun
    | ok q =>
      obtain ⟨t, o⟩ := q
      simp only [hremove] at hj
      have hold := hw.sound.stray_removeEntry hremove hj
      exact (Classical.em (pre j)).imp_right fun hpre => ⟨hold, hpre⟩

theorem sweeps_rebind (parent : InodeId) (name : Bytes) (child : InodeId) :
    Sweeps world made number (rebind parent name child : Track σ ScanError ScanSummary) (· = child)
      fun _ => nothing := by
  refine .look_bind (editsOnly_rebind trivial parent child) fun w hw => ?_
  cases hentry : w.tree.childEntryOf? parent name with
  | none =>
    refine ⟨(· = child), fun _ _ => id, ?_⟩
    exact .bind (sweeps_bindName parent name child) fun _ => .pure fun _ => id
  | some e =>
    obtain ⟨b, hb, -, -⟩ := hw.sound.childEntryOf?_eq_some_iff.1 hentry
    simp only [Option.map_some, hb, Option.some.injEq]
    by_cases hsame : b.child = child
    · -- a record with a name is no stray
      refine ⟨nothing, ?_, by simpa only [hsame, if_true] using .pure fun _ => id⟩
      rintro i hi rfl
      exact hi.child?_ne b.parent b.name (hw.sound.child?_eq_some_iff.2 ⟨e, hsame ▸ hb⟩)
    · refine ⟨(· = child), fun _ _ => id, ?_⟩
      rw [if_neg hsame]
      exact .bind (sweeps_unbindEntry e _) fun _ =>
        .bind (sweeps_bindName parent name child) fun _ => .pure fun _ => id

/-! ### Scanning -/

/-- What the filesystem is asked does not change the tree. -/
theorem tree_askOpen {opened : α → Bool} {call : StateM σ (Except ε α)} (w : Tracker σ) :
    ((askOpen opened call).run w).2.tree = w.tree := by
  rw [run_askOpen]
  split <;> rfl

include hfs

theorem sweeps_attempt_openDirectory (object : H) :
    Sweeps world made number
      (attempt (openDirectory fs object) : Track σ ε (Except SyscallError H)) nothing
      fun _ => nothing :=
  .of_frame (.attempt (.askOpen fun files hw => hfs.openDirectory object files hw)) tree_askOpen
    fun _ _ => id

theorem sweeps_openChild (directory : H) (name : Bytes) :
    Sweeps world made number (wrapping ScanError.call (openChild fs directory name)) nothing
      fun _ => nothing :=
  .wrapping _ (.of_frame (.askOpen fun files hw => hfs.openChild directory name files hw)
    tree_askOpen fun _ _ => id)

theorem sweeps_handOn (child : InodeId) (summary : ScanSummary) (recursive : Bool) (object : H) :
    Sweeps world made number (handOn fs child summary recursive object) nothing
      fun _ => nothing := by
  refine .bind (.look _) fun record => ?_
  simp only
  split
  · refine .bind (sweeps_attempt_openDirectory hfs object) fun opened => ?_
    split
    · exact .pure fun _ => id
    · split
      · exact .pure fun _ => id
      · exact .throw _
  · exact .pure fun _ => id

theorem sweeps_bindObject (parent : InodeId) (name : Bytes) (recursive : Bool) (object : H) :
    Sweeps world made number (bindObject fs parent name recursive object) nothing
      fun _ => nothing := by
  refine .bind (sweeps_attempt_resolve hfs object) fun resolved => ?_
  split
  · exact .bind (.note _) fun _ => .pure fun _ => id
  · split
    · exact .bind (.note _) fun _ => .pure fun _ => id
    · exact .throw _
  · exact .throw _
  · exact .bind (sweeps_rebind _ _ _) fun summary => sweeps_handOn hfs _ _ _ _

section below

variable {scanBelow : ScanBelow σ H} (strict : Bool)
  (hbelow : ∀ object recursive,
    Sweeps world made number (scanBelow object recursive) nothing fun _ => nothing)
include hbelow

theorem sweeps_descend (directory : H) (name : Bytes) :
    Sweeps world made number (descend fs scanBelow directory name) nothing fun _ => nothing := by
  refine .bind (sweeps_openChild hfs directory name) fun child => ?_
  split
  · exact .pure fun _ => id
  · refine .bind (.releasing (sweeps_attempt_openDirectory hfs _)) fun opened => ?_
    split
    · exact hbelow _ _
    · split
      · exact .pure fun _ => id
      · exact .throw _

theorem sweeps_reopen (directory : H) (parent : InodeId) (recursive : Bool) (name : Bytes) :
    Sweeps world made number (reopen fs scanBelow directory parent recursive name) nothing
      fun _ => nothing := by
  refine .bind (sweeps_openChild hfs directory name) fun child => ?_
  split
  · exact .bind (.note _) fun _ => .pure fun _ => id
  · refine .bind (.releasing (sweeps_bindObject hfs _ _ _ _)) fun outcome => ?_
    obtain ⟨summary, next⟩ := outcome
    simp only
    split
    · exact .bind (hbelow _ _) fun _ => .pure fun _ => id
    · exact .pure fun _ => id

theorem sweeps_reconcile (directory : H) (parent : InodeId) (recursive : Bool)
    (listed : ListedEntry) :
    Sweeps world made number (reconcile fs strict scanBelow directory parent recursive listed)
      nothing fun _ => nothing := by
  refine .bind (.look _) fun record => ?_
  split
  · split
    · exact sweeps_reopen hfs hbelow _ _ _ _
    · split
      · exact .bind (sweeps_descend hfs hbelow _ _) fun _ => .pure fun _ => id
      · exact .pure fun _ => id
  · exact sweeps_reopen hfs hbelow _ _ _ _

theorem sweeps_reconcileAll (directory : H) (parent : InodeId) (recursive : Bool)
    (listing : List ListedEntry) :
    Sweeps world made number (reconcileAll fs strict scanBelow directory parent recursive listing)
      nothing fun _ => nothing := by
  induction listing with
  | nil => exact .pure fun _ => id
  | cons listed rest ih =>
    exact .bind (sweeps_reconcile hfs strict hbelow _ _ _ _) fun _ =>
      .bind ih fun _ => .pure fun _ => id

omit hfs hbelow in
theorem sweeps_unbindAll (entries : List EntryId) (pre : InodeId → Prop) :
    Sweeps world made number (unbindAll entries : Track σ ScanError ScanSummary) pre
      fun _ => pre := by
  induction entries with
  | nil => exact .pure fun _ => id
  | cons entry rest ih =>
    exact .bind (sweeps_unbindEntry entry pre) fun _ => .bind ih fun _ => .pure fun _ => id

omit hfs hbelow in
/-- Letting a record wait redeems it as well. -/
theorem sweeps_orphanIfUnlinked (parent : InodeId) :
    Sweeps world made number
      (edit fun clock l => l.orphanIfUnlinked parent clock : Track σ ScanError Unit) (· = parent)
      fun _ => nothing := by
  refine ⟨editsOnly_orphanIfUnlinked parent, fun w hw fits => ?_, fun w a hw fits hrun i hi => ?_⟩
  · show (w.tree.orphanIfUnlinked parent (w.clock w.ledger.reads)).2.view.RootIs number
    rw [Tree.view_orphanIfUnlinked]
    exact hw.root
  · exact .inr (hw.sound.stray_orphanIfUnlinked hi)

/-- Whatever becomes of the others, the scanned record is bound, waits or is the root afterwards. -/
theorem sweeps_applyListing (directory : H) (parent : InodeId) (recursive : Bool)
    (listing : List ListedEntry) :
    Sweeps world made number (applyListing fs strict scanBelow directory parent recursive listing)
      (· = parent) fun _ => nothing := by
  refine .bind ((sweeps_reconcileAll hfs strict hbelow _ _ _ _).carry _) fun _ => ?_
  refine .bind (.look _) fun _ => .bind (sweeps_unbindAll _ _) fun _ => ?_
  refine .bind (sweeps_orphanIfUnlinked parent) fun _ => ?_
  exact .bind (.look _) fun _ => .bind (.note _) fun _ => .pure fun _ => id

theorem sweeps_scanRecord (directory : H) (parent : InodeId) (recursive : Bool) :
    Sweeps world made number (scanRecord fs strict scanBelow directory parent recursive)
      (· = parent) fun _ => nothing := by
  have hlist : Sweeps world made number (attempt (list fs directory) : Track σ ScanError _)
      (· = parent) fun _ => (· = parent) :=
    .of_frame (.attempt (.ask fun files hw => hfs.list directory files hw)) (fun _ => rfl)
      fun _ _ => id
  refine .bind hlist fun listed => ?_
  split
  · exact sweeps_applyListing hfs strict hbelow _ _ _ _
  · split
    · refine .bind (.look _) fun _ => .bind (.note _) fun _ => ?_
      exact .bind (sweeps_orphanIfUnlinked parent) fun _ => .pure fun _ => id
    · exact .throw _

theorem sweeps_scanDirectory (directory : H) (recursive : Bool) :
    Sweeps world made number (scanDirectory fs strict scanBelow directory recursive) nothing
      fun _ => nothing := by
  refine .releasing (.bind (sweeps_attempt_resolve hfs directory) fun resolved => ?_)
  split
  · exact .bind (.note _) fun _ => .pure fun _ => id
  · exact .throw _
  · exact sweeps_scanRecord hfs strict hbelow _ _ _

end below

variable (strict : Bool)

theorem sweeps_scanWithin (depth : Nat) (directory : H) (recursive : Bool) :
    Sweeps world made number (scanWithin fs strict depth directory recursive) nothing
      fun _ => nothing := by
  induction depth generalizing directory recursive with
  | zero => exact .releasing (.throw _)
  | succ depth ih => exact sweeps_scanDirectory hfs strict ih directory recursive

theorem sweeps_scan (directory : H) (recursive : Bool) :
    Sweeps world made number (scan fs strict directory recursive) nothing fun _ => nothing :=
  .bind (.look _) fun _ => sweeps_scanWithin hfs strict _ _ _

/-! ### The root -/

variable (hnumber : fs.RootNumbered world number)
include hnumber

omit hfs hnumber in
/-- Scanning the whole mount fails at once, or it opens the root, makes its record the root of the tree
and scans from there. -/
theorem run_scanRoot (w : Tracker σ) :
    (∃ e w', (scanRoot fs strict).run w = (.error e, w') ∧ w'.tree = w.tree) ∨
      ∃ object leases i w₂, (fs.openRoot.run w.files).1 = .ok object ∧
        (resolve fs object).run { w with files := (fs.openRoot.run w.files).2, leases } =
          (.ok i, w₂) ∧
        (scanRoot fs strict).run w = (scan fs strict object true).run
          { w₂ with ledger := { w₂.ledger with tree := w₂.ledger.tree.setRoot i } } := by
  unfold scanRoot
  rw [run_bind, run_wrapping, openRoot, run_askOpen]
  cases hopen : (fs.openRoot.run w.files).1 with
  | error e => exact .inl ⟨_, _, rfl, rfl⟩
  | ok object =>
    simp only [if_true]
    rw [run_bind, run_attempt]
    generalize hw₁ : ({ w with files := _, leases := _ } : Tracker σ) = w₁
    have htree₁ : w₁.tree = w.tree := by
      rw [← hw₁]
      rfl
    rcases resolve_cases fs object w₁ with ⟨e, w₂, hrun, htree₂⟩ | ⟨-, -, -, -, i, w₂, hrun, -⟩
    · rw [hrun]
      exact .inl ⟨_, _, rfl, htree₂.trans htree₁⟩
    · refine .inr ⟨object, w₁.leases, i, w₂, rfl, ?_, ?_⟩
      · rw [← hrun, ← hw₁]
      · rw [hrun]
        simp only
        rw [run_bind, run_edit]

/-- Whatever is scanned is scanned from a state whose root is in order. -/
theorem scanRoot_cases {w : Tracker σ} (hw : Standing world number w)
    (fits : ((scanRoot fs strict).run w).2.tree.Fits) :
    (∃ e w', (scanRoot fs strict).run w = (.error e, w') ∧ w'.tree = w.tree) ∨
      ∃ object w', (scanRoot fs strict).run w = (scan fs strict object true).run w' ∧
        Standing world number w' ∧ ∀ j, w'.tree.Stray j → w.tree.Stray j := by
  refine (run_scanRoot strict w).imp_right ?_
  rintro ⟨object, leases, i, w₂, hopen, hrun, hscan⟩
  generalize hw₁ : ({ w with files := _, leases := _ } : Tracker σ) = w₁ at hrun
  have htree₁ : w₁.tree = w.tree := by
    rw [← hw₁]
    rfl
  have hstanding₁ : Standing world number w₁ := by
    refine ⟨?_, htree₁ ▸ hw.sound, htree₁ ▸ hw.root⟩
    rw [← hw₁]
    exact hfs.openRoot w.files hw.files
  generalize hw₃ : ({ w₂ with ledger := _ } : Tracker σ) = w₃ at hscan
  have hfiles₃ : w₃.files = w₂.files := by rw [← hw₃]
  have htree₃ : w₃.tree = w₂.tree.setRoot i := by
    rw [← hw₃]
    rfl
  have hresolve := Sweeps.standing (sweeps_resolve hfs object) hstanding₁
  have hworld₂ := (editsOnly_resolve hfs object w₁ hstanding₁.files).files
  rw [hrun] at hresolve hworld₂
  have hscans := editsOnly_scan hfs strict object true w₃ (hfiles₃ ▸ hworld₂)
  rw [hscan] at fits
  have hfits₃ : w₃.tree.Fits := hscans.tree.grows.fits fits
  have hfits₂ : w₂.tree.Fits := by
    rw [htree₃] at hfits₃
    exact ⟨hfits₃.inodes, hfits₃.entries⟩
  have hstanding₂ := hresolve hfits₂
  obtain ⟨a, ha, hresolved⟩ := resolved_of_run number hstanding₁.sound hrun hfits₂
  have hino := hnumber w.files w₁.files object a hw.files hopen hstanding₁.files ha
  have hi : ∃ x, w₂.tree.identity? i = some x ∧ x.1.ino = number := hino ▸ hresolved.ino
  refine ⟨object, w₃, hscan, ⟨hfiles₃ ▸ hworld₂, ?_, ?_⟩, fun j hj => ?_⟩
  · exact htree₃ ▸ hstanding₂.sound.setRoot i
  · rw [htree₃]
    rintro r hr
    cases hr
    exact hi
  · rw [htree₃] at hj
    obtain ⟨hstray, hne⟩ := hstanding₂.sound.stray_setRoot hstanding₂.root hi hj
    exact htree₁ ▸ (hresolved.strays j hstray).resolve_right hne

theorem sweeps_scanRoot :
    Sweeps world made number (scanRoot fs strict) nothing fun _ => nothing := by
  refine ⟨editsOnly_scanRoot hfs strict, fun w hw fits => ?_, fun w a hw fits hrun j hj => ?_⟩
  · rcases scanRoot_cases hfs strict hnumber hw fits with
      ⟨e, w', hrun, htree⟩ | ⟨object, w', hrun, hstanding, -⟩
    · rw [hrun, htree]
      exact hw.root
    · rw [hrun] at fits ⊢
      exact (sweeps_scan hfs strict object true).root w' hstanding fits
  · rcases scanRoot_cases hfs strict hnumber hw fits with
      ⟨e, w', herror, -⟩ | ⟨object, w', hscan, hstanding, hstrays⟩
    · rw [herror] at hrun
      cases hrun
    · rw [hscan] at fits hrun hj
      have hleft := (sweeps_scan hfs strict object true).strays w' a hstanding fits hrun j hj
      exact .inr ⟨hstrays j (hleft.resolve_left id).1, id⟩

omit hfs hnumber in
theorem sweeps_reclaimNow :
    Sweeps world made number (reclaimNow : Track σ ε Nat) nothing fun _ => nothing := by
  refine ⟨editsOnly_reclaimNow, fun w hw fits => ?_, fun w a hw fits hrun j hj => ?_⟩
  · exact (Ledger.pruned_reclaim (l := w.ledger.tick) hw.sound).rootIs hw.root
  · exact .inr ⟨Ledger.stray_reclaim (l := w.ledger.tick) hw.sound hj, id⟩

theorem sweeps_rescanRoots :
    Sweeps world made number (rescanRoots fs strict) nothing fun _ => nothing :=
  .bind (sweeps_scanRoot hfs strict hnumber) fun _ =>
    .bind sweeps_reclaimNow fun _ => .pure fun _ => id

theorem sweeps_baseline :
    Sweeps world made number (baseline fs strict) nothing fun _ => nothing := by
  refine .bind (.wrapping _ (sweeps_rescanRoots hfs strict hnumber)) fun _ => ?_
  refine .bind (.look _) fun _ => .bind (.note _) fun _ => .bind (.look _) fun verdict => ?_
  split
  · exact .pure fun _ => id
  · exact .bind (.note _) fun _ => .pure fun _ => id

omit hfs hnumber in
theorem sweeps_releaseObject (n : Notification H) (pre : InodeId → Prop) :
    Sweeps world made number (releaseObject n : Track σ ε Unit) pre fun _ => pre := by
  refine .of_frame (editsOnly_releaseObject n) (fun w => ?_) fun _ _ => id
  unfold releaseObject
  split <;> rfl

theorem sweeps_handle (n : Notification H) :
    Sweeps world made number (handle fs strict n) nothing fun _ => nothing := by
  unfold handle
  split
  · exact .bind (sweeps_releaseObject n _) fun _ => .throw _
  · split
    · exact .wrapping _ (sweeps_scan hfs strict _ _)
    · refine .bind (.note _) fun _ => ?_
      refine .bind ((sweeps_rescanRoots hfs strict hnumber).attempt (fun _ => True)
        fun _ _ _ _ _ _ => .inl trivial) fun outcome => .bind (sweeps_releaseObject n _) fun _ => ?_
      cases outcome with
      | ok summary => exact .pure fun _ => id
      | error e => exact .throw _
    · exact .bind (.note _) fun _ => .bind (sweeps_releaseObject n _) fun _ => .pure fun _ => id

omit hfs hnumber in
theorem sweeps_forM_releaseObject (batch : List (Notification H)) (pre : InodeId → Prop) :
    Sweeps world made number (batch.forM releaseObject : Track σ ε PUnit) pre fun _ => pre := by
  induction batch with
  | nil => exact .pure fun _ => id
  | cons n rest ih => exact .bind (sweeps_releaseObject n pre) fun _ => ih

theorem sweeps_handleAll (batch : List (Notification H)) :
    Sweeps world made number (handleAll fs strict batch) nothing fun _ => nothing := by
  induction batch with
  | nil => exact .pure fun _ => id
  | cons n rest ih =>
    refine .bind ((sweeps_handle hfs strict hnumber n).attempt (fun _ => True)
      fun _ _ _ _ _ _ => .inl trivial) fun outcome => ?_
    cases outcome with
    | ok first => exact .bind ih fun _ => .pure fun _ => id
    | error e =>
      exact .bind (sweeps_forM_releaseObject rest _) fun _ => .throw _

theorem sweeps_processBatch (batch : List (Notification H)) :
    Sweeps world made number (processBatch fs strict batch) nothing fun _ => nothing := by
  refine .bind (sweeps_handleAll hfs strict hnumber batch) fun _ => .bind sweeps_reclaimNow fun count => ?_
  split
  · exact .bind (.note _) fun _ => .pure fun _ => id
  · exact .pure fun _ => id

end Tracker

end TreeWatch

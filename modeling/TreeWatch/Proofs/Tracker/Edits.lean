import TreeWatch.Disk.Basic
import TreeWatch.Proofs.Tracker.Run
import TreeWatch.Proofs.Tree.Ledger
import TreeWatch.Watcher

/-!
# What calls of the tracker may do to the tree

Whatever the filesystem answers, and whether a call gives a result or fails on its way, all that it
does to the tree and to its journal is a sequence of changes.

## Main definitions

- `Filesystem.Vouches` : what is known of the answers of a filesystem
- `Tracker.Edited` : from one state to another nothing happens to the tree but changes
- `Tracker.EditsOnly` : a computation does nothing to the tree but change it

## Main results

- `Tracker.editsOnly_scan`, `Tracker.editsOnly_processBatch` and so on : one for each function
- `Tracker.resolve_cases` : all that finding the record of an object can do

## Design notes

What is known of the answers is a property `world` of the states of the filesystem and a `Testimony` of
what it says in them. With both trivial the filesystem may answer anything.
-/

namespace TreeWatch

variable {σ H : Type}

/-- Calls keep `world`, and in it the filesystem says what is known. -/
structure Filesystem.Vouches (fs : Filesystem σ H) (world : σ → Prop) (known : Testimony) :
    Prop where
  attributes : ∀ object files, world files → world ((fs.attributes object).run files).2
  identityToken : ∀ object files, world files → world ((fs.identityToken object).run files).2
  openByToken : ∀ token files, world files → world ((fs.openByToken token).run files).2
  list : ∀ directory files, world files → world ((fs.list directory).run files).2
  openChild : ∀ directory name files, world files →
    world ((fs.openChild directory name).run files).2
  openDirectory : ∀ object files, world files → world ((fs.openDirectory object).run files).2
  openRoot : ∀ files, world files → world (fs.openRoot.run files).2
  made : ∀ object files files' a token, world files → world files' →
    ((fs.attributes object).run files).1 = .ok a →
    ((fs.identityToken object).run files').1 = .ok token → known.made a token
  stale : ∀ token files, world files →
    ((fs.openByToken token).run files).1 = .error .stale → known.stale token
  listed : ∀ directory files listing, world files →
    ((fs.list directory).run files).1 = .ok listing →
    ∀ e ∈ listing, e.isPseudo = false → known.listed e.name
  root : ∀ object files files' a t i, world files → world files' →
    (fs.openRoot.run files).1 = .ok object → ((fs.attributes object).run files').1 = .ok a →
    t.lookupIno a.ino = some i → known.root t i

/-- Nothing need be known of the answers. -/
theorem Filesystem.vouches_trivial (fs : Filesystem σ H) : fs.Vouches (fun _ => True) {} := by
  constructor <;> intros <;> trivial

/-- A disk stays as it is when it is asked. -/
theorem Disk.vouches (world : Disk → Prop) : Disk.filesystem.Vouches world {} where
  attributes _ _ h := h
  identityToken _ _ h := h
  openByToken _ _ h := h
  list _ _ h := h
  openChild _ _ _ h := h
  openDirectory _ _ h := h
  openRoot _ h := h
  made := by intros; trivial
  stale := by intros; trivial
  listed := by intros; trivial
  root := by intros; trivial

namespace Tracker

variable {ε ε' α β : Type} (world : σ → Prop) (known : Testimony)

/-- From `w` to `w'` nothing has happened to the tree and its journal but changes, by the same clock, and
`world` holds afterwards. -/
structure Edited (w w' : Tracker σ) : Prop where
  files : world w'.files
  clock : w'.clock = w.clock
  edits : Ledger.Edits known w.clock w.ledger w'.ledger

/-- All that a computation does to the tree and its journal is a sequence of changes, and `world` is
kept. -/
def EditsOnly (x : Track σ ε α) : Prop :=
  ∀ w : Tracker σ, world w.files → Edited world known w (x.run w).2

variable {world known}

namespace Edited

variable {w w' w'' : Tracker σ}

protected theorem refl (hw : world w.files) : Edited world known w w := ⟨hw, rfl, .refl⟩

theorem trans (h : Edited world known w w') (h' : Edited world known w' w'') :
    Edited world known w w'' :=
  ⟨h'.files, h'.clock.trans h.clock, h.edits.trans (h.clock ▸ h'.edits)⟩

theorem tree (h : Edited world known w w') : Tree.Edits known.made w.tree w'.tree :=
  Ledger.Edits.tree h.edits

/-- Nothing happens but changes if that is so of the first part, and of the second wherever the first
part led. -/
theorem bind {x : Track σ ε α} {f : α → Track σ ε β} (hx : Edited world known w (x.run w).2)
    (hf : ∀ a w', x.run w = (.ok a, w') → world w'.files → Edited world known w' ((f a).run w').2) :
    Edited world known w ((x >>= f).run w).2 := by
  rw [run_bind]
  rcases hrun : x.run w with ⟨r, w'⟩
  rw [hrun] at hx
  cases r with
  | error e => exact hx
  | ok a => exact hx.trans (hf a w' hrun hx.files)

end Edited

namespace EditsOnly

protected theorem pure (a : α) : EditsOnly world known (pure a : Track σ ε α) :=
  fun _ hw => .refl hw

protected theorem throw (e : ε) : EditsOnly world known (throw e : Track σ ε α) :=
  fun _ hw => .refl hw

theorem bind {x : Track σ ε α} {f : α → Track σ ε β} (hx : EditsOnly world known x)
    (hf : ∀ a, EditsOnly world known (f a)) : EditsOnly world known (x >>= f) :=
  fun w hw => .bind (hx w hw) fun a w' _ hw' => hf a w' hw'

theorem look (f : Tracker σ → α) : EditsOnly world known (look f : Track σ ε α) :=
  fun _ hw => .refl hw

theorem edit {f : Clock → Ledger → Ledger}
    (hf : ∀ clock l, Ledger.Edits known clock l (f clock l)) :
    EditsOnly world known (edit f : Track σ ε Unit) :=
  fun w hw => ⟨hw, rfl, hf w.clock w.ledger⟩

theorem editGet {f : Clock → Ledger → α × Ledger}
    (hf : ∀ clock l, Ledger.Edits known clock l (f clock l).2) :
    EditsOnly world known (editGet f : Track σ ε α) :=
  fun w hw => ⟨hw, rfl, hf w.clock w.ledger⟩

theorem editTry {f : Clock → Ledger → Except TreeError Ledger}
    (hf : ∀ clock l l', f clock l = .ok l' → Ledger.Edits known clock l l') :
    EditsOnly world known (Tracker.editTry f : Track σ TreeError Unit) := by
  intro w hw
  rw [run_editTry]
  cases hrun : f w.clock w.ledger with
  | ok l' => exact ⟨hw, rfl, hf _ _ _ hrun⟩
  | error e => exact .refl hw

theorem note (event : LogEvent) : EditsOnly world known (note event : Track σ ε Unit) :=
  .edit fun _ _ => .single (.note event)

theorem attempt {x : Track σ ε α} (hx : EditsOnly world known x) :
    EditsOnly world known (attempt x : Track σ ε' (Except ε α)) :=
  fun w hw => hx w hw

theorem wrapping (wrap : ε → ε') {x : Track σ ε α} (hx : EditsOnly world known x) :
    EditsOnly world known (wrapping wrap x) := by
  intro w hw
  have hrun := hx w hw
  rw [run_wrapping]
  generalize x.run w = outcome at hrun ⊢
  obtain ⟨r, w'⟩ := outcome
  cases r <;> exact hrun

theorem release : EditsOnly world known (release : Track σ ε Unit) :=
  fun _ hw => ⟨hw, rfl, .refl⟩

theorem releasing {x : Track σ ε α} (hx : EditsOnly world known x) :
    EditsOnly world known (releasing x) :=
  fun w hw => ⟨(hx w hw).files, (hx w hw).clock, (hx w hw).edits⟩

theorem ask {call : StateM σ (Except ε α)}
    (hcall : ∀ files, world files → world (call.run files).2) :
    EditsOnly world known (ask call) :=
  fun w hw => ⟨hcall w.files hw, rfl, .refl⟩

theorem askOpen {opened : α → Bool} {call : StateM σ (Except ε α)}
    (hcall : ∀ files, world files → world (call.run files).2) :
    EditsOnly world known (askOpen opened call) := by
  intro w hw
  rw [run_askOpen]
  split <;> exact ⟨hcall w.files hw, rfl, .refl⟩

end EditsOnly

variable {fs : Filesystem σ H} (hfs : fs.Vouches world known)
include hfs

/-! ### Finding the record of an object -/

theorem editsOnly_tokenOpens (token : IdentityToken) :
    EditsOnly world known (tokenOpens fs token) := by
  refine .bind (.attempt (.askOpen fun files hw => hfs.openByToken token files hw)) fun outcome => ?_
  split
  · exact .bind .release fun _ => .pure _
  · exact .pure _
  · exact .throw _

omit hfs in
/-- Asking whether an object still exists leaves the ledger alone. -/
theorem ledger_tokenOpens (token : IdentityToken) (w : Tracker σ) :
    ((tokenOpens fs token).run w).2.ledger = w.ledger := by
  unfold tokenOpens
  rw [run_bind, run_attempt, openByToken, run_askOpen]
  cases ((fs.openByToken token).run w.files).1 with
  | ok object => rfl
  | error e => cases e <;> rfl

theorem editsOnly_belongsTo (existing : InodeId) (token : IdentityToken) :
    EditsOnly world known (belongsTo fs existing token) := by
  refine .bind (.look _) fun record => ?_
  split
  · exact .pure _
  · split
    · exact .pure _
    · exact editsOnly_tokenOpens hfs _

omit hfs in
theorem ledger_belongsTo (existing : InodeId) (token : IdentityToken) (w : Tracker σ) :
    ((belongsTo fs existing token).run w).2.ledger = w.ledger := by
  unfold belongsTo
  rw [run_bind, run_look]
  simp only
  split
  · rfl
  · split
    · rfl
    · exact ledger_tokenOpens _ _

/-- If a record belongs to another object, its token was said to be stale. -/
theorem stale_of_belongsTo {existing : InodeId} {token : IdentityToken} {w w' : Tracker σ}
    (hw : world w.files) (h : (belongsTo fs existing token).run w = (.ok false, w'))
    {r : InodeRecord} (hr : w.tree.record? existing = some r) : known.stale r.token := by
  unfold belongsTo at h
  rw [run_bind, run_look] at h
  simp only [hr] at h
  split at h
  · cases h
  · refine hfs.stale r.token w.files hw ?_
    rw [tokenOpens, run_bind, run_attempt, openByToken, run_askOpen] at h
    cases hopen : ((fs.openByToken r.token).run w.files).1 with
    | ok object =>
      rw [hopen] at h
      cases h
    | error e =>
      rw [hopen] at h
      cases e with
      | stale => rfl
      | call e => cases h
      | tooLarge size => cases h

theorem editsOnly_resolve (object : H) : EditsOnly world known (resolve fs object) := by
  intro w hw
  refine .bind (EditsOnly.wrapping _ (.ask fun files hw => hfs.attributes object files hw) w hw)
    fun a w₁ hattributes hw₁ => ?_
  refine .bind (EditsOnly.ask (fun files hw => hfs.identityToken object files hw) w₁ hw₁)
    fun token w₂ htoken hw₂ => ?_
  have hmade : known.made a token :=
    hfs.made object w.files w₁.files a token hw hw₁
      (answer_of_ask (run_of_wrapping hattributes)) (answer_of_ask htoken)
  rw [run_bind, run_look]
  simp only
  cases hlookup : w₂.tree.lookupIno a.ino with
  | none => exact ⟨hw₂, rfl, .single (.insert hmade hlookup)⟩
  | some existing =>
    refine .bind (editsOnly_belongsTo hfs existing token w₂ hw₂) fun same w₃ hbelongs hw₃ => ?_
    cases same with
    | true => exact ⟨hw₃, rfl, .single .refresh⟩
    | false =>
      have htree : w₃.tree = w₂.tree := by
        have hledger : ((belongsTo fs existing token).run w₂).2.ledger = w₂.ledger :=
          ledger_belongsTo existing token w₂
        rw [hbelongs] at hledger
        exact congrArg Ledger.tree hledger
      have hstale : ∀ r, w₃.tree.record? existing = some r → known.stale r.token := fun r hr =>
        stale_of_belongsTo hfs hw₂ hbelongs (htree ▸ hr)
      have hold : w₃.tree.lookupIno a.ino = some existing := htree ▸ hlookup
      refine ⟨hw₃, rfl, .head (.note (.recycled a.ino (w₃.tree.resolvePath existing))) ?_⟩
      exact .tail (.single (.replace hmade hold hstale)) (.note _)

omit hfs in
/-- All that finding the record of an object can do. Failures leave the tree alone. -/
theorem resolve_cases (fs : Filesystem σ H) (object : H) (w : Tracker σ) :
    (∃ e w', (resolve fs object).run w = (.error e, w') ∧ w'.tree = w.tree) ∨
      ∃ a token, ((fs.attributes object).run w.files).1 = .ok a ∧
        ((fs.identityToken object).run ((fs.attributes object).run w.files).2).1 = .ok token ∧
        ∃ i w', (resolve fs object).run w = (.ok i, w') ∧
          ((w.tree.lookupIno a.ino = none ∧ w.tree.insertRecord a token = (i, w'.tree)) ∨
            (w.tree.lookupIno a.ino = some i ∧
              w'.tree = w.tree.refreshFingerprint i a.fingerprint) ∨
            ∃ old l clock, w.tree.lookupIno a.ino = some old ∧ l.tree = w.tree ∧
              (Ledger.invalidate l clock old).tree.insertRecord a token = (i, w'.tree)) := by
  unfold resolve
  rw [run_bind, run_wrapping, attributes, run_ask]
  cases hattributes : ((fs.attributes object).run w.files).1 with
  | error e => exact .inl ⟨_, _, rfl, rfl⟩
  | ok a =>
    simp only
    rw [run_bind, identityToken, run_ask]
    simp only
    cases htoken : ((fs.identityToken object).run ((fs.attributes object).run w.files).2).1 with
    | error e => exact .inl ⟨_, _, rfl, rfl⟩
    | ok token =>
      simp only
      rw [run_bind, run_look]
      simp only
      generalize hw₁ : ({ w with files := _ } : Tracker σ) = w₁
      have hledger : w₁.ledger = w.ledger := by rw [← hw₁]
      have htree : w₁.tree = w.tree := congrArg Ledger.tree hledger
      rw [htree]
      cases hlookup : w.tree.lookupIno a.ino with
      | none =>
        refine .inr ⟨a, token, rfl, rfl, _, _, rfl, .inl ⟨hlookup, ?_⟩⟩
        rw [← htree]
        exact Prod.ext (Ledger.fst_insertRecord ..).symm (Ledger.tree_insertRecord ..).symm
      | some old =>
        have hbelongs : ((belongsTo fs old token).run w₁).2.ledger = w₁.ledger :=
          ledger_belongsTo old token w₁
        simp only
        rw [run_bind]
        generalize (belongsTo fs old token).run w₁ = outcome at hbelongs ⊢
        obtain ⟨r, w₂⟩ := outcome
        have htree₂ : w₂.tree = w.tree := congrArg Ledger.tree (hbelongs.trans hledger)
        cases r with
        | error e => exact .inl ⟨e, w₂, rfl, htree₂⟩
        | ok same =>
          cases same with
          | true =>
            simp only [if_true, run_bind, run_edit, run_pure]
            refine .inr ⟨a, token, rfl, rfl, old, _, rfl, .inr (.inl ⟨hlookup, ?_⟩)⟩
            show w₂.tree.refreshFingerprint old a.fingerprint = _
            rw [htree₂]
          | false =>
            simp only [Bool.false_eq_true, if_false, run_bind, run_look, run_note, run_edit,
              run_editGet, run_pure]
            refine .inr ⟨a, token, rfl, rfl, _, _, rfl, .inr (.inr ?_)⟩
            refine ⟨old, w₂.ledger.note (.recycled a.ino (w₂.tree.resolvePath old)), w₂.clock,
              hlookup, htree₂, ?_⟩
            exact Prod.ext (Ledger.fst_insertRecord ..).symm (Ledger.tree_insertRecord ..).symm

/-! ### Scanning -/

section naming

variable {name : Bytes} (hname : known.listed name)
include hname

omit hfs in
theorem editsOnly_bindName (parent child : InodeId) :
    EditsOnly world known (bindName parent name child : Track σ ScanError Unit) := by
  refine .wrapping _ (.editTry fun clock l l' h => ?_)
  cases hadd : l.addEntry parent name child with
  | error e =>
    rw [hadd] at h
    cases h
  | ok p =>
    rw [hadd] at h
    cases h
    exact .single (.bind hname hadd)

omit hfs hname in
theorem editsOnly_unbindEntry (entry : EntryId) :
    EditsOnly world known (unbindEntry entry : Track σ ScanError Unit) :=
  .wrapping _ (.editTry fun _ _ _ h => .single (.unbind h))

omit hfs in
theorem editsOnly_rebind (parent child : InodeId) :
    EditsOnly world known (rebind parent name child : Track σ ScanError ScanSummary) := by
  refine .bind (.look _) fun bound => ?_
  split
  · split
    · exact .pure _
    · refine .bind (editsOnly_unbindEntry _) fun _ => ?_
      exact .bind (editsOnly_bindName hname _ _) fun _ => .pure _
  · exact .bind (editsOnly_bindName hname _ _) fun _ => .pure _

omit hname in
theorem editsOnly_handOn (child : InodeId) (summary : ScanSummary) (recursive : Bool) (object : H) :
    EditsOnly world known (handOn fs child summary recursive object) := by
  refine .bind (.look _) fun record => ?_
  simp only
  split
  · refine .bind (.attempt (.askOpen fun files hw => hfs.openDirectory object files hw))
      fun opened => ?_
    split
    · exact .pure _
    · split
      · exact .pure _
      · exact .throw _
  · exact .pure _

theorem editsOnly_bindObject (parent : InodeId) (recursive : Bool) (object : H) :
    EditsOnly world known (bindObject fs parent name recursive object) := by
  refine .bind (.attempt (editsOnly_resolve hfs object)) fun resolved => ?_
  split
  · exact .bind (.note _) fun _ => .pure _
  · split
    · exact .bind (.note _) fun _ => .pure _
    · exact .throw _
  · exact .throw _
  · exact .bind (editsOnly_rebind hname _ _) fun summary => editsOnly_handOn hfs _ _ _ _

end naming

section below

variable {scanBelow : ScanBelow σ H} (strict : Bool)
  (hbelow : ∀ object recursive, EditsOnly world known (scanBelow object recursive))
include hbelow

theorem editsOnly_descend (directory : H) (name : Bytes) :
    EditsOnly world known (descend fs scanBelow directory name) := by
  refine .bind (.wrapping _ (.askOpen fun files hw => hfs.openChild directory name files hw))
    fun child => ?_
  split
  · exact .pure _
  · refine .bind (.releasing (.attempt (.askOpen fun files hw => hfs.openDirectory _ files hw)))
      fun opened => ?_
    split
    · exact hbelow _ _
    · split
      · exact .pure _
      · exact .throw _

theorem editsOnly_reopen (directory : H) (parent : InodeId) (recursive : Bool) {name : Bytes}
    (hname : known.listed name) :
    EditsOnly world known (reopen fs scanBelow directory parent recursive name) := by
  refine .bind (.wrapping _ (.askOpen fun files hw => hfs.openChild directory name files hw))
    fun child => ?_
  split
  · exact .bind (.note _) fun _ => .pure _
  · refine .bind (.releasing (editsOnly_bindObject hfs hname _ _ _)) fun outcome => ?_
    obtain ⟨summary, next⟩ := outcome
    simp only
    split
    · exact .bind (hbelow _ _) fun _ => .pure _
    · exact .pure _

theorem editsOnly_reconcile (directory : H) (parent : InodeId) (recursive : Bool)
    {listed : ListedEntry} (hname : known.listed listed.name) :
    EditsOnly world known (reconcile fs strict scanBelow directory parent recursive listed) := by
  refine .bind (.look _) fun record => ?_
  split
  · split
    · exact editsOnly_reopen hfs hbelow _ _ _ hname
    · split
      · exact .bind (editsOnly_descend hfs hbelow _ _) fun _ => .pure _
      · exact .pure _
  · exact editsOnly_reopen hfs hbelow _ _ _ hname

theorem editsOnly_reconcileAll (directory : H) (parent : InodeId) (recursive : Bool)
    (listing : List ListedEntry) (hnames : ∀ e ∈ listing, known.listed e.name) :
    EditsOnly world known
      (reconcileAll fs strict scanBelow directory parent recursive listing) := by
  induction listing with
  | nil => exact .pure _
  | cons listed rest ih =>
    refine .bind (editsOnly_reconcile hfs strict hbelow _ _ _ (hnames listed (.head _))) fun _ => ?_
    exact .bind (ih fun e he => hnames e (.tail _ he)) fun _ => .pure _

omit hfs hbelow in
theorem editsOnly_unbindAll (entries : List EntryId) :
    EditsOnly world known (unbindAll entries : Track σ ScanError ScanSummary) := by
  induction entries with
  | nil => exact .pure _
  | cons entry rest ih =>
    exact .bind (editsOnly_unbindEntry entry) fun _ => .bind ih fun _ => .pure _

omit hfs hbelow in
theorem editsOnly_orphanIfUnlinked (parent : InodeId) :
    EditsOnly world known
      (edit (fun clock l => l.orphanIfUnlinked parent clock) : Track σ ε Unit) :=
  .edit fun _ _ => .single .wait

omit hfs hbelow in
/-- What is left to do once the names that are gone have been unbound. -/
theorem editsOnly_closeListing (parent : InodeId) (summary : ScanSummary) :
    EditsOnly world known (do
      edit fun clock l => l.orphanIfUnlinked parent clock
      note (.scanned (← look fun w => w.tree.resolvePath parent) summary)
      pure summary : Track σ ScanError ScanSummary) := by
  refine .bind (editsOnly_orphanIfUnlinked parent) fun _ => ?_
  exact .bind (.look _) fun _ => .bind (.note _) fun _ => .pure _

theorem editsOnly_applyListing (directory : H) (parent : InodeId) (recursive : Bool)
    {listing : List ListedEntry}
    (hnames : ∀ e ∈ listing, e.isPseudo = false → known.listed e.name) :
    EditsOnly world known
      (applyListing fs strict scanBelow directory parent recursive listing) := by
  have hlisted : ∀ e ∈ listing.filter (!·.isPseudo), known.listed e.name := fun e he => by
    obtain ⟨hmem, hpseudo⟩ := List.mem_filter.1 he
    exact hnames e hmem (Bool.not_eq_true' _ ▸ hpseudo)
  refine .bind (editsOnly_reconcileAll hfs strict hbelow _ _ _ _ hlisted) fun _ => ?_
  exact .bind (.look _) fun _ => .bind (editsOnly_unbindAll _) fun _ => editsOnly_closeListing _ _

theorem editsOnly_scanRecord (directory : H) (parent : InodeId) (recursive : Bool) :
    EditsOnly world known (scanRecord fs strict scanBelow directory parent recursive) := by
  intro w hw
  have hlist : EditsOnly world known (attempt (list fs directory) : Track σ ScanError _) :=
    .attempt (.ask fun files hw => hfs.list directory files hw)
  refine .bind (hlist w hw) fun listed w' hrun hw' => ?_
  cases listed with
  | ok listing =>
    have hlisting := answer_of_ask (run_of_attempt hrun)
    exact editsOnly_applyListing hfs strict hbelow _ _ _
      (hfs.listed directory w.files listing hw hlisting) w' hw'
  | error e =>
    simp only
    split
    · refine EditsOnly.bind (.look _) (fun _ => .bind (.note _) fun _ => ?_) w' hw'
      exact .bind (editsOnly_orphanIfUnlinked _) fun _ => .pure _
    · exact EditsOnly.throw _ w' hw'

/-- What follows the search for the record of a directory. -/
theorem editsOnly_afterResolve (directory : H) (recursive : Bool)
    (resolved : Except IdentityError InodeId) :
    EditsOnly world known (match resolved with
      | .error (.tooLarge size) => do
        note (.directoryTokenTooLarge size)
        pure .oneSkipped
      | .error e => throw (.resolve e)
      | .ok parent => scanRecord fs strict scanBelow directory parent recursive) := by
  split
  · exact .bind (.note _) fun _ => .pure _
  · exact .throw _
  · exact editsOnly_scanRecord hfs strict hbelow _ _ _

theorem editsOnly_scanDirectory (directory : H) (recursive : Bool) :
    EditsOnly world known (scanDirectory fs strict scanBelow directory recursive) :=
  .releasing (.bind (.attempt (editsOnly_resolve hfs directory))
    (editsOnly_afterResolve hfs strict hbelow directory recursive))

end below

variable (strict : Bool)

theorem editsOnly_scanWithin (depth : Nat) (directory : H) (recursive : Bool) :
    EditsOnly world known (scanWithin fs strict depth directory recursive) := by
  induction depth generalizing directory recursive with
  | zero => exact .releasing (.throw _)
  | succ depth ih => exact editsOnly_scanDirectory hfs strict ih directory recursive

theorem editsOnly_scan (directory : H) (recursive : Bool) :
    EditsOnly world known (scan fs strict directory recursive) :=
  .bind (.look _) fun _ => editsOnly_scanWithin hfs strict _ _ _

omit hfs in
/-- The number of an object leads to the record that was found for it. -/
theorem lookupIno_of_resolve {object : H} {w w' : Tracker σ} {i : InodeId}
    (h : (resolve fs object).run w = (.ok i, w')) :
    ∃ a, ((fs.attributes object).run w.files).1 = .ok a ∧ w'.tree.lookupIno a.ino = some i := by
  rcases resolve_cases fs object w with ⟨e, w₁, herror, -⟩ | ⟨a, token, ha, -, j, w₁, hok, hcases⟩
  · cases h.symm.trans herror
  cases h.symm.trans hok
  have hinsert : ∀ {t : Tree}, t.insertRecord a token = (i, w'.tree) →
      w'.tree.lookupIno a.ino = some i := fun {t} hinsert => by
    have hlookup : (t.insertRecord a token).2.lookupIno a.ino = some (t.insertRecord a token).1 :=
      (t.lookupIno_insertRecord a.ino).trans (if_pos rfl)
    rwa [hinsert] at hlookup
  refine ⟨a, ha, ?_⟩
  rcases hcases with ⟨-, h⟩ | ⟨hino, htree⟩ | ⟨old, l, clock, -, -, h⟩
  · exact hinsert h
  · rw [htree]
    exact hino
  · exact hinsert h

theorem editsOnly_scanRoot : EditsOnly world known (scanRoot fs strict) := by
  intro w hw
  have hopen : EditsOnly world known (wrapping ScanError.call (openRoot fs)) :=
    .wrapping _ (.askOpen fun files hw => hfs.openRoot files hw)
  refine .bind (hopen w hw) fun root w₁ hrun hw₁ => ?_
  have hroot : (fs.openRoot.run w.files).1 = .ok root := answer_of_askOpen (run_of_wrapping hrun)
  refine .bind (EditsOnly.attempt (editsOnly_resolve hfs root) w₁ hw₁) fun resolved w₂ hrun hw₂ => ?_
  cases resolved with
  | error e => exact EditsOnly.releasing (.throw _) w₂ hw₂
  | ok i =>
    obtain ⟨a, ha, hlookup⟩ := lookupIno_of_resolve (run_of_attempt hrun)
    have hknown := hfs.root root w.files w₁.files a w₂.tree i hw hw₁ hroot ha hlookup
    refine .bind ⟨hw₂, rfl, .single (.root hknown)⟩ fun _ w₃ _ hw₃ => ?_
    exact editsOnly_scan hfs strict root true w₃ hw₃

/-! ### Reclaiming and watching -/

omit hfs in
theorem editsOnly_reclaimNow : EditsOnly world known (reclaimNow : Track σ ε Nat) :=
  .editGet fun _ _ => .single .reclaim

theorem editsOnly_rescanRoots : EditsOnly world known (rescanRoots fs strict) :=
  .bind (editsOnly_scanRoot hfs strict) fun _ => .bind editsOnly_reclaimNow fun _ => .pure _

theorem editsOnly_baseline : EditsOnly world known (baseline fs strict) := by
  refine .bind (.wrapping _ (editsOnly_rescanRoots hfs strict)) fun _ => .bind (.look _) fun _ => ?_
  refine .bind (.note _) fun _ => .bind (.look _) fun verdict => ?_
  split
  · exact .pure _
  · exact .bind (.note _) fun _ => .pure _

omit hfs in
theorem editsOnly_releaseObject (n : Notification H) :
    EditsOnly world known (releaseObject n : Track σ ε Unit) := by
  unfold releaseObject
  split
  · exact .release
  · exact .pure _

theorem editsOnly_handle (n : Notification H) : EditsOnly world known (handle fs strict n) := by
  unfold handle
  split
  · exact .bind (editsOnly_releaseObject n) fun _ => .throw _
  · split
    · exact .wrapping _ (editsOnly_scan hfs strict _ _)
    · refine .bind (.note _) fun _ => .bind (.attempt (editsOnly_rescanRoots hfs strict)) fun outcome =>
        .bind (editsOnly_releaseObject n) fun _ => ?_
      split
      · exact .pure _
      · exact .throw _
    · exact .bind (.note _) fun _ => .bind (editsOnly_releaseObject n) fun _ => .pure _

omit hfs in
theorem editsOnly_forM_releaseObject (batch : List (Notification H)) :
    EditsOnly world known (batch.forM releaseObject : Track σ ε PUnit) := by
  induction batch with
  | nil => exact .pure _
  | cons n rest ih => exact .bind (editsOnly_releaseObject n) fun _ => ih

omit hfs in
/-- What follows the first of some notifications. -/
theorem editsOnly_afterHandle {rest : List (Notification H)}
    (hrest : EditsOnly world known (handleAll fs strict rest))
    (outcome : Except WatchError ScanSummary) :
    EditsOnly world known (match outcome with
      | .ok first => do return first + (← handleAll fs strict rest)
      | .error e => do
        rest.forM releaseObject
        throw e) := by
  cases outcome with
  | ok _ => exact .bind hrest fun _ => .pure _
  | error _ => exact .bind (editsOnly_forM_releaseObject rest) fun _ => .throw _

theorem editsOnly_handleAll (batch : List (Notification H)) :
    EditsOnly world known (handleAll fs strict batch) := by
  induction batch with
  | nil => exact .pure _
  | cons n rest ih =>
    exact .bind (.attempt (editsOnly_handle hfs strict n)) (editsOnly_afterHandle strict ih)

/-- What follows the notifications of a batch. -/
def afterBatch (summary : ScanSummary) : Track σ WatchError ScanSummary := do
  let count ← reclaimNow
  if 0 < count then note (.reclaimed count)
  pure summary

omit hfs in
theorem processBatch_eq (batch : List (Notification H)) :
    processBatch fs strict batch = handleAll fs strict batch >>= afterBatch :=
  rfl

omit hfs in
theorem editsOnly_afterBatch (summary : ScanSummary) :
    EditsOnly world known (afterBatch summary : Track σ WatchError ScanSummary) := by
  refine .bind editsOnly_reclaimNow fun count => ?_
  split
  · exact .bind (.note _) fun _ => .pure _
  · exact .pure _

theorem editsOnly_processBatch (batch : List (Notification H)) :
    EditsOnly world known (processBatch fs strict batch) :=
  .bind (editsOnly_handleAll hfs strict batch) editsOnly_afterBatch

end Tracker

end TreeWatch

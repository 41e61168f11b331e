import TreeWatch.Proofs.Tracker.Reached
import TreeWatch.Proofs.Tree.Thinned
import TreeWatch.Proofs.Tree.Touched

/-!
# What finding a record changes

Finding the record of an object puts in a record, refreshes one, or has one make way for a new one. This
module says of each what changes and that nothing else does. If some answer is a failure, nothing changes.

## Main definitions

- `Tree.Inserted`, `Tree.Refreshed`, `Ledger.Expelled` : the three changes
- `Tracker.Unresolved` : the answers because of which no record is found
- `Tracker.Resolution` : which change is made on which answers

## Main results

- `Ledger.expelled_destroy` : a record that makes way takes its entries along and nothing else
- `Tracker.resolve_exact` : what finding a record comes to, whatever the filesystem answers
-/

namespace TreeWatch

namespace Tree

variable {t t' : Tree} {i : InodeId}

/-- A record has been put in, and nothing else has changed. -/
structure Inserted (i : InodeId) (r : InodeRecord) (t t' : Tree) : Prop where
  fresh : t.record? i = none
  record?_eq : ∀ j, t'.record? j = if j = i then some r else t.record? j
  lookupIno_eq : ∀ ino, t'.lookupIno ino = if ino = r.ino then some i else t.lookupIno ino
  rest_eq : t' = { t with inodes := t'.inodes, byIno := t'.byIno }

/-- The fingerprint of a record has been replaced, and nothing else has changed. -/
structure Refreshed (i : InodeId) (fingerprint : Fingerprint) (t t' : Tree) : Prop where
  record?_eq : ∀ j, t'.record? j =
    (t.record? j).map fun r => if j = i then { r with fingerprint } else r
  rest_eq : t' = { t with inodes := t'.inodes }

theorem Formed.inserted (h : t.Formed) {a : Attributes} {token : IdentityToken}
    (fits : (t.insertRecord a token).2.Fits) :
    Inserted (t.insertRecord a token).1 (.ofObject a token) t (t.insertRecord a token).2 where
  fresh := record?_fst_insertRecord h.inodes_wellFormed fits
  record?_eq := record?_insertRecord h.inodes_wellFormed fits
  lookupIno_eq := lookupIno_insertRecord
  rest_eq := rfl

theorem refreshed (t : Tree) (i : InodeId) (fingerprint : Fingerprint) :
    Refreshed i fingerprint t (t.refreshFingerprint i fingerprint) where
  record?_eq j := record?_modifyRecord t i j _
  rest_eq := rfl

end Tree

namespace Ledger

open TreeWatch.Tree

variable {l l' : Ledger} {clock : Clock} {x : InodeId}

/-- A record has gone with the entries into it and out of it. Nothing else has changed, but that what has
lost its last entry has begun to wait when the clock was read. -/
structure Expelled (clock : Clock) (x : InodeId) (l l' : Ledger) : Prop where
  record?_eq : ∀ j, l'.tree.record? j =
    if j = x then none else (l.tree.record? j).map (·.restrict l'.tree.holds)
  entryOf?_eq_some_iff : ∀ e b,
    l'.tree.entryOf? e = some b ↔ l.tree.entryOf? e = some b ∧ b.parent ≠ x ∧ b.child ≠ x
  lookupIno_eq_some_iff : ∀ ino i,
    l'.tree.lookupIno ino = some i ↔ l.tree.lookupIno ino = some i ∧ i ≠ x
  root_eq : l'.tree.root = if l.tree.root = some x then none else l.tree.root
  touched_eq : l'.tree.touched = l.tree.touched.erase x
  grace_eq : l'.tree.grace = l.tree.grace
  not_waiting : l'.tree.waitsSince? x = none
  began : ∀ j, l'.tree.isLive j → l.tree.Bound j → ¬l'.tree.Bound j → l.tree.root ≠ some j →
    ∃ k, l.reads ≤ k ∧ k < l'.reads ∧ l'.tree.waitsSince? j = some (clock k)
  waits_eq : ∀ j, l'.tree.isLive j → (l.tree.Bound j → l'.tree.Bound j ∨ l.tree.root = some j) →
    l'.tree.waitsSince? j = l.tree.waitsSince? j
  reported : l.Reported l'

theorem root_foldl_detach (clock : Clock) (x : InodeId) (l : Ledger) (entries : List EntryId) :
    (entries.foldl (detach clock x) l).tree.root = l.tree.root := by
  induction entries generalizing l with
  | nil => rfl
  | cons e rest ih =>
    rw [List.foldl_cons, ih]
    unfold detach removeEntry
    cases hremove : l.tree.removeEntry (clock l.reads) e with
    | ok p => exact root_removeEntry hremove
    | error err => rfl

theorem expelled_destroy (h : l.tree.Formed) (clock : Clock) {r : InodeRecord}
    (hr : l.tree.record? x = some r) : Expelled clock x l (l.destroy clock x).2 := by
  have htrimmed : Trimmed clock l (l.destroy clock x).2 := trimmed_destroy h x
  have hlive := isLive_destroy l clock x
  have hrecord : ∀ j, (l.destroy clock x).2.tree.record? j =
      if j = x then none else (l.tree.record? j).map (·.restrict (l.destroy clock x).2.tree.holds) := by
    intro j
    cases hj : (l.destroy clock x).2.tree.record? j with
    | none =>
      split
      · rfl
      · next hne =>
        have hgone : ¬l.tree.isLive j := fun hold => by
          obtain ⟨r', hr'⟩ := isLive_iff.1 ((hlive j).2 ⟨hne, hold⟩)
          cases hj.symm.trans hr'
        rw [isLive_iff, not_exists] at hgone
        rw [Option.eq_none_iff_forall_ne_some.2 hgone, Option.map_none]
    | some r' =>
      obtain ⟨r₀, hr₀, rfl⟩ := htrimmed.record hj
      rw [if_neg ((hlive j).1 (isLive_iff.2 ⟨_, hj⟩)).1, hr₀, Option.map_some]
  have hentry : ∀ e b, (l.destroy clock x).2.tree.entryOf? e = some b ↔
      l.tree.entryOf? e = some b ∧ b.parent ≠ x ∧ b.child ≠ x := fun e b => entryOf?_destroy h clock hr
  have htouched := touched_destroy clock x hr
  have hgrace : (l.destroy clock x).2.tree.grace = l.tree.grace := grace_destroy l x
  refine ⟨hrecord, hentry, fun ino i => ?_, ?_, htouched, hgrace, ?_, fun j => htrimmed.lost,
    fun j => htrimmed.kept, htrimmed.reported⟩
  · rw [htrimmed.formed.ino_iff, h.ino_iff, hrecord]
    by_cases hi : i = x
    · simp [hi]
    · cases hri : l.tree.record? i <;> simp [hi, InodeRecord.restrict]
  · rw [tree_destroy clock x hr, root_dropRecord, root_foldl_detach]
  · rw [tree_destroy clock x hr, waitsSince?, orphans_dropRecord, OrderedMap.get?_erase, if_pos rfl]

/-- That the record has gone is said in the log only. -/
theorem expelled_invalidate (h : l.tree.Formed) (clock : Clock) {r : InodeRecord}
    (hr : l.tree.record? x = some r) : Expelled clock x l (l.invalidate clock x) := by
  have hexpelled := expelled_destroy h clock hr
  unfold invalidate
  generalize l.destroy clock x = outcome at hexpelled ⊢
  obtain ⟨destroyed, l'⟩ := outcome
  cases destroyed
  · exact hexpelled
  · obtain ⟨hrecord, hentry, hnumber, hroot, htouched, hgrace, hgone, hbegan, hkept, hreported⟩ := hexpelled
    exact ⟨hrecord, hentry, hnumber, hroot, htouched, hgrace, hgone, hbegan, hkept, hreported⟩

end Ledger

/-- The attributes and the token of an object are read, one after the other; `files'` is the state of the
filesystem afterwards. -/
structure Filesystem.Reads {σ H : Type} (fs : Filesystem σ H) (object : H) (files : σ) (a : Attributes)
    (token : IdentityToken) (files' : σ) : Prop where
  attributes : ((fs.attributes object).run files).1 = .ok a
  token : ((fs.identityToken object).run ((fs.attributes object).run files).2).1 = .ok token
  files_eq : files' = ((fs.identityToken object).run ((fs.attributes object).run files).2).2

namespace Tracker

variable {σ H : Type} {fs : Filesystem σ H} {object : H} {w w' : Tracker σ} {files : σ} {clock : Clock}
  {a : Attributes} {token : IdentityToken} {l l' : Ledger} {i : InodeId}

/-- The answer because of which the record of an object is not found. -/
inductive Unresolved (fs : Filesystem σ H) (object : H) (w : Tracker σ) : IdentityError → Prop
  | attributes {e : SyscallError} :
    ((fs.attributes object).run w.files).1 = .error e → Unresolved fs object w (.call e)
  | token {a : Attributes} {e : IdentityError} :
    ((fs.attributes object).run w.files).1 = .ok a →
      ((fs.identityToken object).run ((fs.attributes object).run w.files).2).1 = .error e →
        Unresolved fs object w e
  | opening {a : Attributes} {token : IdentityToken} {files : σ} {old : InodeId} {r : InodeRecord}
    {e : IdentityError} :
    fs.Reads object w.files a token files → w.tree.lookupIno a.ino = some old →
      w.tree.record? old = some r → r.token ≠ token →
        ((fs.openByToken r.token).run files).1 = .error e → e ≠ .stale → Unresolved fs object w e

/-- What becomes of a ledger when an object is found to have the attributes and the token, and which record
is that of the object then. -/
inductive Resolution (fs : Filesystem σ H) (files : σ) (clock : Clock) (a : Attributes)
    (token : IdentityToken) (l : Ledger) : InodeId → Ledger → Prop
  /-- The number is new. -/
  | new {i : InodeId} {l' : Ledger} :
    l.tree.lookupIno a.ino = none → l.tree.Inserted i (.ofObject a token) l'.tree →
      l'.journal = l.journal → l'.reads = l.reads → Resolution fs files clock a token l i l'
  /-- The number is that of a record of the same object. -/
  | same {i : InodeId} {r : InodeRecord} {l' : Ledger} :
    l.tree.lookupIno a.ino = some i → l.tree.record? i = some r →
      (r.token = token ∨ ∃ object, ((fs.openByToken r.token).run files).1 = .ok object) →
        l.tree.Refreshed i a.fingerprint l'.tree → l'.journal = l.journal → l'.reads = l.reads →
          Resolution fs files clock a token l i l'
  /-- The number is that of a record of an object that has gone. -/
  | recycled {old i : InodeId} {r : InodeRecord} {m l' : Ledger} :
    l.tree.lookupIno a.ino = some old → l.tree.record? old = some r → r.token ≠ token →
      ((fs.openByToken r.token).run files).1 = .error .stale → Ledger.Expelled clock old l m →
        m.tree.Inserted i (.ofObject a token) l'.tree → i ≠ old → l'.journal = m.journal →
          l'.reads = m.reads → Resolution fs files clock a token l i l'

/-- The record that is found has the number, and what it says of the object has just been read. -/
theorem Resolution.registered (h : Resolution fs files clock a token l i l') (hl : l.tree.Formed) :
    l'.tree.lookupIno a.ino = some i ∧
      ∃ r, l'.tree.record? i = some r ∧ r.ino = a.ino ∧ r.fingerprint = a.fingerprint := by
  have hnew : ∀ {t : Tree}, t.Inserted i (.ofObject a token) l'.tree →
      l'.tree.lookupIno a.ino = some i ∧
        ∃ r, l'.tree.record? i = some r ∧ r.ino = a.ino ∧ r.fingerprint = a.fingerprint := by
    intro t hinserted
    exact ⟨(hinserted.lookupIno_eq _).trans (if_pos rfl),
      _, (hinserted.record?_eq i).trans (if_pos rfl), rfl, rfl⟩
  cases h with
  | new _ hinserted _ _ => exact hnew hinserted
  | same hlookup hr _ hrefreshed _ _ =>
    obtain ⟨r', hr', hino⟩ := (hl.ino_iff _ _).1 hlookup
    refine ⟨?_, { r' with fingerprint := a.fingerprint }, ?_, hino, rfl⟩
    · rw [hrefreshed.rest_eq]
      exact hlookup
    · rw [hrefreshed.record?_eq, hr', Option.map_some, if_pos rfl]
  | recycled _ _ _ _ _ hinserted _ _ _ => exact hnew hinserted

/-! ### Whose record it is -/

/-- Asking whether a record belongs to the object with the token leaves all alone but the filesystem and
the handles. -/
theorem run_belongsTo (fs : Filesystem σ H) {existing : InodeId} {r : InodeRecord}
    (hr : w.tree.record? existing = some r) (token : IdentityToken) :
    ∃ outcome files leases,
      (belongsTo fs existing token).run w = (outcome, { w with files, leases }) ∧
        match outcome with
        | .ok true => r.token = token ∨ ∃ object, ((fs.openByToken r.token).run w.files).1 = .ok object
        | .ok false => r.token ≠ token ∧ ((fs.openByToken r.token).run w.files).1 = .error .stale
        | .error e => r.token ≠ token ∧ ((fs.openByToken r.token).run w.files).1 = .error e ∧ e ≠ .stale := by
  unfold belongsTo
  rw [run_bind, run_look]
  simp only [hr]
  split
  · next heq => exact ⟨.ok true, w.files, w.leases, rfl, .inl heq⟩
  · next hne =>
    rw [tokenOpens, run_bind, run_attempt, openByToken, run_askOpen]
    cases hopen : ((fs.openByToken r.token).run w.files).1 with
    | ok object => exact ⟨.ok true, _, _, rfl, .inr ⟨object, rfl⟩⟩
    | error e =>
      cases e with
      | stale => exact ⟨.ok false, _, _, rfl, hne, rfl⟩
      | call e => exact ⟨.error (.call e), _, _, rfl, hne, rfl, by simp⟩
      | tooLarge size => exact ⟨.error (.tooLarge size), _, _, rfl, hne, rfl, by simp⟩

/-- Putting in a record under a number that is free. -/
theorem Resolution.of_new (h : l.tree.Formed) (hlookup : l.tree.lookupIno a.ino = none)
    (fits : (l.insertRecord a token).2.tree.Fits) :
    Resolution fs files clock a token l (l.insertRecord a token).1 (l.insertRecord a token).2 := by
  rw [Ledger.tree_insertRecord] at fits
  refine .new hlookup ?_ (Ledger.journal_insertRecord l a token) (Ledger.reads_insertRecord l a token)
  rw [Ledger.tree_insertRecord, Ledger.fst_insertRecord]
  exact h.inserted fits

/-- Putting in a record in the place of one that makes way. -/
theorem Resolution.of_recycled (h : l.tree.Formed) {old : InodeId} {r : InodeRecord}
    (hlookup : l.tree.lookupIno a.ino = some old) (hr : l.tree.record? old = some r)
    (htoken : r.token ≠ token) (hstale : ((fs.openByToken r.token).run files).1 = .error .stale)
    (fits : ((l.invalidate clock old).insertRecord a token).2.tree.Fits) :
    Resolution fs files clock a token l ((l.invalidate clock old).insertRecord a token).1
      ((l.invalidate clock old).insertRecord a token).2 := by
  have hexpelled := Ledger.expelled_invalidate h clock hr
  have hformed : (l.invalidate clock old).tree.Formed := by
    rw [Ledger.tree_invalidate]
    exact (Ledger.trimmed_destroy h old).formed
  rw [Ledger.tree_insertRecord] at fits
  refine .recycled hlookup hr htoken hstale hexpelled ?_ ?_ (Ledger.journal_insertRecord _ a token)
    (Ledger.reads_insertRecord _ a token)
  · rw [Ledger.tree_insertRecord, Ledger.fst_insertRecord]
    exact hformed.inserted fits
  · rw [Ledger.fst_insertRecord, Ledger.tree_invalidate]
    exact Ledger.fst_insertRecord_ne hr clock a token

/-- What is in the log does not matter. -/
theorem Resolution.congr {m m' : Ledger} (h : Resolution fs files clock a token m i m')
    (htree : m.tree = l.tree) (hjournal : m.journal = l.journal) (htree' : m'.tree = l'.tree)
    (hjournal' : m'.journal = l'.journal) (hreads : m.reads = l.reads) (hreads' : m'.reads = l'.reads) :
    Resolution fs files clock a token l i l' := by
  obtain ⟨t, j, log, reads⟩ := m
  obtain ⟨t', j', log', reads'⟩ := m'
  cases htree
  cases hjournal
  cases htree'
  cases hjournal'
  cases hreads
  cases hreads'
  cases h with
  | new hlookup hinserted hj hk => exact .new hlookup hinserted hj hk
  | same hlookup hr hopens hrefreshed hj hk => exact .same hlookup hr hopens hrefreshed hj hk
  | recycled hlookup hr htoken hstale hexpelled hinserted hne hj hk =>
    obtain ⟨hrecord, hentry, hnumber, hroot, htouched, hgrace, hgone, hbegan, hkept, hreported⟩ :=
      hexpelled
    exact .recycled hlookup hr htoken hstale
      ⟨hrecord, hentry, hnumber, hroot, htouched, hgrace, hgone, hbegan, hkept, hreported⟩ hinserted hne hj
      hk

/-- What is left to be done when the attributes and the token of an object have been read. -/
def recordFor (fs : Filesystem σ H) (a : Attributes) (token : IdentityToken) :
    Track σ IdentityError InodeId := do
  match ← look fun w => w.tree.lookupIno a.ino with
  | none => editGet fun _ l => l.insertRecord a token
  | some existing => do
    if ← belongsTo fs existing token then
      edit fun _ l => { l with tree := l.tree.refreshFingerprint existing a.fingerprint }
      pure existing
    else
      note (.recycled a.ino (← look fun w => w.tree.resolvePath existing))
      edit fun clock l => l.invalidate clock existing
      let fresh ← editGet fun _ l => l.insertRecord a token
      note (.recreated fresh a.ino)
      pure fresh

theorem run_resolve_of_reads (hreads : fs.Reads object w.files a token files) :
    (resolve fs object).run w = (recordFor fs a token).run { w with files } := by
  obtain ⟨hattributes, htoken, rfl⟩ := hreads
  unfold resolve
  rw [run_bind, run_wrapping, attributes, run_ask, hattributes]
  simp only
  rw [run_bind, identityToken, run_ask, htoken]
  rfl

/-- With both answers there, only opening the object of the record that has the number can fail. -/
theorem recordFor_exact (h : w.tree.Formed) (fits : ((recordFor fs a token).run w).2.tree.Fits) :
    (∃ e w' old r, (recordFor fs a token).run w = (.error e, w') ∧
        w.tree.lookupIno a.ino = some old ∧ w.tree.record? old = some r ∧ r.token ≠ token ∧
        ((fs.openByToken r.token).run w.files).1 = .error e ∧ e ≠ .stale ∧
        w'.tree = w.tree ∧ w'.ledger.journal = w.ledger.journal) ∨
      ∃ i w', (recordFor fs a token).run w = (.ok i, w') ∧
        Resolution fs w.files w.clock a token w.ledger i w'.ledger := by
  revert fits
  unfold recordFor
  rw [run_bind, run_look]
  simp only
  cases hlookup : w.tree.lookupIno a.ino with
  | none => exact fun fits => .inr ⟨_, _, rfl, .of_new h hlookup fits⟩
  | some old =>
    simp only
    obtain ⟨r, hr, -⟩ := (h.ino_iff _ _).1 hlookup
    obtain ⟨outcome, files, leases, hrun, hanswer⟩ := run_belongsTo fs hr token
    rw [run_bind, hrun]
    cases outcome with
    | error e =>
      obtain ⟨hne, hopen, hstale⟩ := hanswer
      exact fun _ => .inl ⟨e, _, old, r, rfl, rfl, hr, hne, hopen, hstale, rfl, rfl⟩
    | ok same =>
      cases same with
      | true =>
        simp only [if_true, run_bind, run_edit, run_pure]
        exact fun _ => .inr ⟨_, _, rfl, .same hlookup hr hanswer (Tree.refreshed ..) rfl rfl⟩
      | false =>
        obtain ⟨hne, hstale⟩ := hanswer
        simp only [Bool.false_eq_true, if_false, run_bind, run_look, run_note, run_edit, run_editGet,
          run_pure]
        intro fits
        have hformed : (w.ledger.note (.recycled a.ino (w.tree.resolvePath old))).tree.Formed := h
        have hrecycled := Resolution.of_recycled hformed hlookup hr hne hstale fits
        exact .inr ⟨_, _, rfl, hrecycled.congr rfl rfl rfl rfl rfl rfl⟩

/-- Either the attributes or the token cannot be read, and nothing has changed, or both have been read. -/
theorem resolve_reads (fs : Filesystem σ H) (object : H) (w : Tracker σ) :
    (∃ e w', (resolve fs object).run w = (.error e, w') ∧ Unresolved fs object w e ∧
        w'.tree = w.tree ∧ w'.ledger.journal = w.ledger.journal) ∨
      ∃ a token files, fs.Reads object w.files a token files := by
  cases hattributes : ((fs.attributes object).run w.files).1 with
  | error e =>
    refine .inl ⟨_, { w with files := ((fs.attributes object).run w.files).2 }, ?_,
      .attributes hattributes, rfl, rfl⟩
    unfold resolve
    rw [run_bind, run_wrapping, attributes, run_ask, hattributes]
  | ok a =>
    generalize hfiles : ((fs.identityToken object).run ((fs.attributes object).run w.files).2).2 = files
    cases htoken : ((fs.identityToken object).run ((fs.attributes object).run w.files).2).1 with
    | error e =>
      refine .inl ⟨_, { w with files }, ?_, .token hattributes htoken, rfl, rfl⟩
      unfold resolve
      rw [run_bind, run_wrapping, attributes, run_ask, hattributes]
      simp only
      rw [run_bind, identityToken, run_ask, htoken, hfiles]
    | ok token => exact .inr ⟨a, token, files, hattributes, htoken, hfiles.symm⟩

/-- Finding the record of an object fails because of one of the answers, and then nothing has changed; or
it finds the record, and what has changed is told by the answers. -/
theorem resolve_exact (fs : Filesystem σ H) (object : H) (h : w.tree.Formed)
    (fits : ((resolve fs object).run w).2.tree.Fits) :
    (∃ e w', (resolve fs object).run w = (.error e, w') ∧ Unresolved fs object w e ∧
        w'.tree = w.tree ∧ w'.ledger.journal = w.ledger.journal) ∨
      ∃ i w' a token files, (resolve fs object).run w = (.ok i, w') ∧
        fs.Reads object w.files a token files ∧
        Resolution fs files w.clock a token w.ledger i w'.ledger ∧ w'.tree.lookupIno a.ino = some i ∧
        ∃ r, w'.tree.record? i = some r ∧ r.ino = a.ino ∧ r.fingerprint = a.fingerprint := by
  rcases resolve_reads fs object w with hfails | ⟨a, token, files, hreads⟩
  · exact .inl hfails
  rw [run_resolve_of_reads hreads] at fits ⊢
  have hformed : ({ w with files } : Tracker σ).tree.Formed := h
  rcases recordFor_exact hformed fits with
    ⟨e, w', old, r, hrun, hlookup, hr, hne, hopen, hstale, htree, hjournal⟩ |
    ⟨i, w', hrun, hresolution⟩
  · exact .inl ⟨e, w', hrun, .opening hreads hlookup hr hne hopen hstale, htree, hjournal⟩
  · exact .inr ⟨i, w', a, token, files, hrun, hreads, hresolution, hresolution.registered h⟩

/-- A directory with two files in it, one of which has a name outside as well. -/
def furnished : Disk :=
  [Disk.Operation.mkdir (.ofString "/a"), .create (.ofString "/a/f"),
    .link (.ofString "/a/f") (.ofString "/g"), .create (.ofString "/a/h")].foldl Disk.perform .empty

/-- The same without the directory, whose number a new file has got. -/
def refurnished : Disk :=
  [Disk.Operation.remove (.ofString "/a/f"), .remove (.ofString "/a/h"), .remove (.ofString "/a"),
    .createWithIno (.ofString "/n") 101].foldl Disk.perform furnished

/-- A tracker that has scanned the former and has not heard of the latter. -/
def sawFurnished : Tracker Disk :=
  { (Call.rescanRoots.after Disk.filesystem false ⟨furnished, {}, fun _ => 0, { tree := {} }⟩) with
    files := refurnished
    clock := fun n => 10 * n }

/-- The directory makes way for the new file with its three entries; the file `h` begins to wait, and the
file `f` does not. -/
theorem resolve_exact_sawFurnished :
    sawFurnished.tree.Formed ∧ ((resolve Disk.filesystem 4).run sawFurnished).2.tree.Fits ∧
      ∃ w' a token files, (resolve Disk.filesystem 4).run sawFurnished = (.ok ⟨⟨1, 1⟩⟩, w') ∧
        Disk.filesystem.Reads 4 refurnished a token files ∧
        Resolution Disk.filesystem files (fun n => 10 * n) a token sawFurnished.ledger ⟨⟨1, 1⟩⟩ w'.ledger ∧
        w'.tree.orphans.toList = [(⟨⟨3, 0⟩⟩, 30)] ∧ w'.ledger.journal.length = 7 := by
  have hreached : ReachedAnyhow Disk.filesystem sawFurnished :=
    .elsewhere (.call false .rescanRoots (.start trivial)) trivial
  have hformed : sawFurnished.tree.Formed := (hreached.sound (by decide +kernel)).formed rfl rfl rfl
  have fits : ((resolve Disk.filesystem 4).run sawFurnished).2.tree.Fits := by decide +kernel
  have hfound : ((resolve Disk.filesystem 4).run sawFurnished).1.toOption = some ⟨⟨1, 1⟩⟩ := by
    decide +kernel
  have hwaiting : ((resolve Disk.filesystem 4).run sawFurnished).2.tree.orphans.toList =
      [(⟨⟨3, 0⟩⟩, 30)] := by decide +kernel
  have hjournal : ((resolve Disk.filesystem 4).run sawFurnished).2.ledger.journal.length = 7 := by
    decide +kernel
  refine ⟨hformed, fits, ?_⟩
  obtain ⟨e, w', hrun, -⟩ | ⟨i, w', a, token, files, hrun, hreads, hresolution, -⟩ :=
    resolve_exact Disk.filesystem 4 hformed fits
  · rw [hrun] at hfound
    cases hfound
  · rw [hrun] at hfound hwaiting hjournal
    cases hfound
    exact ⟨w', a, token, files, hrun, hreads, hresolution, hwaiting, hjournal⟩

end Tracker

end TreeWatch

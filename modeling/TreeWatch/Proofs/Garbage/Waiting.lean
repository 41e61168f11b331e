import TreeWatch.Proofs.Garbage.Rescan

/-!
# Which records wait

As long as no call fails, the records that wait to be destroyed are exactly those that nothing binds,
but for the root. The root is found by the first scan and stays for good if the filesystem never says
that its object is gone.

## Main definitions

- `Filesystem.KeepsRoot` : what has to be known of the root of the mount
- `View.Anchored` : a record is the root, and will not have to make way for another
- `Tracker.Unfailing` : the states of a run in which no call fails

## Main results

- `Ledger.Edits.anchored` : the root stays
- `Tracker.Unfailing.waits_iff` : which records wait
-/

namespace TreeWatch

variable {σ H : Type} {fs : Filesystem σ H} {world : σ → Prop} {number : UInt64}

/-- In some state the token was said to name an object that is gone. -/
def Filesystem.SaysStale (fs : Filesystem σ H) (world : σ → Prop) (token : IdentityToken) : Prop :=
  ∃ files, world files ∧ ((fs.openByToken token).run files).1 = .error .stale

/-- Calls keep `world`. In it the root always has the inode number, and its tokens never go stale.
Whatever else is asked may be answered in any way. -/
structure Filesystem.KeepsRoot (fs : Filesystem σ H) (world : σ → Prop) (number : UInt64) : Prop where
  keeps : fs.Vouches world {}
  numbered : fs.RootNumbered world number
  lasts : ∀ files files' object token, world files → (fs.openRoot.run files).1 = .ok object →
    world files' → ((fs.identityToken object).run files').1 = .ok token → ¬fs.SaysStale world token

/-- The root of the disk is there, with its number and a name. -/
def Disk.RootStands (d : Disk) : Prop :=
  ∃ n ∈ d.node? rootSerial, n.ino = rootIno ∧ 0 < n.links

instance (d : Disk) : Decidable d.RootStands :=
  inferInstanceAs (Decidable (∃ n ∈ d.node? Disk.rootSerial, _ ∧ _))

theorem Disk.keepsRoot : Disk.filesystem.KeepsRoot Disk.RootStands Disk.rootIno where
  keeps := Disk.vouches _
  numbered := by
    intro d d' object a _ hopen hd' ha
    cases hopen
    obtain ⟨n, hn, hino, -⟩ := hd'
    change d'.attributes rootSerial = .ok a at ha
    rw [ino_of_attributes ha, inoAt_eq hn, hino]
  lasts := by
    rintro d d' object token _ hopen _ htoken ⟨d'', ⟨n, hn, -, hlinks⟩, hstale⟩
    cases hopen
    obtain rfl := eq_tokenOf_of_identityToken (d := d') htoken
    change d''.openByToken (tokenOf rootSerial) = .error .stale at hstale
    rw [openByToken, serialIn?_tokenOf (by decide)] at hstale
    simp [Option.mem_def.1 hn, hlinks, tokenOf] at hstale

/-! ### A root that stays -/

namespace View

variable {v : View} {root i : InodeId} {a : Attributes} {token : IdentityToken}
  {stale : IdentityToken → Prop}

/-- The record is the root. It has the inode number, and its token is not among the stale ones. -/
structure Anchored (v : View) (number : UInt64) (stale : IdentityToken → Prop) (root : InodeId) :
    Prop where
  root_eq : v.root = some root
  identity_eq : ∃ x, v.identity root = some x ∧ x.1.ino = number ∧ ¬stale x.2

theorem Anchored.insert (h : v.Anchored number stale root) (hunused : v.identity i = none)
    (a : Attributes) (token : IdentityToken) : (v.insert i a token).Anchored number stale root := by
  refine ⟨h.root_eq, h.identity_eq.imp fun x hx => ⟨?_, hx.2⟩⟩
  rw [identity_insert, if_neg, hx.1]
  rintro rfl
  rw [hunused] at hx
  cases hx.1

theorem Anchored.refresh (h : v.Anchored number stale root) (i : InodeId)
    (fingerprint : Fingerprint) : (v.refresh i fingerprint).Anchored number stale root := by
  obtain ⟨x, hx, hino, hstale⟩ := h.identity_eq
  refine ⟨h.root_eq, ?_⟩
  rw [identity_refresh, hx, Option.map_some]
  split
  · exact ⟨_, rfl, hino, hstale⟩
  · exact ⟨_, rfl, hino, hstale⟩

theorem Anchored.destroy (h : v.Anchored number stale root) (hne : root ≠ i) :
    (v.destroy i).Anchored number stale root := by
  have hroot : v.root ≠ some i := fun heq => hne (Option.some.inj (h.root_eq.symm.trans heq))
  refine ⟨?_, h.identity_eq.imp fun x hx => ⟨?_, hx.2⟩⟩
  · rw [root_destroy, if_neg hroot, h.root_eq]
  · rw [identity_destroy, if_neg hne, hx.1]

end View

namespace Ledger

variable {known : Testimony} {clock : Clock} {l l' : Ledger} {root : InodeId}

/-- The root would make way only if its token went stale, or if another record had its number. -/
theorem Edit.anchored (hknown : ∀ t i, known.root t i → t.lookupIno number = some i)
    (h : Edit known clock l l') (hsound : l.tree.Sound) (fits : l'.tree.Fits)
    (ha : l.tree.view.Anchored number known.stale root) :
    l'.tree.view.Anchored number known.stale root := by
  have hinsert : ∀ {m : Ledger} {a token}, m.tree.Sound → m.tree.lookupIno a.ino = none →
      (m.insertRecord a token).2.tree.Fits → m.tree.view.Anchored number known.stale root →
      (m.insertRecord a token).2.tree.view.Anchored number known.stale root := by
    intro m a token hm hino fits hma
    rw [tree_insertRecord] at fits ⊢
    rw [hm.view_insertRecord hino fits]
    exact hma.insert (hm.unused_fst_insertRecord fits).identity a token
  cases h with
  | note event => exact ha
  | insert _ hino => exact hinsert hsound hino fits ha
  | @replace old a token _ hold hstale =>
    obtain ⟨r, hr, -⟩ := (hsound.ino_iff a.ino old).1 hold
    have hne : root ≠ old := by
      rintro rfl
      obtain ⟨x, hx, -, hfresh⟩ := ha.identity_eq
      rw [Tree.view_identity, Tree.identity?_eq_some_iff] at hx
      obtain ⟨r', hr', rfl⟩ := hx
      exact hfresh (hstale r' hr')
    refine hinsert ?_ (Tree.lookupIno_invalidate clock hsound hold) fits ?_
    · rw [tree_invalidate]
      exact sound_destroy clock old hsound
    · rw [tree_invalidate, (destroyed_destroy clock old hsound hr).view_eq hsound]
      exact ha.destroy hne
  | @refresh i fingerprint =>
    show (l.tree.refreshFingerprint i fingerprint).view.Anchored number known.stale root
    rw [hsound.view_refreshFingerprint]
    exact ha.refresh i fingerprint
  | bind _ hadd =>
    obtain ⟨t, o, htree, rfl⟩ := addEntry_eq_ok hadd
    obtain ⟨⟨r, hr⟩, ⟨r', hr', hdir, hfree⟩, -, rfl⟩ := Tree.addEntry_eq_ok htree
    rw [hsound.view_withEntry hr hr' hdir hfree fits]
    exact ⟨ha.root_eq, ha.identity_eq⟩
  | unbind hremove =>
    obtain ⟨t, o, htree, rfl⟩ := removeEntry_eq_ok hremove
    obtain ⟨d, entries, hentries, -⟩ := Tree.removeEntry_eq_ok htree
    rw [hsound.view_removeEntry (Arena.get?_of_remove hentries) htree]
    exact ⟨ha.root_eq, ha.identity_eq⟩
  | @wait i =>
    show (l.tree.orphanIfUnlinked i (clock l.reads)).2.view.Anchored number known.stale root
    rw [Tree.view_orphanIfUnlinked]
    exact ha
  | @root i hi =>
    -- the record of the number is the root already
    obtain ⟨x, hx, hino, -⟩ := ha.identity_eq
    have hroot := hsound.lookupIno_eq_some_iff.2 ⟨x, hx, hino⟩
    rw [hknown l.tree i hi] at hroot
    exact ⟨hroot, ha.identity_eq⟩
  | reclaim =>
    have hpruned : Tree.Pruned l.tree (l.reclaimNow clock).2.tree := pruned_reclaim (l := l.tick) hsound
    refine ⟨hpruned.root_eq.trans ha.root_eq, ?_⟩
    rw [Tree.view_identity, hpruned.root_kept ha.root_eq]
    exact ha.identity_eq

theorem Edits.anchored (hknown : ∀ t i, known.root t i → t.lookupIno number = some i)
    (h : Edits known clock l l') (hsound : l.tree.Sound) (fits : l'.tree.Fits)
    (ha : l.tree.view.Anchored number known.stale root) :
    l'.tree.view.Anchored number known.stale root :=
  h.keep (fun _ _ hedit hsound fits => hedit.anchored hknown hsound fits) hsound fits ha

end Ledger

/-! ### The first scan -/

namespace Filesystem.KeepsRoot

/-- What is known of the answers of a filesystem that keeps its root. -/
def testimony (fs : Filesystem σ H) (world : σ → Prop) (number : UInt64) : Testimony where
  stale := fs.SaysStale world
  root t i := t.lookupIno number = some i

theorem vouches (h : fs.KeepsRoot world number) : fs.Vouches world (testimony fs world number) :=
  { h.keeps with
    stale := fun _ files hw hstale => ⟨files, hw, hstale⟩
    listed := fun _ _ _ _ _ _ _ _ => trivial
    root := fun object files files' a _ _ hw hw' hopen ha hi =>
      h.numbered files files' object a hw hopen hw' ha ▸ hi }

end Filesystem.KeepsRoot

namespace Tracker

variable {ε α β : Type} {w w' : Tracker σ} {root : InodeId}

/-- The tracker has a root that stays. -/
def Anchored (fs : Filesystem σ H) (world : σ → Prop) (number : UInt64) (root : InodeId)
    (w : Tracker σ) : Prop :=
  w.tree.view.Anchored number (fs.SaysStale world) root

theorem Anchored.edited (h : Anchored fs world number root w)
    (hedited : Edited world (Filesystem.KeepsRoot.testimony fs world number) w w')
    (hsound : w.tree.Sound) (fits : w'.tree.Fits) : Anchored fs world number root w' :=
  hedited.edits.anchored (fun _ _ => id) hsound fits h

/-- If what follows a computation only changes the tree, then a result of both tells how the state came
about. -/
theorem edited_of_bind (world : σ → Prop) (known : Testimony) {x : Track σ ε α}
    {f : α → Track σ ε β} {b : β} (hrun : (x >>= f).run w = (.ok b, w'))
    (hf : ∀ a, EditsOnly world known (f a)) :
    ∃ a w₁, x.run w = (.ok a, w₁) ∧ (world w₁.files → Edited world known w₁ w') := by
  rw [run_bind] at hrun
  rcases hx : x.run w with ⟨r, w₁⟩
  rw [hx] at hrun
  cases r with
  | error e => cases hrun
  | ok a =>
    have hrest : (f a).run w₁ = (.ok b, w') := hrun
    refine ⟨a, w₁, rfl, fun hw₁ => ?_⟩
    have hedited := hf a w₁ hw₁
    rwa [hrest] at hedited

/-- The first scan begins with the scan of the root, and after that it only changes the tree. -/
theorem scanRoot_of_baseline {known : Testimony} {strict : Bool} {summary : ScanSummary}
    (hfs : fs.Vouches world known) (hw : world w.files)
    (hrun : (baseline fs strict).run w = (.ok summary, w')) :
    ∃ summary₁ w₁, (scanRoot fs strict).run w = (.ok summary₁, w₁) ∧ Edited world known w₁ w' := by
  obtain ⟨summary₂, w₂, hrescan, hlast⟩ := edited_of_bind world known hrun fun summary => by
    refine .bind (.look _) fun _ => .bind (.note _) fun _ => .bind (.look _) fun verdict => ?_
    split
    · exact .pure _
    · exact .bind (.note _) fun _ => .pure _
  obtain ⟨summary₁, w₁, hscan, hfirst⟩ := edited_of_bind world known (run_of_wrapping hrescan)
    fun summary => .bind editsOnly_reclaimNow fun _ => .pure _
  have hw₁ : world w₁.files := by
    have hedited := editsOnly_scanRoot hfs strict w hw
    rw [hscan] at hedited
    exact hedited.files
  exact ⟨summary₁, w₁, hscan, (hfirst hw₁).trans (hlast (hfirst hw₁).files)⟩

variable (hfs : fs.KeepsRoot world number)
include hfs

/-- The first record is that of the root, and it will stay. -/
theorem anchored_resolve {object : H} {i : InodeId} {files : σ} (hfiles : world files)
    (hopen : (fs.openRoot.run files).1 = .ok object) (hw : world w.files) (hsound : w.tree.Sound)
    (hempty : ∀ ino, w.tree.lookupIno ino = none)
    (hrun : (resolve fs object).run w = (.ok i, w')) (fits : w'.tree.Fits) :
    w'.tree.Sound ∧ (w'.tree.setRoot i).view.Anchored number (fs.SaysStale world) i := by
  rcases resolve_cases fs object w with ⟨e, w₁, herror, -⟩ | ⟨a, token, ha, htoken, j, w₁, hok, hcases⟩
  · cases hrun.symm.trans herror
  cases hrun.symm.trans hok
  have hnumber : a.ino = number := hfs.numbered files w.files object a hfiles hopen hw ha
  have hlasts : ¬fs.SaysStale world token :=
    hfs.lasts files _ object token hfiles hopen (hfs.keeps.attributes object _ hw) htoken
  obtain ⟨hino, hinsert⟩ | ⟨hino, -⟩ | ⟨old, l, clock, hino, -⟩ := hcases
  · obtain ⟨hi, htree⟩ := Prod.ext_iff.1 hinsert
    simp only at hi htree
    subst hi
    rw [← htree] at fits ⊢
    refine ⟨hsound.insertRecord hino fits, rfl, (a, token), ?_, hnumber, hlasts⟩
    have hview := congrArg View.identity (hsound.view_insertRecord hino fits)
    show (w.tree.insertRecord a token).2.view.identity _ = _
    rw [hview, View.identity_insert, if_pos rfl]
  · rw [hempty] at hino
    cases hino
  · rw [hempty] at hino
    cases hino

/-- Scanning the root of the mount into an empty tree makes a root that stays. -/
theorem anchored_scanRoot {strict : Bool} {summary : ScanSummary} (hw : world w.files)
    (hsound : w.tree.Sound) (hempty : ∀ ino, w.tree.lookupIno ino = none)
    (hrun : (scanRoot fs strict).run w = (.ok summary, w')) (fits : w'.tree.Fits) :
    ∃ root, Anchored fs world number root w' := by
  rcases run_scanRoot strict w with ⟨e, w₁, herror, -⟩ | ⟨object, leases, i, w₂, hopen, hresolve, hscan⟩
  · cases hrun.symm.trans herror
  generalize hw₁ : ({ w with files := _, leases := _ } : Tracker σ) = w₁ at hresolve
  have htree₁ : w₁.tree = w.tree := by
    rw [← hw₁]
    rfl
  have hfiles₁ : world w₁.files := by
    rw [← hw₁]
    exact hfs.keeps.openRoot w.files hw
  have hresolved := editsOnly_resolve hfs.vouches object w₁ hfiles₁
  generalize hw₃ : ({ w₂ with ledger := _ } : Tracker σ) = w₃ at hscan
  have htree₃ : w₃.tree = w₂.tree.setRoot i := by
    rw [← hw₃]
    rfl
  have hfiles₃ : world w₃.files := by
    rw [← hw₃]
    rw [hresolve] at hresolved
    exact hresolved.files
  have hscanned := editsOnly_scan hfs.vouches strict object true w₃ hfiles₃
  rw [← hscan, hrun] at hscanned
  have fits₃ : w₃.tree.Fits := hscanned.tree.grows.fits fits
  have fits₂ : w₂.tree.Fits := by
    rw [htree₃] at fits₃
    exact ⟨fits₃.inodes, fits₃.entries⟩
  obtain ⟨hsound₂, hanchored⟩ := anchored_resolve hfs hw hopen hfiles₁
    (htree₁ ▸ hsound) (htree₁ ▸ hempty) hresolve fits₂
  rw [← htree₃] at hanchored
  exact ⟨i, Anchored.edited hanchored hscanned (htree₃ ▸ hsound₂.setRoot i) fits⟩

theorem anchored_baseline {strict : Bool} {summary : ScanSummary} (hw : world w.files)
    (hsound : w.tree.Sound) (hempty : ∀ ino, w.tree.lookupIno ino = none)
    (hrun : (baseline fs strict).run w = (.ok summary, w')) (fits : w'.tree.Fits) :
    ∃ root, Anchored fs world number root w' := by
  obtain ⟨summary₁, w₁, hscan, hedited⟩ := scanRoot_of_baseline hfs.vouches hw hrun
  have fits₁ : w₁.tree.Fits := hedited.tree.grows.fits fits
  have hscanned := editsOnly_scanRoot hfs.vouches strict w hw
  rw [hscan] at hscanned
  obtain ⟨root, hanchored⟩ := anchored_scanRoot hfs hw hsound hempty hscan fits₁
  exact ⟨root, hanchored.edited hedited (hscanned.tree.sound hsound fits₁) fits⟩

omit hfs

/-! ### Runs in which no call fails -/

/-- The states that come up in a run that began, with an empty tree, with a first scan that ended in
`first`. No call in it failed. In between, what the filesystem may be is told by `world`. -/
inductive Unfailing (fs : Filesystem σ H) (world : σ → Prop) (first : Tracker σ) : Tracker σ → Prop
  | baseline {files : σ} {leases : Leases} {clock : Clock} {grace : Nat} {strict : Bool}
      {summary : ScanSummary} :
    world files →
      (Tracker.baseline fs strict).run ⟨files, leases, clock, { tree := { grace } }⟩ =
        (.ok summary, first) → Unfailing fs world first first
  | call {w : Tracker σ} (strict : Bool) (c : Call H) :
    Unfailing fs world first w → ¬c.Fails fs strict w → Unfailing fs world first (c.after fs strict w)
  | elsewhere {w : Tracker σ} {files : σ} {leases : Leases} {clock : Clock} :
    Unfailing fs world first w → world files →
      Unfailing fs world first { w with files, leases, clock }

variable {first : Tracker σ}

/-- In every state of such a run the tree is in order, no record is stray, and the root is the record
that the first scan found. -/
theorem Unfailing.standing (hfs : fs.KeepsRoot world number) (h : Unfailing fs world first w)
    (fits : w.tree.Fits) :
    Standing world number w ∧ (∀ i, ¬w.tree.Stray i) ∧
      ∃ root, first.tree.root = some root ∧ Anchored fs world number root w := by
  induction h with
  | @baseline files leases clock grace strict summary hw hrun =>
    have hempty : Standing world number ⟨files, leases, clock, { tree := { grace } }⟩ :=
      ⟨hw, Tree.sound_empty grace, fun r hr => by cases hr⟩
    obtain ⟨root, hanchored⟩ := anchored_baseline hfs hw hempty.sound (fun _ => rfl) hrun fits
    have hafter := (sweeps_baseline hfs.keeps strict hfs.numbered).after hempty
    rw [hrun] at hafter
    obtain ⟨hstanding, hstrays⟩ := hafter fits
    refine ⟨hstanding, fun i hi => ?_, root, hanchored.root_eq, hanchored⟩
    rcases hstrays i hi with hold | ⟨e, herror⟩
    · exact absurd rfl hold.live
    · cases herror
  | @call w strict c _ hsucceeds ih =>
    obtain ⟨hw, hstrays, root, hfirst, hanchored⟩ := ih ((c.grows strict w).fits fits)
    obtain ⟨hstanding, hafter⟩ := c.after_standing hfs.keeps hfs.numbered strict hw fits
    have hedited := c.edits hfs.vouches strict w hw.files
    refine ⟨hstanding, fun i hi => ?_, root, hfirst, hanchored.edited hedited hw.sound fits⟩
    exact (hafter i hi).elim (hstrays i) hsucceeds
  | elsewhere _ hfiles ih =>
    obtain ⟨hw, hstrays, root, hfirst, hanchored⟩ := ih fits
    exact ⟨⟨hfiles, hw.sound, hw.root⟩, hstrays, root, hfirst, hanchored⟩

/-- As long as no call fails, a record waits to be destroyed exactly if no entry binds it and it is not
the root; whatever waits is in the tree, and the root is, after every call, the record that the first
scan made the root, and in the tree as well. -/
theorem Unfailing.waits_iff (hfs : fs.KeepsRoot world number) (h : Unfailing fs world first w)
    (fits : w.tree.Fits) :
    (∀ i, w.tree.isLive i → (w.tree.isOrphan i ↔
      (∀ e d, w.tree.entryOf? e = some d → d.child ≠ i) ∧ w.tree.root ≠ some i)) ∧
    (∀ i, w.tree.isOrphan i → w.tree.isLive i) ∧
    ∃ root, first.tree.root = some root ∧ w.tree.root = some root ∧ w.tree.isLive root := by
  obtain ⟨hstanding, hstrays, root, hfirst, hanchored⟩ := h.standing hfs fits
  have hsound := hstanding.sound
  have hlive : ∀ i, w.tree.isLive i ↔ ∃ r, w.tree.record? i = some r :=
    fun _ => Option.isSome_iff_exists
  have hidle : ∀ i, w.tree.Idle i ↔
      (∀ e d, w.tree.entryOf? e = some d → d.child ≠ i) ∧ w.tree.root ≠ some i := by
    refine fun i => ⟨fun hi => ⟨?_, hi.root_ne⟩, fun hi => ⟨hi.2, fun p name hc => ?_⟩⟩
    · rintro e ⟨p, c, name⟩ hd rfl
      exact hi.child?_ne p name (hsound.child?_eq_some_iff.2 ⟨e, hd⟩)
    · obtain ⟨e, hd⟩ := hsound.child?_eq_some_iff.1 hc
      exact hi.1 e _ hd rfl
  refine ⟨fun i hi => ?_, fun i hi => (hlive i).2 ?_, root, hfirst, hanchored.root_eq, (hlive root).2 ?_⟩
  · rw [← hidle]
    exact ⟨hsound.idle, fun hidle => hidle.waits hi (hstrays i)⟩
  · obtain ⟨-, r, hr, -⟩ := hsound.waiting hi
    exact ⟨r, hr⟩
  · obtain ⟨x, hx, -⟩ := hanchored.identity_eq
    obtain ⟨r, hr, -⟩ := Tree.identity?_eq_some_iff.1 hx
    exact ⟨r, hr⟩

/-! ### A file that goes -/

/-- What was found at first: a file. -/
def sawFile : Tracker Disk :=
  ((baseline Disk.filesystem false).run ⟨Disk.empty.perform (.create (.ofString "/a")), {}, fun _ => 0,
    { tree := { grace := 1000 } }⟩).2

/-- The file is gone, but it has not been so for long. -/
def missedFile : Tracker Disk :=
  Call.rescanRoots.after Disk.filesystem false { sawFile with files := .empty }

theorem unfailing_missedFile : Unfailing Disk.filesystem Disk.RootStands sawFile missedFile := by
  have hbaseline : ((baseline Disk.filesystem false).run
      ⟨Disk.empty.perform (.create (.ofString "/a")), {}, fun _ => 0, { tree := { grace := 1000 } }⟩).1 =
        .ok { directories := 1, linked := 1 } := by decide +kernel
  refine .call false .rescanRoots (.elsewhere (.baseline ?_ (Prod.ext hbaseline rfl)) ?_) ?_
  · decide +kernel
  · decide +kernel
  · rintro ⟨e, he⟩
    have hok : ((rescanRoots Disk.filesystem false).run { sawFile with files := .empty }).1.isOk := by
      decide +kernel
    rw [he] at hok
    cases hok

theorem waits_iff_missedFile :
    Disk.filesystem.KeepsRoot Disk.RootStands Disk.rootIno ∧
      Unfailing Disk.filesystem Disk.RootStands sawFile missedFile ∧ missedFile.tree.Fits ∧
      (∀ i, missedFile.tree.isLive i → (missedFile.tree.isOrphan i ↔
        (∀ e d, missedFile.tree.entryOf? e = some d → d.child ≠ i) ∧
          missedFile.tree.root ≠ some i)) ∧
      (∀ i, missedFile.tree.isOrphan i → missedFile.tree.isLive i) ∧
      ∃ root, sawFile.tree.root = some root ∧ missedFile.tree.root = some root ∧
        missedFile.tree.isLive root := by
  have fits : missedFile.tree.Fits := by decide +kernel
  exact ⟨Disk.keepsRoot, unfailing_missedFile, fits,
    unfailing_missedFile.waits_iff Disk.keepsRoot fits⟩

end Tracker

end TreeWatch

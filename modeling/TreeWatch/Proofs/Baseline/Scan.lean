import TreeWatch.Proofs.Baseline.Picture
import TreeWatch.Proofs.Mirror.History
import TreeWatch.Proofs.Mirror.Listing
import TreeWatch.Proofs.Tracker.Gives

/-!
# Scanning what is new

A scan that goes down from a directory that is new to the tree binds the names on the tour below it, one
after another, and passes over all other listed names.

## Main definitions

- `Disk.Scannable` : a disk on which no scan fails and no name is ambiguous
- `Tracker.Drawn`, `Tracker.Drew` : the tracker after the names on a tour have been bound
- `Tracker.Draws` : down to a depth, a function that scans directories binds the names below

## Main results

- `Tracker.gives_reconcile` : what becomes of a listed name
- `Tracker.draws_scanWithin` : scans bind the names below

## Design notes

A directory has one name only. So whatever is below a directory is new to the tree as long as no way on
the tour leads through it; this is said of ways, since then nothing has to be known of the objects.
-/

namespace TreeWatch

open Disk (Sighting)

/-- Directories have one name and can be listed, inode numbers tell objects with names apart, and what is
listed without an object has a name of its own. -/
structure Disk.Scannable (d : Disk) : Prop where
  regular : d.Regular
  singleNamed : d.SingleNamed
  apart : d.Apart []
  listable : d.Listable d.Named
  root_small : ¬d.Oversized Disk.rootSerial
  phantoms : ∀ s n, d.Named s → d.node? s = some n → ∀ e ∈ n.phantoms,
    e.isPseudo = false ∧ d.child? s e.name = none

/-- What is listed in a directory but for the directory itself and the one above it. -/
theorem Disk.Scannable.filter_listing {d : Disk} (hd : d.Scannable) {s : Serial} {n : Node}
    {children : SortedMap Bytes Serial} (hs : d.Named s) (hn : d.node? s = some n)
    (hchildren : n.children = some children) : (d.listing n children).filter (!·.isPseudo) =
      (d.names s).map d.entryOf ++ n.phantoms := by
  have hnames : d.names s = children.toList := by
    simp only [Disk.names, hn, Node.childMap, hchildren, Option.getD_some]
  have hproper : ((d.names s).map d.entryOf).filter (!·.isPseudo) = (d.names s).map d.entryOf := by
    refine List.filter_eq_self.2 fun e he => ?_
    obtain ⟨q, hq, rfl⟩ := List.mem_map.1 he
    simpa [ListedEntry.isPseudo, Disk.entryOf] using hd.regular.bound_proper (Disk.mem_names.1 hq)
  have hphantoms : n.phantoms.filter (!·.isPseudo) = n.phantoms := by
    refine List.filter_eq_self.2 fun e he => ?_
    rw [(hd.phantoms s n hs hn e he).1]
    rfl
  have hlisting : d.listing n children =
      [⟨Path.dot, n.ino⟩, ⟨Path.dotDot, Disk.rootIno⟩] ++ (d.names s).map d.entryOf ++ n.phantoms := by
    rw [hnames]
    rfl
  rw [hlisting, List.filter_append, List.filter_append, hproper, hphantoms]
  rfl

/-- Records stay those of their objects. -/
def View.Kept (d : Disk) (v v' : View) : Prop := ∀ i s, v.Holds d i s → v'.Holds d i s

namespace Tracker

variable {σ ε : Type} {fs : Filesystem σ Serial} {d : Disk} {strict : Bool} {w w' w'' : Tracker σ}
  {tour : List Sighting} {room depth : Nat} {s o : Serial} {p c i : InodeId} {name : Bytes}
  {way : List Bytes} {held : Serial → Prop} {records entries : Nat}

/-- All names on the tour have been bound and reported, and nothing else. There are slot numbers for as
many more names as is said. -/
structure Drawn (fs : Filesystem σ Serial) (d : Disk) (tour : List Sighting) (room : Nat)
    (w : Tracker σ) : Prop where
  plain : fs.Plain w.files d
  picture : w.tree.Depicts d (Disk.Seen tour) tour
  rooted : w.tree.view.Rooted d
  journal : w.ledger.journal = tour.map d.observe
  room : w.tree.Room room room

theorem Drawn.of_eq (h : Drawn fs d tour room w) (hfiles : w'.files = w.files)
    (htree : w'.tree = w.tree) (hjournal : w'.ledger.journal = w.ledger.journal) :
    Drawn fs d tour room w' :=
  ⟨hfiles ▸ h.plain, htree ▸ h.picture, htree ▸ h.rooted, hjournal.trans h.journal, htree ▸ h.room⟩

/-- Names have been bound, up to those on the tour, and records are still those of their objects. -/
structure Drew (fs : Filesystem σ Serial) (d : Disk) (tour : List Sighting) (room : Nat)
    (w w' : Tracker σ) : Prop extends Drawn fs d tour room w' where
  kept : w.tree.view.Kept d w'.tree.view

theorem Drawn.drew (h : Drawn fs d tour room w) : Drew fs d tour room w w := ⟨h, fun _ _ => id⟩

theorem Drew.of_eq (h : Drew fs d tour room w w') (hfiles : w''.files = w'.files)
    (htree : w''.tree = w'.tree) (hjournal : w''.ledger.journal = w'.ledger.journal) :
    Drew fs d tour room w w'' :=
  ⟨h.toDrawn.of_eq hfiles htree hjournal, htree ▸ h.kept⟩

theorem Drew.after (h : Drew fs d tour room w' w'') (hkept : w.tree.view.Kept d w'.tree.view) :
    Drew fs d tour room w w'' :=
  ⟨h.toDrawn, fun i s hi => h.kept i s (hkept i s hi)⟩

/-- The way to a name of a directory ends in that name, so the name is new if the way is. -/
theorem Drawn.unseen (hd : d.Scannable) (h : Drawn fs d tour room w) (hway : d.WayTo way s)
    (hdir : d.isDirectory s) (hfresh : ∀ x ∈ tour, ¬way ++ [name] <+: x.whole) :
    ∀ x ∈ tour, ¬(x.directory = s ∧ x.name = name) := by
  rintro x hx ⟨rfl, rfl⟩
  rw [hway.unique hd.regular hd.singleNamed (h.picture.sighted x hx).way hdir] at hfresh
  exact hfresh x hx (List.prefix_refl _)

/-! ### Finding records -/

/-- The record of an object has been found or made; the others are as before. -/
structure Placed (d : Disk) (held : Serial → Prop) (tour : List Sighting) (records entries : Nat)
    (s : Serial) (i : InodeId) (w w' : Tracker σ) : Prop where
  files : w'.files = w.files
  journal : w'.ledger.journal = w.ledger.journal
  root_eq : w'.tree.root = w.tree.root
  picture : w'.tree.Depicts d held tour
  holds : w'.tree.view.Holds d i s
  kept : w.tree.view.Kept d w'.tree.view
  room : w'.tree.Room records entries

theorem Placed.rooted (h : Placed d held tour records entries s i w w')
    (hw : w.tree.view.Rooted d) : w'.tree.view.Rooted d := by
  obtain ⟨r, hroot, hr⟩ := hw
  exact ⟨r, h.root_eq.trans hroot, h.kept r _ hr⟩

/-- The record of an object that has one is found. -/
theorem gives_resolve_of_held (hplain : fs.Plain w.files d) (hpicture : w.tree.Depicts d held tour)
    (hi : w.tree.view.Holds d i s) (hsize : ¬d.Oversized s) (hroom : w.tree.Room records entries) :
    Gives (resolve fs s) w i (Placed d held tour records entries s i w) := by
  obtain ⟨a, n, ha, hn, hino, -⟩ := id hi
  have hlookup : w.tree.lookupIno n.ino = some i :=
    hpicture.sound.lookupIno_eq_some_iff.2 ⟨_, ha, hino⟩
  have hrun := run_resolve hplain hn hsize fun j hj => by
    obtain ⟨r, hr, hidentity⟩ := Tree.identity?_eq_some_iff.1 ha
    rw [hlookup] at hj
    cases hj
    exact ⟨r, hr, congrArg Prod.snd hidentity⟩
  rw [hlookup] at hrun
  have hkept : w.tree.view.Kept d (w.tree.refreshFingerprint i n.fingerprint).view := by
    intro j o hj
    rw [hpicture.sound.view_refreshFingerprint]
    exact View.holds_refresh.2 hj
  exact .of_run_eq hrun ⟨rfl, rfl, rfl, hpicture.refreshFingerprint hi (Disk.attributes_eq hn),
    hkept i s hi, hkept, hroom.refreshFingerprint i _⟩

/-- An object that has none gets a record. -/
theorem gives_resolve_of_not_held (hd : d.Scannable) (hplain : fs.Plain w.files d)
    (hpicture : w.tree.Depicts d held tour) (hheld : ∀ o, held o → d.Named o) (hs : d.Named s)
    (hnew : ¬held s) (hsize : ¬d.Oversized s)
    (hshort : ∀ way, d.WayTo way s → d.isDirectory s → way.length ≤ w.tree.recordCount)
    (hroom : w.tree.Room (records + 1) entries) :
    ∃ i, Gives (resolve fs s) w i
      (Placed d (fun o => held o ∨ o = s) tour records entries s i w) := by
  obtain ⟨n, hn⟩ := hd.regular.exists_node_of_named hs
  -- the number is not in use, since it would be that of another object with a name
  have hlookup : w.tree.lookupIno n.ino = none := by
    refine Option.eq_none_iff_forall_ne_some.2 fun j hj => ?_
    obtain ⟨x, hx, hino⟩ := hpicture.sound.lookupIno_eq_some_iff.1 hj
    obtain ⟨o, ho⟩ := hpicture.truthful j x hx
    have hsame : d.inoAt o = d.inoAt s := by rw [← ho.ino_eq hx, hino, Disk.inoAt_eq hn]
    have hheld_o : held o := (hpicture.held_iff o).1 ⟨j, ho⟩
    have heq := hd.apart.eq_of_ino_eq o s (.inl (hheld o hheld_o)) (.inl hs) hsame
    exact hnew (heq ▸ hheld_o)
  have hrun := run_resolve hplain hn hsize fun j hj => by
    rw [hlookup] at hj
    cases hj
  rw [hlookup, run_editGet] at hrun
  have hinserted := hroom.insertRecord ⟨n.ino, n.mode, n.fingerprint⟩ (Disk.tokenOf s)
  obtain ⟨hafter, hholds, hkept⟩ := hpicture.insertRecord hd.regular (Disk.attributes_eq hn) hnew
    hlookup hshort hinserted.fits
  have htree := Ledger.tree_insertRecord w.ledger ⟨n.ino, n.mode, n.fingerprint⟩ (Disk.tokenOf s)
  refine ⟨_, .of_run_eq hrun ⟨rfl, Ledger.journal_insertRecord .., ?_, ?_, ?_, ?_, ?_⟩⟩
  all_goals simp only [tree, htree, Ledger.fst_insertRecord]
  · rfl
  · exact hafter
  · exact hholds
  · exact hkept
  · exact hinserted

/-- The record of an object with a name is found or made. -/
theorem gives_resolve (hd : d.Scannable) (h : Drawn fs d tour (room + 1) w) (hway : d.WayTo way s)
    (hp : w.tree.view.Holds d p s) (ho : d.child? s name = some o) (hsize : ¬d.Oversized o) :
    ∃ i, Gives (resolve fs o) w i
      (Placed d (fun u => Disk.Seen tour u ∨ u = o) tour room (room + 1) o i w) := by
  by_cases hheld : Disk.Seen tour o
  · obtain ⟨i, hi⟩ := (h.picture.held_iff o).2 hheld
    have hsame : ∀ u, Disk.Seen tour u ↔ Disk.Seen tour u ∨ u = o :=
      fun u => ⟨.inl, fun hu => hu.elim id fun heq => heq ▸ hheld⟩
    exact ⟨i, gives_resolve_of_held h.plain (h.picture.congr_held hsame) hi hsize
      (h.room.mono (Nat.le_succ _) (Nat.le_refl _))⟩
  · refine gives_resolve_of_not_held hd h.plain h.picture (fun u hu => hu.named h.picture.sighted)
      (.inr ⟨s, name, ho⟩) hheld hsize (fun way' hway' hdir => ?_) h.room
    -- the only way to a directory leads through the one that it is in
    have heq := hway'.unique hd.regular hd.singleNamed (.name hway ho hsize) hdir
    rw [heq, List.length_append, List.length_singleton]
    exact h.picture.short hp (Disk.isDirectory_of_child? ho) hway

/-! ### Binding a name -/

theorem gives_rebind (hd : d.Scannable) (hpicture : w.tree.Depicts d held tour)
    (hway : d.WayTo way s) (hseen : Disk.Seen tour s) (ho : d.child? s name = some o)
    (hsize : ¬d.Oversized o) (hp : w.tree.view.Holds d p s) (hc : w.tree.view.Holds d c o)
    (hunseen : ∀ x ∈ tour, ¬(x.directory = s ∧ x.name = name)) (fits : (w.tree.withEntry p name c).Fits) :
    Gives (rebind p name c : Track σ ScanError ScanSummary) w { linked := 1 } fun w' =>
      w'.files = w.files ∧ w'.tree = w.tree.withEntry p name c ∧
        w'.ledger.journal = w.ledger.journal ++ [d.observe ⟨way, s, name, o⟩] := by
  have hfree := (hpicture.child_eq_none_iff hp).2 hunseen
  obtain ⟨rp, hparent⟩ := Tree.exists_record?_of_holds hp
  have hentry : w.tree.childEntryOf? p name = none := by
    rw [Tree.childEntryOf?, hparent, Option.bind_some]
    exact (hpicture.sound.childEntryOf?_eq_none_iff hparent).2 hfree
  obtain ⟨e, hadd⟩ := hpicture.addEntry_eq hd.regular hd.singleNamed hway hseen ho hsize hp hc hfree fits
  have hbind := run_bindName p name c w
  rw [hadd] at hbind
  unfold rebind
  refine .step (run_look _ w) ?_
  rw [hentry]
  exact .step hbind (.pure ⟨rfl, rfl, rfl⟩)

/-- A directory that has just been bound is opened once more. -/
theorem gives_handOn (hd : d.Regular) (hplain : fs.Plain w.files d) (hsound : w.tree.Sound)
    (hc : w.tree.view.Holds d c o) (summary : ScanSummary) :
    Gives (handOn fs c summary true o) w (summary, if d.isDirectory o then some o else none)
      fun w' => ∃ leases, w' = { w with leases } := by
  obtain ⟨r, hr⟩ := Tree.exists_record?_of_holds hc
  have hdirectory : r.isDirectory = d.isDirectory o :=
    Bool.eq_iff_iff.2 (hsound.isDirectory_iff hd hc hr)
  unfold handOn
  refine .step (run_look _ w) ?_
  simp only [hr, Option.any_some, hdirectory, Bool.true_or, Bool.and_true]
  split
  · next hdir => exact .attempt_step (hplain.run_openDirectory hdir) (.pure ⟨_, rfl⟩)
  · exact .pure ⟨w.leases, rfl⟩

theorem gives_bindObject (hd : d.Scannable) (h : Drawn fs d tour (room + 1) w) (hway : d.WayTo way s)
    (hseen : Disk.Seen tour s) (hp : w.tree.view.Holds d p s) (ho : d.child? s name = some o)
    (hsize : ¬d.Oversized o) (hunseen : ∀ x ∈ tour, ¬(x.directory = s ∧ x.name = name)) :
    Gives (bindObject fs p name true o) w
      ({ linked := 1 }, if d.isDirectory o then some o else none)
      (Drew fs d (tour ++ [⟨way, s, name, o⟩]) room w) := by
  obtain ⟨i, hresolve⟩ := gives_resolve hd h hway hp ho hsize
  unfold bindObject
  refine .attempt_bind hresolve fun w₁ h₁ => ?_
  have hp₁ := h₁.kept p s hp
  have hfits := (h₁.room.withEntry p name i).fits
  refine .bind (gives_rebind hd h₁.picture hway hseen ho hsize hp₁ h₁.holds hunseen hfits) ?_
  rintro w₂ ⟨hfiles, htree, hjournal⟩
  have hpicture := h₁.picture.withEntry hd.regular hway hseen ho hsize hp₁ h₁.holds
    ((h₁.picture.child_eq_none_iff hp₁).2 hunseen) hfits
  have hroom := h₁.room.withEntry p name i
  have hkept : ∀ j u, w₁.tree.view.Holds d j u → w₂.tree.view.Holds d j u := by
    intro j u hj
    rw [htree]
    exact (View.holds_congr (Tree.identity?_withEntry j)).2 hj
  obtain ⟨r, hroot, hr⟩ := h₁.rooted h.rooted
  have hroot₂ : w₂.tree.root = some r := by
    rw [htree]
    exact hroot
  rw [← htree] at hpicture hroom
  have hplain : fs.Plain w₂.files d := hfiles ▸ h₁.files ▸ h.plain
  refine (gives_handOn hd.regular hplain hpicture.sound (hkept i o h₁.holds) _).mono ?_
  rintro _ ⟨leases, rfl⟩
  have hseen₂ : ∀ u, Disk.Seen tour u ∨ u = o ↔ Disk.Seen (tour ++ [⟨way, s, name, o⟩]) u :=
    fun _ => (Disk.seen_append_singleton (x := ⟨way, s, name, o⟩)).symm
  refine ⟨⟨hplain, hpicture.congr_held hseen₂, ⟨r, hroot₂, hkept r _ hr⟩, ?_, hroom⟩,
    fun j u hj => hkept j u (h₁.kept j u hj)⟩
  rw [hjournal, h₁.journal, h.journal, List.map_append, List.map_singleton]

/-! ### Listed names -/

/-- Down to a depth, the function binds the names below directories that are new to the tree. -/
def Draws (fs : Filesystem σ Serial) (d : Disk) (depth : Nat) (scanBelow : ScanBelow σ Serial) : Prop :=
  ∀ {way s tour room} {w : Tracker σ}, d.WayTo way s → d.isDirectory s → Disk.Seen tour s →
    (∀ x ∈ tour, ¬way <+: x.way) → d.Shallow depth s →
    Drawn fs d tour (room + (d.sightings depth way s).length) w →
    Gives (scanBelow s true) w (d.overview s (d.sightings depth way s))
      (Drew fs d (tour ++ d.sightings depth way s) room w)

variable {scanBelow : ScanBelow σ Serial}

/-- A name that is not bound is opened, whether the scan is strict or not. -/
theorem gives_reconcile_of_free {a : ScanSummary} {Q : Tracker σ → Prop} {recursive : Bool}
    {listed : ListedEntry} (hfree : w.tree.view.child p listed.name = none)
    (h : Gives (reopen fs scanBelow s p recursive listed.name) w a Q) :
    Gives (reconcile fs strict scanBelow s p recursive listed) w a Q := by
  rw [Tree.view_child] at hfree
  unfold reconcile unchanged?
  refine .step (run_look _ w) ?_
  rw [hfree]
  exact h

/-- Names without an object and those of oversized objects are passed over. -/
theorem gives_reopen_of_skipped (h : Drawn fs d tour room w) (hdir : d.isDirectory s)
    (hskipped : ∀ o, d.child? s name = some o → d.Oversized o) (recursive : Bool) :
    Gives (reopen fs scanBelow s p recursive name) w .oneSkipped (Drew fs d tour room w) := by
  obtain ⟨leases, hopen⟩ := h.plain.run_openChild hdir name
  unfold reopen
  refine .wrapping_step hopen ?_
  cases hchild : d.child? s name with
  | none => exact .step (run_note _ _) (.pure (h.drew.of_eq rfl rfl rfl))
  | some o =>
    have hplain : fs.Plain ({ w with leases } : Tracker σ).files d := h.plain
    have hrun := hplain.run_resolve_of_oversized (hskipped o hchild)
    have hbind : Gives (bindObject fs p name recursive o) { w with leases } (.oneSkipped, none)
        (Drew fs d tour room w) := by
      unfold bindObject
      exact .attempt_step hrun (.step (run_note _ _) (.pure (h.drew.of_eq rfl rfl rfl)))
    exact .bind (hbind.releasing fun _ _ h => h.of_eq rfl rfl rfl) fun _ h => .pure h

/-- A name is bound, and if its object is a directory, so are the names below it. -/
theorem gives_reopen (hd : d.Scannable) (hbelow : Draws fs d depth scanBelow)
    (h : Drawn fs d tour (room + ((d.sightings depth (way ++ [name]) o).length + 1)) w)
    (hway : d.WayTo way s) (hseen : Disk.Seen tour s) (hp : w.tree.view.Holds d p s)
    (ho : d.child? s name = some o) (hsize : ¬d.Oversized o)
    (hfresh : ∀ x ∈ tour, ¬way ++ [name] <+: x.whole)
    (hshallow : d.isDirectory o → d.Shallow depth o) :
    Gives (reopen fs scanBelow s p true name) w
      (d.tally (⟨way, s, name, o⟩ :: d.sightings depth (way ++ [name]) o))
      (Drew fs d (tour ++ ⟨way, s, name, o⟩ :: d.sightings depth (way ++ [name]) o) room w) := by
  have hdir := Disk.isDirectory_of_child? ho
  obtain ⟨leases, hopen⟩ := h.plain.run_openChild hdir name
  unfold reopen
  refine .wrapping_step hopen ?_
  have h₀ : Drawn fs d tour (room + (d.sightings depth (way ++ [name]) o).length + 1)
      { w with leases } := h.of_eq rfl rfl rfl
  simp only [ho]
  have hbind : Gives (releasing (bindObject fs p name true o)) { w with leases }
      ({ linked := 1 }, if d.isDirectory o then some o else none)
      (Drew fs d (tour ++ [⟨way, s, name, o⟩])
        (room + (d.sightings depth (way ++ [name]) o).length) w) :=
    (gives_bindObject hd h₀ hway hseen hp ho hsize (h.unseen hd hway hdir hfresh)).releasing
      fun _ _ h => ⟨h.toDrawn.of_eq rfl rfl rfl, h.kept⟩
  refine .bind hbind fun w₁ h₁ => ?_
  by_cases hodir : d.isDirectory o
  · simp only [hodir, if_true]
    have hfresh₁ : ∀ x ∈ tour ++ [⟨way, s, name, o⟩], ¬way ++ [name] <+: x.way := by
      intro x hx hthrough
      rcases List.mem_append.1 hx with hx | hx
      · exact hfresh x hx (hthrough.trans (List.prefix_append x.way [x.name]))
      · obtain rfl := List.mem_singleton.1 hx
        have hle := hthrough.length_le
        rw [List.length_append, List.length_singleton] at hle
        exact absurd hle (Nat.not_succ_le_self _)
    have hseen₁ : Disk.Seen (tour ++ [⟨way, s, name, o⟩]) o :=
      Disk.seen_append_singleton.2 (.inr rfl)
    refine .bind (hbelow (.name hway ho hsize) hodir hseen₁ hfresh₁ (hshallow hodir) h₁.toDrawn)
      fun w₂ h₂ => ?_
    rw [List.append_assoc, List.singleton_append] at h₂
    rw [Disk.tally_directory_cons hodir]
    exact .pure (h₂.after h₁.kept)
  · simp only [hodir, Bool.false_eq_true, if_false]
    rw [Disk.sightings_of_not_directory hodir] at h₁ ⊢
    rw [Disk.tally_of_not_directory hodir]
    exact .pure h₁

/-- A listed name of an object is bound, with all that is below it, or passed over. -/
theorem gives_reconcile (hd : d.Scannable) (hbelow : Draws fs d depth scanBelow)
    {q : Bytes × Serial}
    (h : Drawn fs d tour (room + (d.sightingsAt (d.sightings depth) way s q).length) w)
    (hway : d.WayTo way s) (hseen : Disk.Seen tour s) (hp : w.tree.view.Holds d p s)
    (hq : d.child? s q.1 = some q.2) (hfresh : ∀ x ∈ tour, ¬way ++ [q.1] <+: x.whole)
    (hshallow : ∀ c, d.Subdirectory s c → d.Shallow depth c) :
    Gives (reconcile fs strict scanBelow s p true (d.entryOf q)) w
      ({ skipped := if d.Oversized q.2 then 1 else 0 } +
        d.tally (d.sightingsAt (d.sightings depth) way s q))
      (Drew fs d (tour ++ d.sightingsAt (d.sightings depth) way s q) room w) := by
  obtain ⟨name, o⟩ := q
  have hdir := Disk.isDirectory_of_child? hq
  have hfree : w.tree.view.child p name = none :=
    (h.picture.child_eq_none_iff hp).2 (h.unseen hd hway hdir hfresh)
  refine gives_reconcile_of_free hfree ?_
  unfold Disk.sightingsAt at h ⊢
  by_cases hsize : d.Oversized o
  · simp only [hsize, if_true] at h ⊢
    rw [List.append_nil]
    refine gives_reopen_of_skipped h hdir (fun o' ho' => ?_) true
    cases hq.symm.trans ho'
    exact hsize
  · simp only [hsize, if_false] at h ⊢
    rw [ScanSummary.zero_add]
    exact gives_reopen hd hbelow h hway hseen hp hq hsize hfresh fun hodir =>
      hshallow o ⟨⟨name, hq⟩, hodir⟩

/-- What is listed without an object is passed over. -/
theorem gives_reconcileAll_phantoms (h : Drawn fs d tour room w) (hdir : d.isDirectory s)
    (hp : w.tree.view.Holds d p s) (phantoms : List ListedEntry)
    (hnone : ∀ e ∈ phantoms, d.child? s e.name = none) :
    Gives (reconcileAll fs strict scanBelow s p true phantoms) w { skipped := phantoms.length }
      (Drew fs d tour room w) := by
  induction phantoms generalizing w with
  | nil => exact .pure h.drew
  | cons e rest ih =>
    have hchild := hnone e List.mem_cons_self
    have hfree : w.tree.view.child p e.name = none := by
      refine (h.picture.child_eq_none_iff hp).2 ?_
      rintro x hx ⟨rfl, hname⟩
      rw [← hname, (h.picture.sighted x hx).child] at hchild
      cases hchild
    have hskipped : ∀ o, d.child? s e.name = some o → d.Oversized o := by
      intro o ho
      rw [hchild] at ho
      cases ho
    refine .bind (gives_reconcile_of_free hfree (gives_reopen_of_skipped h hdir hskipped true))
      fun w₁ h₁ => ?_
    refine .bind (ih h₁.toDrawn (h₁.kept p s hp) fun e he => hnone e (List.mem_cons_of_mem _ he))
      fun w₂ h₂ => ?_
    have hsum : ({ skipped := (e :: rest).length } : ScanSummary) =
        .oneSkipped + { skipped := rest.length } := by
      change _ = ScanSummary.mk 0 0 0 0 (1 + rest.length)
      rw [List.length_cons, Nat.add_comm]
    rw [hsum]
    exact .pure (h₂.after h₁.kept)

/-- Going through names of a directory, and what is listed without an object after them, binds the
names. -/
theorem gives_reconcileAll (hd : d.Scannable) (hbelow : Draws fs d depth scanBelow)
    (hway : d.WayTo way s) (hdir : d.isDirectory s)
    (hshallow : ∀ c, d.Subdirectory s c → d.Shallow depth c) {phantoms : List ListedEntry}
    (hphantoms : ∀ e ∈ phantoms, d.child? s e.name = none) (listed : List (Bytes × Serial))
    (hlisted : ∀ q ∈ listed, d.child? s q.1 = some q.2) (hnodup : (listed.map Prod.fst).Nodup)
    (h : Drawn fs d tour
      (room + (listed.flatMap (d.sightingsAt (d.sightings depth) way s)).length) w)
    (hseen : Disk.Seen tour s) (hp : w.tree.view.Holds d p s)
    (hfresh : ∀ q ∈ listed, ∀ x ∈ tour, ¬way ++ [q.1] <+: x.whole) :
    Gives (reconcileAll fs strict scanBelow s p true
        (listed.map d.entryOf ++ phantoms)) w
      ({ skipped := phantoms.length + listed.countP fun q => d.Oversized q.2 } +
        d.tally (listed.flatMap (d.sightingsAt (d.sightings depth) way s)))
      (Drew fs d (tour ++ listed.flatMap (d.sightingsAt (d.sightings depth) way s)) room w) := by
  induction listed generalizing tour w with
  | nil =>
    rw [List.flatMap_nil, List.append_nil]
    exact gives_reconcileAll_phantoms h hdir hp phantoms hphantoms
  | cons q rest ih =>
    obtain ⟨hfirst, hrest⟩ := List.nodup_cons.1 hnodup
    rw [List.flatMap_cons, List.length_append, Nat.add_comm (List.length _), ← Nat.add_assoc] at h
    refine .bind (gives_reconcile hd hbelow h hway hseen hp (hlisted q List.mem_cons_self)
      (hfresh q List.mem_cons_self) hshallow) fun w₁ h₁ => ?_
    have hfresh₁ : ∀ q' ∈ rest, ∀ x ∈ tour ++ d.sightingsAt (d.sightings depth) way s q,
        ¬way ++ [q'.1] <+: x.whole := by
      intro q' hq' x hx hthrough
      rcases List.mem_append.1 hx with hx | hx
      · exact hfresh q' (List.mem_cons_of_mem _ hq') x hx hthrough
      · have heq := Disk.eq_of_prefix_whole (Disk.prefix_of_mem_sightingsAt hx) hthrough
        exact hfirst (heq ▸ List.mem_map_of_mem hq')
    refine .bind (ih (fun q' hq' => hlisted q' (List.mem_cons_of_mem _ hq')) hrest h₁.toDrawn
      (hseen.append _) (h₁.kept p s hp) hfresh₁) fun w₂ h₂ => ?_
    rw [List.append_assoc, ← List.flatMap_cons] at h₂
    rw [Disk.tally_flatMap_cons]
    exact .pure (h₂.after h₁.kept)

/-! ### Directories -/

/-- If all names of a directory are listed, none of them is gone. -/
theorem goneEntries_of_depicts {t : Tree} (h : t.Depicts d held tour) (hp : t.view.Holds d p s)
    {listed : List Bytes} (hlisted : ∀ q ∈ d.names s, q.1 ∈ listed) : goneEntries t p listed = [] := by
  refine goneEntries_eq_nil h.sound fun name c hbound => ?_
  obtain ⟨x, hx, rfl, rfl, -⟩ := (h.child_iff hp name c).1 hbound
  exact hlisted _ (Disk.mem_names.2 (h.sighted x hx).child)

theorem gives_applyListing (hd : d.Scannable) (hbelow : Draws fs d depth scanBelow)
    (h : Drawn fs d tour (room + (d.sightings (depth + 1) way s).length) w) (hway : d.WayTo way s)
    (hseen : Disk.Seen tour s) (hfresh : ∀ x ∈ tour, ¬way <+: x.way)
    (hshallow : d.Shallow (depth + 1) s) (hp : w.tree.view.Holds d p s) {n : Node}
    {children : SortedMap Bytes Serial} (hn : d.node? s = some n)
    (hchildren : n.children = some children) :
    Gives (applyListing fs strict scanBelow s p true (d.listing n children)) w
      (d.overview s (d.sightings (depth + 1) way s))
      (Drew fs d (tour ++ d.sightings (depth + 1) way s) room w) := by
  have hdir : d.isDirectory s := by
    rw [Disk.isDirectory, hn, Option.bind_some, hchildren]
    rfl
  have hfresh₀ : ∀ q ∈ d.names s, ∀ x ∈ tour, ¬way ++ [q.1] <+: x.whole := by
    intro q _ x hx hthrough
    refine hfresh x hx ?_
    -- what is below a name of the directory is below the directory
    have hlength := hthrough.length_le
    rw [Sighting.whole, List.length_append, List.length_append] at hlength
    exact List.prefix_of_prefix_length_le ((List.prefix_append way [q.1]).trans hthrough)
      (List.prefix_append x.way [x.name]) (Nat.le_of_add_le_add_right hlength)
  have hlisting := hd.filter_listing hway.named hn hchildren
  rw [Disk.sightings_succ] at h ⊢
  unfold applyListing
  rw [hlisting]
  refine .bind (gives_reconcileAll hd hbelow hway hdir hshallow
    (fun e he => (hd.phantoms s n hway.named hn e he).2) (d.names s)
    (fun q hq => Disk.mem_names.1 hq) (d.nodup_names s) h hseen hp hfresh₀) fun w₁ h₁ => ?_
  have hgone : goneEntries w₁.tree p
      (((d.names s).map d.entryOf ++ n.phantoms).map (·.name)) = [] := by
    refine goneEntries_of_depicts h₁.picture (h₁.kept p s hp) fun q hq => ?_
    rw [List.map_append, List.map_map]
    exact List.mem_append_left _ (List.mem_map.2 ⟨q, hq, rfl⟩)
  refine .step (run_look _ _) ?_
  rw [hgone]
  refine .step (run_pure _ _) ?_
  refine .step (run_edit _ _) (.step (run_look _ _) (.step (run_note _ _) ?_))
  rw [Disk.overview_eq hn]
  exact .pure (h₁.of_eq rfl (h₁.picture.orphanIfUnlinked_eq h₁.rooted p _) rfl)

theorem draws_scanDirectory (hd : d.Scannable) (hbelow : Draws fs d depth scanBelow) :
    Draws fs d (depth + 1) (scanDirectory fs strict scanBelow) := by
  intro way s tour room w hway hdir hseen hfresh hshallow h
  obtain ⟨n, hn⟩ := hd.regular.exists_node_of_named hway.named
  obtain ⟨children, hchildren⟩ :=
    Option.isSome_iff_exists.1 ((Disk.isDirectory_iff_of_node? hn).1 hdir)
  obtain ⟨p, hp⟩ := (h.picture.held_iff s).2 hseen
  have hsize := hway.not_oversized hd.root_small
  have hlist : d.list s = .ok (d.listing n children) := by
    simp [Disk.list, hn, hd.listable s n hway.named hn, hchildren]
  unfold scanDirectory
  refine .releasing (P := Drew fs d (tour ++ d.sightings (depth + 1) way s) room w) ?_
    fun _ _ h => h.of_eq rfl rfl rfl
  refine .attempt_bind (gives_resolve_of_held h.plain h.picture hp hsize h.room) fun w₁ h₁ => ?_
  have hdrawn : Drawn fs d tour (room + (d.sightings (depth + 1) way s).length) w₁ :=
    ⟨h₁.files ▸ h.plain, h₁.picture, h₁.rooted h.rooted, h₁.journal.trans h.journal, h₁.room⟩
  unfold scanRecord
  have hasked := hdrawn.plain.run_list s
  rw [hlist] at hasked
  exact .attempt_step hasked ((gives_applyListing hd hbelow hdrawn hway hseen hfresh hshallow
    h₁.holds hn hchildren).mono fun _ h => h.after h₁.kept)

/-- Scans bind the names below directories that are new to the tree, unless ways down are too long. -/
theorem draws_scanWithin (hd : d.Scannable) (depth : Nat) :
    Draws fs d depth (scanWithin fs strict depth) := by
  induction depth with
  | zero => exact fun _ _ _ _ hshallow _ => hshallow.elim
  | succ depth ih => exact draws_scanDirectory hd ih

end Tracker

end TreeWatch

import TreeWatch.Proofs.Disk.Orderly
import TreeWatch.Proofs.Mirror.Batch
import TreeWatch.Proofs.Mirror.Rescan

/-!
# Convergence

While a disk is watched, operations happen on it and notifications are queued for the directories that
they modify. Batches of queued notifications are processed at any time and in any order. Whenever none
is left, the tree mirrors the disk.

## Main definitions

- `Disk.Evolved`, `Disk.Evolves` : what operations make of an empty disk, or of another one
- `Disk.Watchable` : a disk that can be watched through handles
- `Tracker.Followed` : the states that come up while a disk is followed
- `Tracker.Steady` : the invariant

## Main results

- `Tracker.Steady.after`, `Tracker.Steady.does_batch` : operations and batches keep the invariant
- `Tracker.Followed.converges` : batches succeed, and trees converge

## Design notes

The invariant is that a directory with a name and a record is settled unless a notification tells of it.
An operation changes the names in its parents only, so the others stay settled; an object that it makes
has no record. A batch settles the directories that it tells of and those that are new to the tree, and
undoes nothing. Directories without a record do not count: a tree mirrors the disk as soon as those are
settled that have one, since names lead down from the root.
-/

namespace TreeWatch

namespace Disk

variable {d d' : Disk} {handles handles' : List Serial} {op : Operation}

/-- Operations lead from the empty disk to this one. -/
def Evolved : Disk → Prop :=
  Relation.ReflTransGen (fun d d' => ∃ op : Operation, op.apply d = .ok d') empty

theorem Evolved.regular (h : d.Evolved) : d.Regular := by
  induction h with
  | refl => exact regular_empty
  | tail _ hlast ih =>
    obtain ⟨op, hop⟩ := hlast
    exact Operation.regular hop ih

theorem Evolved.perform (h : d.Evolved) (op : Operation) : (d.perform op).Evolved := by
  rcases d.perform_cases op with hsame | hop
  · exact hsame.symm ▸ h
  · exact Relation.ReflTransGen.tail h ⟨op, hop⟩

/-- Operations lead from one disk to another. -/
def Evolves : Disk → Disk → Prop :=
  Relation.ReflTransGen fun d d' => ∃ op : Operation, op.apply d = .ok d'

theorem Evolved.evolves (h : d.Evolved) (hlater : d.Evolves d') : d'.Evolved := by
  induction hlater with
  | refl => exact h
  | tail _ hlast ih => exact Relation.ReflTransGen.tail ih hlast

theorem Evolves.keeps (h : d.Evolves d') : d.Keeps d' := by
  induction h with
  | refl => exact .refl d
  | tail _ hlast ih =>
    obtain ⟨op, hop⟩ := hlast
    exact ih.trans (Operation.keeps hop)

/-- All objects that ever were have different inode numbers. -/
def Unrepeated (d : Disk) : Prop := (d.nodes.map (·.ino)).Nodup

instance (d : Disk) : Decidable d.Unrepeated :=
  inferInstanceAs (Decidable (d.nodes.map (·.ino)).Nodup)

theorem Unrepeated.eq_of_ino_eq (h : d.Unrepeated) {s s' : Serial} {n n' : Node}
    (hn : d.node? s = some n) (hn' : d.node? s' = some n') (hino : n.ino = n'.ino) : s = s' := by
  have hs : (d.nodes.map (·.ino))[s]? = some n.ino := by
    rw [List.getElem?_map]
    exact congrArg (Option.map (·.ino)) hn
  have hs' : (d.nodes.map (·.ino))[s']? = some n.ino := by
    rw [List.getElem?_map, hino]
    exact congrArg (Option.map (·.ino)) hn'
  obtain ⟨hinside, -⟩ := List.getElem?_eq_some_iff.1 hs
  exact (List.getElem?_inj hinside h).1 (hs.trans hs'.symm)

/-- A disk in plain order, watched through handles of directories. -/
structure Watchable (d : Disk) (handles : List Serial) : Prop where
  regular : d.Regular
  apart : d.Apart handles
  tidy : d.Tidy fun s => d.Named s ∨ s ∈ handles
  uncircled : d.Uncircled handles
  directories : ∀ s ∈ handles, d.isDirectory s

theorem Watchable.mono (h : d.Watchable handles) (hsubset : ∀ s ∈ handles', s ∈ handles) :
    d.Watchable handles' where
  regular := h.regular
  apart :=
    { exists_node := fun s hs => h.apart.exists_node s (hsubset s hs)
      eq_of_ino_eq := fun s s' hs hs' => h.apart.eq_of_ino_eq s s' (hs.imp_right (hsubset s))
        (hs'.imp_right (hsubset s')) }
  tidy := fun s n hs => h.tidy s n (hs.imp_right (hsubset s))
  uncircled := h.uncircled.mono hsubset
  directories := fun s hs => h.directories s (hsubset s hs)

/-- After an orderly operation a disk can be watched through handles of the parents as well. -/
theorem Watchable.after (h : d.Watchable handles) (hop : op.apply d = .ok d')
    (horderly : op.Orderly d) (hapart : d'.Apart (handles ++ op.parents d)) :
    d'.Watchable (handles ++ op.parents d) where
  regular := Operation.regular hop h.regular
  apart := hapart
  tidy := by
    intro s n' hs hn'
    rcases Operation.node?_back hop hn' with ⟨n, hn, -, hordinary⟩ | ⟨-, hordinary⟩
    · refine hordinary horderly.marks_eq (h.tidy s n ?_ hn)
      rcases hs with hnamed | hmem
      · refine .inl ((Operation.named_back hop h.regular hnamed).resolve_right fun hnone => ?_)
        rw [hn] at hnone
        cases hnone
      · rcases List.mem_append.1 hmem with hmem | hparent
        · exact .inr hmem
        · exact .inl (Operation.reachable_parent hparent).named
    · exact hordinary
  uncircled := Operation.uncircled hop h.regular horderly h.uncircled
  directories := by
    intro s hs
    have hdir : d.isDirectory s := by
      rcases List.mem_append.1 hs with hmem | hparent
      · exact h.directories s hmem
      · exact Operation.isDirectory_parent hop h.regular hparent
    obtain ⟨n, hn⟩ : ∃ n, d.node? s = some n := ⟨_, List.getElem?_eq_getElem (lt_of_isDirectory hdir)⟩
    exact (Operation.isDirectory_iff hop h.regular hn).2 hdir

end Disk

namespace View

variable {d d' : Disk} {present : Serial → Prop} {v : View} {i : InodeId} {s : Serial}

/-- Numbers that are used once lead nowhere else. -/
theorem fresh_of_unrepeated (hnumbers : d.Unrepeated) (hd : d.Distinguishes present) :
    v.Fresh d present := by
  rintro i o s ⟨a, n, -, hn, -⟩ hs hino
  obtain ⟨m, hm⟩ := hd.exists_node hs
  rw [Disk.inoAt_eq hn, Disk.inoAt_eq hm] at hino
  exact hnumbers.eq_of_ino_eq hn hm hino

/-! ### Disks that change -/

/-- A record goes on to be for its object. -/
theorem Holds.of_keeps (hkeeps : d.Keeps d') (h : v.Holds d i s) : v.Holds d' i s := by
  obtain ⟨a, n, ha, hn, hino, hmode⟩ := h
  obtain ⟨n', hn', hino', hmode', -⟩ := hkeeps s n hn
  exact ⟨a, n', ha, hn', hino.trans hino'.symm, hmode.trans hmode'.symm⟩

theorem Truthful.of_keeps (hkeeps : d.Keeps d') (h : v.Truthful d) : v.Truthful d' := by
  intro i x hi
  obtain ⟨s, hs⟩ := h i x hi
  exact ⟨s, hs.of_keeps hkeeps⟩

theorem Rooted.of_keeps (hkeeps : d.Keeps d') (h : v.Rooted d) : v.Rooted d' := by
  obtain ⟨r, hr, hroot⟩ := h
  exact ⟨r, hr, hroot.of_keeps hkeeps⟩

/-- Objects that are made have no record yet. -/
theorem Truthful.holds_back (h : v.Truthful d) (hkeeps : d.Keeps d') (hd' : d'.Regular)
    (hi : v.Holds d' i s) : v.Holds d i s := by
  obtain ⟨a, n, ha, -⟩ := id hi
  obtain ⟨o, ho⟩ := h i _ ha
  obtain rfl := hi.serial_eq hd' (ho.of_keeps hkeeps)
  exact ho

theorem Agrees.of_child?_eq {name : Bytes} (hkeeps : d.Keeps d')
    (hsame : d'.child? s name = d.child? s name) (h : v.Agrees d i s name) : v.Agrees d' i s name := by
  cases hc : d.child? s name with
  | none => exact (agrees_of_none (hsame.trans hc)).2 ((agrees_of_none hc).1 h)
  | some c =>
    obtain ⟨j, hj, hjc⟩ := (agrees_of_some hc).1 h
    exact (agrees_of_some (hsame.trans hc)).2 ⟨j, hj, hjc.of_keeps hkeeps⟩

theorem Settled.of_child?_eq (hkeeps : d.Keeps d') (hsame : ∀ name, d'.child? s name = d.child? s name)
    (h : v.Settled d s) : v.Settled d' s := by
  obtain ⟨p, hp, hnames⟩ := h
  exact ⟨p, hp.of_keeps hkeeps, fun name => (hnames name).of_child?_eq hkeeps (hsame name)⟩

theorem SettledBut.mono {handles handles' : List Serial} (h : v.SettledBut d handles)
    (hsubset : ∀ s ∈ handles, s ∈ handles') : v.SettledBut d handles' :=
  fun s hs hdir hheld => (h s hs hdir hheld).imp_left (hsubset s)

/-- Only the parents of an operation need attention after it. -/
theorem SettledBut.after {op : Disk.Operation} {handles : List Serial} (h : v.SettledBut d handles)
    (hv : v.Truthful d) (hd : d.Regular) (hop : op.apply d = .ok d') :
    v.SettledBut d' (handles ++ op.parents d) := by
  intro s hs hdir hheld
  have hkeeps := Disk.Operation.keeps hop
  have hd' := Disk.Operation.regular hop hd
  obtain ⟨i, hi⟩ := hheld
  have hold : v.Holds d i s := hv.holds_back hkeeps hd' hi
  obtain ⟨a, n, -, hn, -⟩ := id hold
  have hnamed : d.Named s := by
    refine (Disk.Operation.named_back hop hd hs).resolve_right fun hnone => ?_
    rw [hn] at hnone
    cases hnone
  -- the notifications that come with the operation tell of its parents
  by_cases hparent : s ∈ op.parents d
  · exact .inl (List.mem_append_right _ hparent)
  · rcases h s hnamed ((Disk.Operation.isDirectory_iff hop hd hn).1 hdir) ⟨i, hold⟩ with hmem | hsettled
    · exact .inl (List.mem_append_left _ hmem)
    · exact .inr (hsettled.of_child?_eq hkeeps (Disk.Operation.child?_eq hop hd hs hparent))

end View

namespace Tracker

variable {d d' : Disk} {strict : Bool} {handles handles' : List Serial} {w w' : Tracker Disk}
  {queue batch rest news : List (Notification Serial)}

theorem Abreast.mono (h : Abreast d handles w) (hsubset : ∀ s ∈ handles, s ∈ handles') :
    Abreast d handles' w :=
  ⟨h.sound, h.truthful, h.rooted, h.settled.mono hsubset⟩

/-- The handles that notifications carry. -/
def handlesOf (queue : List (Notification Serial)) : List Serial :=
  queue.filterMap (·.object)

theorem handlesOf_append (queue news : List (Notification Serial)) :
    handlesOf (queue ++ news) = handlesOf queue ++ handlesOf news :=
  List.filterMap_append

theorem forall₂_handlesOf (h : ∀ n ∈ queue, ∃ s, n.TellsOf s) :
    List.Forall₂ Notification.TellsOf queue (handlesOf queue) := by
  induction queue with
  | nil => exact .nil
  | cons n rest ih =>
    obtain ⟨s, hs⟩ := h n List.mem_cons_self
    have hhandles : handlesOf (n :: rest) = s :: handlesOf rest :=
      List.filterMap_cons_some hs.object
    rw [hhandles]
    exact .cons hs (ih fun m hm => h m (List.mem_cons_of_mem n hm))

theorem tellsOf_of_forall₂ (h : List.Forall₂ Notification.TellsOf news handles) :
    ∀ n ∈ news, ∃ s, n.TellsOf s := by
  induction h with
  | nil => exact fun n hn => by cases hn
  | @cons m s _ _ hm _ ih =>
    intro n hn
    rcases List.mem_cons.1 hn with rfl | hn
    · exact ⟨s, hm⟩
    · exact ih n hn

theorem handlesOf_eq (h : List.Forall₂ Notification.TellsOf news handles) :
    handlesOf news = handles := by
  induction h with
  | nil => rfl
  | cons hn _ ih =>
    rw [handlesOf, List.filterMap_cons_some hn.object]
    exact congrArg _ ih

/-- The states that come up while a disk is followed, with the notifications that are queued. It begins
with a first scan that succeeds. Then operations happen on the disk, each of them together with a
notification for every directory that it names as a parent, batches of queued notifications are
processed, and time passes. Objects that have names or open handles never share an inode number; if
scans are not strict, no number is used twice at all. -/
inductive Followed (strict : Bool) : Tracker Disk → List (Notification Serial) → Prop
  | start {d : Disk} {leases : Leases} {clock : Clock} {grace : Nat} {summary : ScanSummary}
    {w : Tracker Disk} :
    d.Evolved → d.Tidy d.Named → d.SingleNamed → d.Apart [] → (strict = true ∨ d.Unrepeated) →
      (baseline Disk.filesystem strict).run ⟨d, leases, clock, { tree := { grace } }⟩ =
        (.ok summary, w) → Followed strict w []
  | operate {w : Tracker Disk} {queue news : List (Notification Serial)} {op : Disk.Operation}
    {d' : Disk} {leases : Leases} :
    Followed strict w queue → op.Orderly w.files → op.apply w.files = .ok d' →
      List.Forall₂ Notification.TellsOf news (op.parents w.files) →
      d'.Apart (handlesOf (queue ++ news)) → (strict = true ∨ d'.Unrepeated) →
      Followed strict { w with files := d', leases } (queue ++ news)
  | batch {w : Tracker Disk} {queue batch rest : List (Notification Serial)} :
    Followed strict w queue → queue.Perm (batch ++ rest) →
      Followed strict ((processBatch Disk.filesystem strict batch).run w).2 rest
  | wait {w : Tracker Disk} {queue : List (Notification Serial)} {clock : Clock} :
    Followed strict w queue → Followed strict { w with clock } queue

/-- The invariant: queued notifications tell of every directory that is not settled. -/
structure Steady (strict : Bool) (w : Tracker Disk) (queue : List (Notification Serial)) : Prop where
  disk : w.files.Watchable (handlesOf queue)
  tree : Abreast w.files (handlesOf queue) w
  numbers : strict = true ∨ w.files.Unrepeated
  tells : ∀ n ∈ queue, ∃ s, n.TellsOf s

/-- The invariant holds after the first scan. -/
theorem steady_baseline {leases : Leases} {clock : Clock} {grace : Nat} {summary : ScanSummary}
    (hd : d.Regular) (htidy : d.Tidy d.Named) (hsingle : d.SingleNamed) (hapart : d.Apart [])
    (hnumbers : strict = true ∨ d.Unrepeated)
    (hrun : (baseline Disk.filesystem strict).run ⟨d, leases, clock, { tree := { grace } }⟩ =
      (.ok summary, w)) (fits : w.tree.Fits) : Steady strict w [] := by
  let start : Tracker Disk := ⟨d, leases, clock, { tree := { grace } }⟩
  -- the tree is empty, so every directory is new to it and no number leads astray
  have hnone : ∀ i, start.tree.view.identity i = none := fun _ => rfl
  have hunheld : ∀ s, ¬start.tree.view.Held d s := by
    rintro s ⟨i, hi⟩
    exact hi.live (hnone i)
  have hready : Ready Disk.filesystem d start := by
    refine ⟨Disk.plain d, Tree.sound_empty grace, fun i x hx => ?_⟩
    rw [hnone] at hx
    cases hx
  have hcalm : start.tree.view.Calm strict d d.Named :=
    ⟨htidy, .inr fun i o s ho _ _ => absurd ⟨i, ho⟩ (hunheld o)⟩
  have hdoes : Does (baseline Disk.filesystem strict) start False fun _ w' =>
      DidRescan strict d d.Named start w' :=
    does_baseline (hapart.distinguishes_named hd) hready hcalm False.elim
  unfold Does at hdoes
  rw [hrun] at hdoes
  have hrescan := hdoes fits
  obtain rfl : w.files = d := hrescan.files
  refine ⟨⟨hd, hapart, ?_, hsingle.uncircled hd, ?_⟩, ⟨hrescan.sound, hrescan.truthful,
    hrescan.rooted, fun s hs hdir hheld => ?_⟩, hnumbers, ?_⟩
  · exact fun s n hs => htidy s n (hs.resolve_right fun hmem => by cases hmem)
  · exact fun s hs => by cases hs
  · exact .inr ((hrescan.explored s hs hdir hheld).resolve_left (hunheld s))
  · exact fun n hn => by cases hn

/-- Operations keep the invariant. -/
theorem Steady.after {op : Disk.Operation} (h : Steady strict w queue) (horderly : op.Orderly w.files)
    (hop : op.apply w.files = .ok d')
    (hnews : List.Forall₂ Notification.TellsOf news (op.parents w.files))
    (hapart : d'.Apart (handlesOf (queue ++ news))) (hnumbers : strict = true ∨ d'.Unrepeated)
    (leases : Leases) : Steady strict { w with files := d', leases } (queue ++ news) := by
  have hhandles : handlesOf (queue ++ news) = handlesOf queue ++ op.parents w.files := by
    rw [handlesOf_append, handlesOf_eq hnews]
  have hkeeps := Disk.Operation.keeps hop
  rw [hhandles] at hapart
  refine ⟨?_, ?_, hnumbers, fun n hn => ?_⟩
  · rw [hhandles]
    exact h.disk.after hop horderly hapart
  · rw [hhandles]
    exact ⟨h.tree.sound, h.tree.truthful.of_keeps hkeeps, h.tree.rooted.of_keeps hkeeps,
      h.tree.settled.after h.tree.truthful h.disk.regular hop⟩
  · rcases List.mem_append.1 hn with hold | hnew
    · exact h.tells n hold
    · exact tellsOf_of_forall₂ hnews n hnew

/-- Batches succeed and keep the invariant. -/
theorem Steady.does_batch (h : Steady strict w queue) (hperm : queue.Perm (batch ++ rest)) :
    Does (processBatch Disk.filesystem strict batch) w True fun _ w' => Steady strict w' rest := by
  have hmem : ∀ s, s ∈ handlesOf queue ↔ s ∈ handlesOf batch ++ handlesOf rest := by
    intro s
    rw [← handlesOf_append]
    exact (hperm.filterMap _).mem_iff
  have hd := h.disk.apart.distinguishes h.disk.regular
  have hcalm : w.tree.view.Calm strict w.files fun s => w.files.Named s ∨ s ∈ handlesOf queue :=
    ⟨h.disk.tidy, h.numbers.imp_right fun hnumbers => View.fresh_of_unrepeated hnumbers hd⟩
  have hbatch : ∀ n ∈ batch, ∃ s, n.TellsOf s :=
    fun n hn => h.tells n (hperm.mem_iff.2 (List.mem_append_left _ hn))
  have hhandles : ∀ s ∈ handlesOf batch, (w.files.Named s ∨ s ∈ handlesOf queue) ∧
      w.files.isDirectory s ∧ w.files.Shallow (w.files.nodes.length + 1) s := by
    intro s hs
    have hqueued : s ∈ handlesOf queue := (hmem s).2 (List.mem_append_left _ hs)
    have hdir := h.disk.directories s hqueued
    exact ⟨.inr hqueued, hdir, h.disk.uncircled.shallow hdir (.inr hqueued)⟩
  refine (does_processBatch hd (Disk.plain w.files) (h.tree.mono fun s hs => (hmem s).1 hs) hcalm
    (forall₂_handlesOf hbatch) hhandles).mono ?_
  rintro _ w' ⟨hfiles, habreast⟩
  refine ⟨?_, ?_, ?_, fun n hn => h.tells n (hperm.mem_iff.2 (List.mem_append_right _ hn))⟩
  · rw [hfiles]
    exact h.disk.mono fun s hs => (hmem s).2 (List.mem_append_right _ hs)
  · rw [hfiles]
    exact habreast
  · rw [hfiles]
    exact h.numbers

/-- The invariant holds in all states, as long as trees fit their slot numbers. -/
theorem Followed.steady (h : Followed strict w queue) (fits : w.tree.Fits) :
    Steady strict w queue := by
  induction h with
  | start hevolved htidy hsingle hapart hnumbers hrun =>
    exact steady_baseline hevolved.regular htidy hsingle hapart hnumbers hrun fits
  | operate _ horderly hop hnews hapart hnumbers ih =>
    exact (ih fits).after horderly hop hnews hapart hnumbers _
  | @batch w queue batch rest _ hperm ih =>
    have hgrows : w.tree.Grows ((processBatch Disk.filesystem strict batch).run w).2.tree :=
      (Call.processBatch batch).grows strict w
    have hrun := (ih (hgrows.fits fits)).does_batch hperm fits
    generalize (processBatch Disk.filesystem strict batch).run w = outcome at hrun
    obtain ⟨result, w'⟩ := outcome
    cases result with
    | ok summary => exact hrun
    | error e => exact absurd trivial hrun
  | wait _ ih =>
    have hsteady := ih fits
    exact ⟨hsteady.disk, ⟨hsteady.tree.sound, hsteady.tree.truthful, hsteady.tree.rooted,
      hsteady.tree.settled⟩, hsteady.numbers, hsteady.tells⟩

/-- While a disk is followed every batch of queued notifications succeeds, and the tree mirrors the disk
whenever no notification is queued. -/
theorem Followed.converges (h : Followed strict w queue) (fits : w.tree.Fits) :
    (∀ batch rest, queue.Perm (batch ++ rest) →
      ((processBatch Disk.filesystem strict batch).run w).2.tree.Fits →
        ∃ summary, ((processBatch Disk.filesystem strict batch).run w).1 = .ok summary) ∧
    (queue = [] → ∃ recordOf, w.tree.Mirrors w.files recordOf) := by
  have hsteady := h.steady fits
  constructor
  · intro batch rest hperm hfits
    have hrun := hsteady.does_batch hperm hfits
    generalize (processBatch Disk.filesystem strict batch).run w = outcome at hrun
    obtain ⟨result, w'⟩ := outcome
    cases result with
    | ok summary => exact ⟨summary, rfl⟩
    | error e => exact absurd trivial hrun
  · rintro rfl
    refine hsteady.tree.sound.exists_mirrors hsteady.disk.regular hsteady.tree.rooted ?_
    intro s hs hheld
    have hdir : w.files.isDirectory s := by
      rcases Relation.ReflTransGen.cases_tail hs with rfl | ⟨b, -, -, hdir⟩
      · obtain ⟨n, hn, hchildren⟩ := hsteady.disk.regular.root_directory
        exact (Disk.isDirectory_iff_of_node? hn).2 hchildren
      · exact hdir
    refine (hsteady.tree.settled s hs.named hdir hheld).resolve_left fun hmem => ?_
    cases hmem

/-- A disk with an empty directory `b` and a directory `a` that contains a file. -/
def twoDirectories : Disk :=
  ((Disk.empty.perform (.mkdir (.ofString "/a"))).perform (.create (.ofString "/a/f"))).perform
    (.mkdir (.ofString "/b"))

theorem evolved_twoDirectories : twoDirectories.Evolved :=
  ((Disk.Evolved.perform .refl _).perform _).perform _

/-- The tracker after its first scan. -/
def scannedDirectories : Tracker Disk :=
  ((baseline Disk.filesystem false).run ⟨twoDirectories, {}, fun _ => 0, { tree := {} }⟩).2

theorem followed_scannedDirectories : Followed false scannedDirectories [] := by
  have hregular := evolved_twoDirectories.regular
  have htidy : twoDirectories.Tidy twoDirectories.Named :=
    Disk.tidy_of_ordinary (by decide +kernel)
  have hsingle : twoDirectories.SingleNamed := Disk.singleNamed_of_links (by decide +kernel)
  have hapart : twoDirectories.Apart [] :=
    hregular.apart (by decide +kernel) fun s hs => by cases hs
  have hnumbers : twoDirectories.Unrepeated := by decide +kernel
  have hrun : (baseline Disk.filesystem false).run ⟨twoDirectories, {}, fun _ => 0, { tree := {} }⟩ =
      (.ok { directories := 3, linked := 3 }, scannedDirectories) :=
    Prod.ext (by decide +kernel) rfl
  exact .start evolved_twoDirectories htidy hsingle hapart (.inr hnumbers) hrun

def modified (s : Serial) : Notification Serial := ⟨recordVersion, modifyDirectoryBit, some s⟩

theorem tellsOf_modified (s : Serial) : (modified s).TellsOf s := by
  refine ⟨rfl, ?_, rfl⟩
  have hbit : (modified s).mask &&& modifyDirectoryBit ≠ 0 := by
    show modifyDirectoryBit &&& modifyDirectoryBit ≠ 0
    decide
  rw [Notification.kind, if_pos ⟨hbit, rfl⟩]

/-- The directory `a` is moved into `b`. -/
def moveInto : Disk.Operation := .rename (.ofString "/a") (.ofString "/b/a")

/-- The tracker after `a` has been moved into `b` and the notification about the root has been processed:
the record of `a` has been reclaimed, with all that was in it. -/
def halfMoved : Tracker Disk :=
  ((processBatch Disk.filesystem false [modified 0]).run
    { scannedDirectories with files := twoDirectories.perform moveInto }).2

/-- The tracker after the notification about `b` has been processed, too. -/
def allMoved : Tracker Disk :=
  ((processBatch Disk.filesystem false [modified 3]).run halfMoved).2

theorem orderly_moveInto : moveInto.Orderly twoDirectories := by
  have hsource : twoDirectories.split (.ofString "/a") = .ok (0, .ofString "a") := by decide +kernel
  have htarget : twoDirectories.split (.ofString "/b/a") = .ok (3, .ofString "a") := by
    decide +kernel
  have hs : twoDirectories.child? 0 (.ofString "a") = some 1 := by decide +kernel
  exact Disk.Operation.orderly_rename hsource hs htarget (by decide) (by decide +kernel)

theorem followed_allMoved : Followed false allMoved [] := by
  have hop : moveInto.apply scannedDirectories.files = .ok (twoDirectories.perform moveInto) := by
    decide +kernel
  have hfiles : scannedDirectories.files = twoDirectories := by decide +kernel
  have horderly : moveInto.Orderly scannedDirectories.files := hfiles.symm ▸ orderly_moveInto
  have hparents : moveInto.parents scannedDirectories.files = [0, 3] := by decide +kernel
  have hnews : List.Forall₂ Notification.TellsOf [modified 0, modified 3]
      (moveInto.parents scannedDirectories.files) := by
    rw [hparents]
    exact .cons (tellsOf_modified 0) (.cons (tellsOf_modified 3) .nil)
  have hregular : (twoDirectories.perform moveInto).Regular :=
    (evolved_twoDirectories.perform moveInto).regular
  have hapart : (twoDirectories.perform moveInto).Apart (handlesOf [modified 0, modified 3]) := by
    refine hregular.apart (by decide +kernel) fun s hs => ?_
    rcases List.mem_cons.1 hs with rfl | hs
    · exact .inl rfl
    · obtain rfl := List.mem_singleton.1 hs
      exact .inr ⟨0, .ofString "b", by decide +kernel⟩
  have hnumbers : (twoDirectories.perform moveInto).Unrepeated := by decide +kernel
  have hmoved : Followed false { scannedDirectories with files := twoDirectories.perform moveInto }
      [modified 0, modified 3] :=
    .operate followed_scannedDirectories horderly hop hnews hapart (.inr hnumbers)
  exact .batch (.batch hmoved (.refl _)) (.refl _)

theorem converges_allMoved : allMoved.tree.Fits ∧ ∃ recordOf,
    allMoved.tree.Mirrors allMoved.files recordOf := by
  have fits : allMoved.tree.Fits := by decide +kernel
  exact ⟨fits, (Followed.converges followed_allMoved fits).2 rfl⟩

end Tracker

end TreeWatch

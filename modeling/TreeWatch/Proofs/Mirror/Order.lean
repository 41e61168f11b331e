import TreeWatch.Proofs.Mirror.Convergence

/-!
# The order of notifications

A batch tells of all directories that are new on the disk or whose names lead elsewhere than they did
when the tree was first made. In whatever order its notifications are handled, the tree comes to show the
same, unless a name would be taken for unchanged although it leads to the record of an earlier object
with the same inode number. Objects may have tokens that are too large, and directories may list what is
not there.

## Main definitions

- `Tree.inoAt?` : a tree as a map from paths to inode numbers
- `View.Reliable` : no name is taken for unchanged by mistake
- `View.Tended` : names are right as far as scans deal with them
- `View.Outcome` : what a tree shows after notifications have been handled

## Main results

- `Tracker.does_processBatch_outcome` : a batch has such an outcome
- `View.Outcome.related` : two outcomes show the same
- `Tracker.processBatch_perm` : the order of notifications does not matter
- `Tracker.processBatch_order_matters` : it does if a name is taken for unchanged by mistake

## Design notes

Names that scans pass over stay as they are, right or wrong, and may lead to records of objects that are
gone. So two outcomes are compared with each other and not with the disk: records that stand for the same
object lead to such records again. A record of an object that is gone is replaced in both or in none,
since the same objects get records in both. Reclaiming comes last and takes nothing that a path leads to.
-/

namespace TreeWatch

namespace Tree

/-- The record at the end of a way down from a record. -/
def follow (t : Tree) (i : InodeId) : List Bytes → Option InodeId
  | [] => some i
  | name :: rest => (t.child? i name).bind fun c => t.follow c rest

/-- The inode number at a path below the root. -/
def inoAt? (t : Tree) (path : List Bytes) : Option UInt64 :=
  ((t.root.bind fun r => t.follow r path).bind t.identity?).map (·.1.ino)

end Tree

namespace View

variable {d : Disk} {present : Serial → Prop} {strict : Bool} {v v' : View} {s : Serial} {name : Bytes}

/-- The names in the record of an object are right as far as scans deal with them. -/
def Tended (v : View) (d : Disk) (s : Serial) : Prop :=
  ∀ p, v.Holds d p s → ∀ name, d.Tends s name → v.Agrees d p s name

/-- No name is one that stands for a directory itself or the one above it. -/
def Proper (v : View) : Prop := ∀ p name c, v.child p name = some c → isPseudoName name = false

/-- Scans are strict, or none of the names that they deal with leads to the record of an earlier object
with the inode number of the one that it leads to on the disk. -/
def Reliable (strict : Bool) (d : Disk) (v : View) : Prop :=
  strict = true ∨ ∀ p s name, d.Tends s name → ¬v.Stale d p s name

theorem Updates.proper (hd : d.Distinguishes present) (h : Updates d present v v') (hv : v.Proper) :
    v'.Proper := by
  intro p name c hc
  rcases Updates.child hd h hc with ⟨hold, -⟩ | ⟨s, o, -, -, -, ho, -⟩
  · exact hv p name c hold
  · exact hd.regular.bound_proper ho

/-- A scanned directory is tended. -/
theorem Scanned.agrees (hd : d.Regular) (h : Scanned strict d v v' s) (hv : v.Reliable strict d)
    (hproper : v'.Proper) (htends : d.Tends s name) :
    ∃ p, v'.Holds d p s ∧ v'.Agrees d p s name := by
  obtain ⟨p, hp, hnames, -⟩ := h
  refine ⟨p, hp.holds, ?_⟩
  rcases htends.2 with hpseudo | hskips
  · -- such names are neither on the disk nor in the tree
    have hdisk : d.child? s name = none := by
      refine Option.eq_none_iff_forall_ne_some.2 fun o ho => ?_
      rw [hd.bound_proper ho] at hpseudo
      cases hpseudo
    refine (agrees_of_none hdisk).2 (Option.eq_none_iff_forall_ne_some.2 fun c hc => ?_)
    rw [hproper p name c hc] at hpseudo
    cases hpseudo
  · rcases hnames name hskips with hagrees | ⟨hnot, hstale, -⟩
    · exact hagrees
    · rcases hv with hstrict | hreliable
      · rw [hnot] at hstrict
        cases hstrict
      · exact absurd hstale (hreliable p s name htends)

end View

/-! ### Trees made from nothing -/

/-- A tree made by scanning all that is below the root, as seen from the disk of that time. Every name in
it is one that scans deal with. -/
structure Tree.Founded (d : Disk) (t : Tree) : Prop where
  sound : t.Sound
  truthful : t.view.Truthful d
  rooted : t.view.Rooted d
  proper : t.view.Proper
  named : ∀ {i s}, t.view.Holds d i s → d.Named s
  tended : ∀ {s}, d.Named s → t.view.Tended d s
  tends : ∀ {p s name c}, t.view.Holds d p s → t.view.child p name = some c → d.Tends s name

namespace Tree

open View

variable {d d' : Disk} {present : Serial → Prop} {strict : Bool} {v : View} {t t' : Tree} {s : Serial}

/-- What has been tended stays so, what has been scanned has become so, and nothing else is left. -/
theorem Sound.tended (h : t.Sound) (hd : d.Distinguishes present) (hv : v.Reliable strict d)
    (hupdates : Updates d present v t.view) (hexplored : Explored strict d present v t.view)
    (hproper : t.view.Proper) (hs : present s)
    (hbefore : d.isDirectory s → v.Held d s →
      v.Tended d s ∨ (¬d.Oversized s → Scanned strict d v t.view s)) : t.view.Tended d s := by
  intro p hp name htends
  have hscanned : Scanned strict d v t.view s → t.view.Agrees d p s name := by
    intro hscan
    obtain ⟨q, hq, hagrees⟩ := hscan.agrees hd.regular hv hproper htends
    obtain rfl := h.eq_of_holds hp hq
    exact hagrees
  by_cases hdir : d.isDirectory s
  · rcases hexplored s hs hdir ⟨p, hp⟩ with hold | hnew
    · rcases hbefore hdir hold with htended | hscan
      · obtain ⟨i, hi⟩ := hold
        obtain rfl := h.eq_of_holds hp (Updates.holds hd.regular hupdates hs hi)
        exact Updates.agrees hd hupdates hs hi (htended p hi name htends)
      · exact hscanned (hscan htends.1)
    · exact hscanned hnew
  · obtain ⟨htree, hdisk⟩ := h.child?_eq_none_of_not_directory hd.regular hp hdir name
    exact (agrees_of_none hdisk).2 htree

theorem Pruned.tended (h : Pruned t t') (ht : t.view.Tended d s) : t'.view.Tended d s :=
  fun p hp name htends => h.agrees hp (ht p (h.holds_back hp) name htends)

theorem Pruned.proper (h : Pruned t t') (ht : t.view.Proper) : t'.view.Proper :=
  fun p name c hc => ht p name c (h.child?_back hc)

theorem Founded.of_pruned (h : Founded d t) (hpruned : Pruned t t') : Founded d t' where
  sound := hpruned.sound
  truthful := hpruned.truthful h.truthful
  rooted := hpruned.rooted h.rooted
  proper := hpruned.proper h.proper
  named hi := h.named (hpruned.holds_back hi)
  tended hs := hpruned.tended (h.tended hs)
  tends hp hc := h.tends (hpruned.holds_back hp) (hpruned.child?_back hc)

/-- A directory that keeps its names stays tended while the disk changes. Names that scans did not deal
with at first are not in the tree. -/
theorem Founded.tended_of_keeps (h : Founded d t) (hkeeps : d.Keeps d') (hd' : d'.Regular)
    (hsame : ∀ name, d'.child? s name = d.child? s name) : t.view.Tended d' s := by
  intro p hp name htends
  have hold : t.view.Holds d p s := h.truthful.holds_back hkeeps hd' hp
  by_cases hbefore : d.Tends s name
  · exact (h.tended (h.named hold) p hold name hbefore).of_child?_eq hkeeps (hsame name)
  · have htree : t.view.child p name = none :=
      Option.eq_none_iff_forall_ne_some.2 fun c hc => hbefore (h.tends hold hc)
    have hdisk : d'.child? s name = none := by
      refine Option.eq_none_iff_forall_ne_some.2 fun o ho => hbefore ?_
      -- what is small enough now was so before
      have hsize : ¬d'.Oversized o := by
        rcases htends.2 with hpseudo | hskips
        · rw [hd'.bound_proper ho] at hpseudo
          cases hpseudo
        · rwa [Disk.Skips, ho] at hskips
      refine Disk.tends_of_child? (fun hs => htends.1 (hkeeps.oversized hs)) ((hsame name).symm.trans ho)
        fun ho => hsize (hkeeps.oversized ho)
    exact (agrees_of_none hdisk).2 htree

end Tree

/-! ### Two outcomes -/

namespace View

variable {d : Disk} {start : Serial → Prop} {v v' v₁ v₂ : View} {i j : InodeId} {s : Serial}
  {name : Bytes}

/-- What a tree shows after notifications have been handled, compared with what it showed before: names
that scans deal with are right, and the objects that have records are those that scans come upon which
begin with the given ones. -/
structure Outcome (d : Disk) (start : Serial → Prop) (v v' : View) : Prop where
  updates : Updates d d.Named v v'
  rooted : v'.Rooted d
  tended : ∀ s, d.Named s → v'.Tended d s
  met : ∀ s, v'.Held d s → d.Met d.Named start s
  held : ∀ s, start s → d.Named s → v'.Held d s
  eq_of_ino_eq : ∀ {i j s o}, v'.Holds d i s → v'.Holds d j o → d.inoAt s = d.inoAt o → i = j
  leads : ∀ {p name c}, v'.child p name = some c → ∃ o, v'.Holds d c o

/-- The records stand for the same object. -/
def SameObject (d : Disk) (v₁ v₂ : View) (i j : InodeId) : Prop := ∃ s, v₁.Holds d i s ∧ v₂.Holds d j s

/-- What scans come upon has a record. -/
theorem Outcome.held_of_met (h : Outcome d start v v')
    (hmet : d.Met d.Named start s) (hs : d.Named s) : v'.Held d s := by
  induction hmet with
  | start hstart => exact h.held _ hstart hs
  | name _ hnamed htends hc ih =>
    obtain ⟨p, hp⟩ := ih hnamed
    obtain ⟨j, -, hj⟩ := (agrees_of_some hc).1 (h.tended _ hnamed p hp _ htends)
    exact ⟨j, hj⟩

section

variable (hd : d.Distinguishes d.Named)
  (hunique : ∀ {i j s}, v.Holds d i s → v.Holds d j s → i = j)
include hd hunique

/-- A record stays the only one of its object. -/
theorem Outcome.eq_of_holds (h : Outcome d start v v') (hi : v.Holds d i s) (hj : v'.Holds d j s) :
    i = j := by
  rcases Updates.holds_back hd.regular h.updates hj with hold | hs
  · exact hunique hi hold
  · exact h.eq_of_ino_eq (Updates.holds hd.regular h.updates hs hi) hj rfl

omit hunique in
/-- A record that one outcome leaves is left by the other. -/
theorem Outcome.holds_of_holds (h₁ : Outcome d start v v₁) (h₂ : Outcome d start v v₂)
    (hi : v.Holds d i s) (hi₁ : v₁.Holds d i s) : v₂.Holds d i s := by
  by_cases hs : d.Named s
  · exact Updates.holds hd.regular h₂.updates hs hi
  · refine (Updates.holds_or_replaced hd.regular h₂.updates hi).resolve_right ?_
    rintro ⟨o, j, ho, hj, hino⟩
    -- the object that has taken the number has a record in the other outcome, too
    obtain ⟨k, hk⟩ := h₁.held_of_met (h₂.met o ⟨j, hj⟩) ho
    obtain rfl := h₁.eq_of_ino_eq hk hi₁ hino
    exact hs (hk.serial_eq hd.regular hi₁ ▸ ho)

/-- A name that scans do not deal with leads to the same record in both outcomes. -/
theorem Outcome.child_of_untended (h₁ : Outcome d start v v₁) (h₂ : Outcome d start v v₂)
    (hi : v₁.Holds d i s) (hj : v₂.Holds d j s) (hname : ¬(d.Named s ∧ d.Tends s name)) {c : InodeId}
    (hc : v₁.child i name = some c) : v₂.child j name = some c ∧ SameObject d v₁ v₂ c c := by
  obtain ⟨o, ho⟩ := h₁.leads hc
  rcases Updates.child hd h₁.updates hc with ⟨hold, hback⟩ | ⟨s', -, hi', hs', htends, -⟩
  · have hi₀ : v.Holds d i s := hback i (.inl rfl) s hi
    have ho₀ : v.Holds d c o := hback c (.inr rfl) o ho
    have ho₂ : v₂.Holds d c o := h₁.holds_of_holds hd h₂ ho₀ ho
    obtain rfl := h₂.eq_of_holds hd hunique hi₀ hj
    exact ⟨Updates.untended hd.regular h₂.updates hname hi₀ ho₀ hj ho₂ hold, o, ho, ho₂⟩
  · exact absurd (hi.serial_eq hd.regular hi' ▸ ⟨hs', htends⟩) hname

/-- From records that stand for the same object, names lead to such records again. -/
theorem Outcome.related (h₁ : Outcome d start v v₁) (h₂ : Outcome d start v v₂)
    (h : SameObject d v₁ v₂ i j) (name : Bytes) :
    Option.Rel (SameObject d v₁ v₂) (v₁.child i name) (v₂.child j name) := by
  obtain ⟨s, hi, hj⟩ := h
  by_cases hname : d.Named s ∧ d.Tends s name
  · have hleft := h₁.tended s hname.1 i hi name hname.2
    have hright := h₂.tended s hname.1 j hj name hname.2
    cases hdisk : d.child? s name with
    | none =>
      rw [(agrees_of_none hdisk).1 hleft, (agrees_of_none hdisk).1 hright]
      exact .none
    | some o =>
      obtain ⟨i', hi', hio⟩ := (agrees_of_some hdisk).1 hleft
      obtain ⟨j', hj', hjo⟩ := (agrees_of_some hdisk).1 hright
      rw [hi', hj']
      exact .some ⟨o, hio, hjo⟩
  · cases hc : v₁.child i name with
    | some c =>
      obtain ⟨hc₂, hsame⟩ := h₁.child_of_untended hd hunique h₂ hi hj hname hc
      rw [hc₂]
      exact .some hsame
    | none =>
      cases hc₂ : v₂.child j name with
      | none => exact .none
      | some c =>
        obtain ⟨hc₁, -⟩ := h₂.child_of_untended hd hunique h₁ hj hi hname hc₂
        rw [hc] at hc₁
        cases hc₁

end

end View

namespace Tree

open View

variable {d : Disk} {start : Serial → Prop} {v : View} {t t' t₁ t₂ : Tree} {i j : InodeId}

theorem follow_related (hd : d.Distinguishes d.Named)
    (hunique : ∀ {i j s}, v.Holds d i s → v.Holds d j s → i = j) (h₁ : Outcome d start v t₁.view)
    (h₂ : Outcome d start v t₂.view) (path : List Bytes) (h : SameObject d t₁.view t₂.view i j) :
    Option.Rel (SameObject d t₁.view t₂.view) (t₁.follow i path) (t₂.follow j path) := by
  induction path generalizing i j with
  | nil => exact .some h
  | cons name rest ih =>
    have hnext := h₁.related hd hunique h₂ h name
    rw [view_child, view_child] at hnext
    unfold follow
    generalize t₁.child? i name = next₁ at hnext
    generalize t₂.child? j name = next₂ at hnext
    cases hnext with
    | none => exact .none
    | some hsame => exact ih hsame

/-- Two outcomes are the same maps from paths to inode numbers. -/
theorem inoAt?_eq_of_outcome (hd : d.Distinguishes d.Named)
    (hunique : ∀ {i j s}, v.Holds d i s → v.Holds d j s → i = j) (h₁ : Outcome d start v t₁.view)
    (h₂ : Outcome d start v t₂.view) (path : List Bytes) : t₁.inoAt? path = t₂.inoAt? path := by
  obtain ⟨r₁, hr₁, hroot₁⟩ := h₁.rooted
  obtain ⟨r₂, hr₂, hroot₂⟩ := h₂.rooted
  rw [view_root] at hr₁ hr₂
  have hends := follow_related hd hunique h₁ h₂ path ⟨_, hroot₁, hroot₂⟩
  unfold inoAt?
  rw [hr₁, hr₂, Option.bind_some, Option.bind_some]
  generalize t₁.follow r₁ path = end₁ at hends
  generalize t₂.follow r₂ path = end₂ at hends
  cases hends with
  | none => rfl
  | @some i j hsame =>
    obtain ⟨s, ⟨a, n, ha, hn, hino, -⟩, a', n', ha', hn', hino', -⟩ := hsame
    rw [view_identity] at ha ha'
    rw [hn] at hn'
    cases hn'
    rw [Option.bind_some, Option.bind_some, ha, ha', Option.map_some, Option.map_some, hino, hino']

/-- Reclaiming takes nothing that ways down from a record lead to. -/
theorem Pruned.follow_eq (h : Pruned t t') (path : List Bytes) (hi : t'.identity? i ≠ none) :
    t'.follow i path = t.follow i path ∧ ∀ j, t'.follow i path = some j → t'.identity? j ≠ none := by
  induction path generalizing i with
  | nil =>
    refine ⟨rfl, fun j hj => ?_⟩
    cases hj
    exact hi
  | cons name rest ih =>
    have hsame := (h.unchanged hi).2 name
    unfold follow
    rw [← hsame]
    cases hc : t'.child? i name with
    | none => exact ⟨rfl, fun j hj => by cases hj⟩
    | some c => exact ih (h.sound.live_of_child?_eq_some hc).2

theorem Pruned.inoAt?_eq (h : Pruned t t') (hrooted : t.view.Rooted d) (path : List Bytes) :
    t'.inoAt? path = t.inoAt? path := by
  obtain ⟨r, hr, hholds⟩ := hrooted
  rw [view_root] at hr
  have hlive : t'.identity? r ≠ none := by
    rw [h.root_kept hr]
    exact hholds.live
  obtain ⟨hfollow, hends⟩ := h.follow_eq path hlive
  unfold inoAt?
  rw [h.root_eq, hr, Option.bind_some, Option.bind_some, ← hfollow]
  cases hend : t'.follow r path with
  | none => rfl
  | some j => rw [Option.bind_some, Option.bind_some, (h.unchanged (hends j hend)).1]

theorem Sound.eq_of_holds_of_ino_eq (h : t.Sound) {s o : Serial} (hi : t.view.Holds d i s)
    (hj : t.view.Holds d j o) (hino : d.inoAt s = d.inoAt o) : i = j := by
  obtain ⟨a, -, ha, -⟩ := id hi
  obtain ⟨a', -, ha', -⟩ := id hj
  have hleft := h.lookupIno_eq_some_iff.2 ⟨_, ha, (hi.ino_eq ha).trans hino⟩
  have hright := h.lookupIno_eq_some_iff.2 ⟨_, ha', hj.ino_eq ha'⟩
  rw [hleft] at hright
  exact Option.some.inj hright

end Tree

/-! ### Batches -/

namespace Tracker

open View

variable {σ : Type} {fs : Filesystem σ Serial} {d d₀ d₁ : Disk} {strict : Bool} {handles : List Serial}
  {batch batch' : List (Notification Serial)} {leases leases' : Leases} {clock : Clock} {grace : Nat}
  {summary : ScanSummary}

/-- Scanning from the root makes such a tree if there was nothing in it. -/
theorem DidScan.founded {w w' : Tracker σ} (hd : d.Distinguishes d.Named)
    (hscan : DidScan strict d d.Named true Disk.rootSerial w w') (hrooted : w'.tree.view.Rooted d)
    (hnone : ∀ i, w.tree.view.identity i = none) (hunnamed : ∀ p name, w.tree.view.child p name = none) :
    w'.tree.Founded d := by
  have hunheld : ∀ s, ¬w.tree.view.Held d s := by
    rintro s ⟨i, hi⟩
    exact hi.live (hnone i)
  have htruthful : w.tree.view.Truthful d := by
    intro i x hx
    rw [hnone] at hx
    cases hx
  have hproper : w'.tree.view.Proper := by
    refine Updates.proper hd hscan.updates fun p name c hc => ?_
    rw [hunnamed] at hc
    cases hc
  refine ⟨hscan.sound, Updates.truthful hscan.updates htruthful, hrooted, hproper, fun {i s} hi => ?_,
    fun {s} hs => ?_, fun {p s name c} hp hc => ?_⟩
  · exact (Updates.holds_back hd.regular hscan.updates hi).resolve_left fun hold => hunheld s ⟨i, hold⟩
  · have hreliable : w.tree.view.Reliable strict d :=
      .inr fun p s name _ hstale => hunheld s ⟨p, hstale.1⟩
    exact hscan.sound.tended hd hreliable hscan.updates hscan.explored hproper hs
      fun _ hheld => absurd hheld (hunheld s)
  · rcases Updates.child hd hscan.updates hc with ⟨hold, -⟩ | ⟨s', o, hp', -, htends, -⟩
    · rw [hunnamed] at hold
      cases hold
    · exact hp.serial_eq hd.regular hp' ▸ htends

/-- So does the first scan. -/
theorem founded_baseline {w : Tracker Disk} (hd : d.Regular) (hapart : d.Apart [])
    (hrun : (baseline Disk.filesystem strict).run ⟨d, leases, clock, { tree := { grace } }⟩ =
      (.ok summary, w)) (fits : w.tree.Fits) : w.tree.Founded d := by
  let start : Tracker Disk := ⟨d, leases, clock, { tree := { grace } }⟩
  have hd' := hapart.distinguishes_named hd
  have hready : Ready Disk.filesystem d start := by
    refine ⟨Disk.plain d, Tree.sound_empty grace, fun i x hx => ?_⟩
    cases hx
  have hrescan : Does (rescanRoots Disk.filesystem strict) start False fun _ w' =>
      ∃ w₁, DidScan strict d d.Named true Disk.rootSerial start w₁ ∧ w₁.tree.view.Rooted d ∧
        w'.files = start.files ∧ Tree.Pruned w₁.tree w'.tree :=
    does_rescanRoots_pruned hd' hready False.elim
  have hdoes : Does (baseline Disk.filesystem strict) start False fun _ w => w.tree.Founded d := by
    refine does_baseline_of (hrescan.mono ?_) fun _ _ _ h => h
    rintro _ w' ⟨w₁, hscan, hrooted, -, hpruned⟩
    exact (hscan.founded hd' hrooted (fun _ => rfl) fun _ _ => rfl).of_pruned hpruned
  unfold Does at hdoes
  rw [hrun] at hdoes
  exact hdoes fits

/-- A batch that tells of all directories that are not tended has an outcome, and then records are
reclaimed. -/
theorem does_processBatch_outcome {w : Tracker σ} (hd : d.Distinguishes d.Named) (hw : Ready fs d w)
    (hrooted : w.tree.view.Rooted d) (hproper : w.tree.view.Proper)
    (hreliable : w.tree.view.Reliable strict d) (hlistable : d.Listable d.Named)
    (hbatch : List.Forall₂ Notification.TellsOf batch handles)
    (hhandles : ∀ s ∈ handles, d.Named s ∧ d.isDirectory s ∧ d.Shallow (d.nodes.length + 1) s)
    (hothers : ∀ s, d.Named s → d.isDirectory s → w.tree.view.Held d s → s ∉ handles →
      w.tree.view.Tended d s) :
    Does (processBatch fs strict batch) w True fun _ w' => ∃ w₁ : Tracker σ,
      Outcome d (fun s => w.tree.view.Held d s ∨ s ∈ handles ∧ ¬d.Oversized s) w.tree.view
        w₁.tree.view ∧ Tree.Pruned w₁.tree w'.tree := by
  refine (does_processBatch_pruned hd hw hlistable hbatch hhandles).mono ?_
  rintro _ w' ⟨w₁, h, -, hpruned⟩
  have htruthful := Updates.truthful h.updates hw.truthful
  refine ⟨w₁, ⟨h.updates, Updates.rooted hd h.updates hrooted, fun s hs => ?_, h.met,
    fun s hstart hs => ?_, fun hi hj hino => h.sound.eq_of_holds_of_ino_eq hi hj hino,
    fun {p name c} hc => ?_⟩, hpruned⟩
  · refine h.sound.tended hd hreliable h.updates h.explored (Updates.proper hd h.updates hproper) hs
      fun hdir hheld => ?_
    by_cases hmem : s ∈ handles
    · exact .inr (h.scanned s hmem)
    · exact .inl (hothers s hs hdir hheld hmem)
  · rcases hstart with ⟨i, hi⟩ | ⟨hmem, hsize⟩
    · exact ⟨i, Updates.holds hd.regular h.updates hs hi⟩
    · obtain ⟨p, hp, -⟩ := h.scanned s hmem hsize
      exact ⟨p, hp.holds⟩
  · have hlive := (h.sound.live_of_child?_eq_some hc).2
    obtain ⟨x, hx⟩ := Option.ne_none_iff_exists'.1 hlive
    exact htruthful c x hx

/-- The directories that are new on the disk, or have other names inside, are among the given ones. -/
structure Covers (d₀ d₁ : Disk) (handles : List Serial) : Prop where
  directories : ∀ s ∈ handles, d₁.Named s ∧ d₁.isDirectory s
  changed : ∀ s, d₁.Named s → d₁.isDirectory s →
    (d₀.node? s = none ∨ ∃ name, d₁.child? s name ≠ d₀.child? s name) → s ∈ handles

/-- So it is after the first scan and operations on the disk. -/
theorem does_processBatch_covering {w : Tracker Disk} (hfounded : w.tree.Founded d₀)
    (hevolves : d₀.Evolves d₁) (hregular : d₁.Regular) (hapart : d₁.Apart [])
    (hlistable : d₁.Listable d₁.Named) (hacyclic : d₁.Acyclic) (hcovers : Covers d₀ d₁ handles)
    (hreliable : w.tree.view.Reliable strict d₁)
    (hbatch : List.Forall₂ Notification.TellsOf batch handles) (leases : Leases) :
    Does (processBatch Disk.filesystem strict batch) { w with files := d₁, leases } True fun _ w' =>
      ∃ w₁ : Tracker Disk, Outcome d₁ (fun s => w.tree.view.Held d₁ s ∨ s ∈ handles ∧ ¬d₁.Oversized s)
        w.tree.view w₁.tree.view ∧ Tree.Pruned w₁.tree w'.tree := by
  have hkeeps := hevolves.keeps
  have hready : Ready Disk.filesystem d₁ { w with files := d₁, leases } :=
    ⟨Disk.plain d₁, hfounded.sound, hfounded.truthful.of_keeps hkeeps⟩
  refine does_processBatch_outcome (hapart.distinguishes_named hregular) hready
    (hfounded.rooted.of_keeps hkeeps) hfounded.proper hreliable hlistable hbatch (fun s hs => ?_)
    fun s hs hdir _ hmem => hfounded.tended_of_keeps hkeeps hregular fun name => ?_
  · obtain ⟨hnamed, hdir⟩ := hcovers.directories s hs
    exact ⟨hnamed, hdir, Disk.shallow_of_acyclic hdir fun c _ => hacyclic c⟩
  · exact by_contra fun hne => hmem (hcovers.changed s hs hdir (.inr ⟨name, hne⟩))

/-- The order of the notifications in a batch does not matter. A tree has been made by a first scan, then
operations have happened on the disk, and a batch tells of all directories that are new or that have
other names inside. If scans are strict, or if no name leads to the record of an earlier object with the
inode number of the object that has the name now, then the batch succeeds in any order, and the tree
becomes the same map from paths to inode numbers. -/
theorem processBatch_perm {w : Tracker Disk} (hevolved : d₀.Evolved) (hapart₀ : d₀.Apart [])
    (hbaseline : (baseline Disk.filesystem strict).run ⟨d₀, leases, clock, { tree := { grace } }⟩ =
      (.ok summary, w)) (hevolves : d₀.Evolves d₁) (hapart : d₁.Apart [])
    (hlistable : d₁.Listable d₁.Named) (hacyclic : d₁.Acyclic) (hcovers : Covers d₀ d₁ handles)
    (hreliable : w.tree.view.Reliable strict d₁)
    (hbatch : List.Forall₂ Notification.TellsOf batch handles) (hperm : batch.Perm batch')
    (fits : ((processBatch Disk.filesystem strict batch).run
      { w with files := d₁, leases := leases' }).2.tree.Fits)
    (fits' : ((processBatch Disk.filesystem strict batch').run
      { w with files := d₁, leases := leases' }).2.tree.Fits) :
    ∃ summary₁ w₁ summary₂ w₂,
      (processBatch Disk.filesystem strict batch).run { w with files := d₁, leases := leases' } =
        (.ok summary₁, w₁) ∧
      (processBatch Disk.filesystem strict batch').run { w with files := d₁, leases := leases' } =
        (.ok summary₂, w₂) ∧
      ∀ path, w₁.tree.inoAt? path = w₂.tree.inoAt? path := by
  have hgrows : w.tree.Grows ((processBatch Disk.filesystem strict batch).run
      { w with files := d₁, leases := leases' }).2.tree :=
    (Call.processBatch batch).grows strict { w with files := d₁, leases := leases' }
  have hfounded := founded_baseline hevolved.regular hapart₀ hbaseline (hgrows.fits fits)
  have hregular := (hevolved.evolves hevolves).regular
  -- in another order the batch tells of the same directories
  have hbatch' : List.Forall₂ Notification.TellsOf batch' (handlesOf batch') :=
    forall₂_handlesOf fun n hn => tellsOf_of_forall₂ hbatch n (hperm.mem_iff.2 hn)
  have hmem : ∀ s, s ∈ handlesOf batch' ↔ s ∈ handles := by
    intro s
    rw [← handlesOf_eq hbatch]
    exact (hperm.filterMap _).mem_iff.symm
  have hcovers' : Covers d₀ d₁ (handlesOf batch') :=
    ⟨fun s hs => hcovers.directories s ((hmem s).1 hs),
      fun s hs hdir hchanged => (hmem s).2 (hcovers.changed s hs hdir hchanged)⟩
  obtain ⟨summary₁, w₁, hrun₁, t₁, hleft, hpruned₁⟩ := (does_processBatch_covering hfounded hevolves
    hregular hapart hlistable hacyclic hcovers hreliable hbatch leases').run_eq fits
  obtain ⟨summary₂, w₂, hrun₂, t₂, hright, hpruned₂⟩ := (does_processBatch_covering hfounded hevolves
    hregular hapart hlistable hacyclic hcovers' hreliable hbatch' leases').run_eq fits'
  simp only [hmem] at hright
  refine ⟨summary₁, w₁, summary₂, w₂, hrun₁, hrun₂, fun path => ?_⟩
  rw [hpruned₁.inoAt?_eq hleft.rooted, hpruned₂.inoAt?_eq hright.rooted]
  have hunique : ∀ {i j s}, w.tree.view.Holds d₁ i s → w.tree.view.Holds d₁ j s → i = j :=
    fun hi hj => hfounded.sound.eq_of_holds hi hj
  exact Tree.inoAt?_eq_of_outcome (hapart.distinguishes_named hregular) hunique hleft hright path

theorem acyclic_moved : (twoDirectories.perform moveInto).Acyclic := by
  have hregular := (evolved_twoDirectories.perform moveInto).regular
  have hsingle : (twoDirectories.perform moveInto).SingleNamed :=
    Disk.singleNamed_of_links (by decide +kernel)
  have hb : (twoDirectories.perform moveInto).Subdirectory 0 3 :=
    ⟨⟨.ofString "b", by decide +kernel⟩, by decide +kernel⟩
  have ha : (twoDirectories.perform moveInto).Subdirectory 3 1 :=
    ⟨⟨.ofString "a", by decide +kernel⟩, by decide +kernel⟩
  intro c hcircle
  obtain ⟨b, -, -, hdir⟩ := Relation.TransGen.tail'_iff.1 hcircle
  have hbelow : (twoDirectories.perform moveInto).Below Disk.rootSerial c := by
    have hdirectories : ∀ s < (twoDirectories.perform moveInto).nodes.length,
        (twoDirectories.perform moveInto).isDirectory s → s = 0 ∨ s = 3 ∨ s = 1 := by
      decide +kernel
    rcases hdirectories c (Disk.lt_of_isDirectory hdir) hdir with rfl | rfl | rfl
    · exact .refl
    · exact .single hb
    · exact .tail (.single hb) ha
  exact hsingle.acyclic hregular hbelow hcircle

theorem covers_moved : Covers twoDirectories (twoDirectories.perform moveInto) [0, 3] := by
  have hop : moveInto.apply twoDirectories = .ok (twoDirectories.perform moveInto) := by
    decide +kernel
  constructor
  · intro s hs
    rcases List.mem_cons.1 hs with rfl | hs
    · exact ⟨.inl rfl, by decide +kernel⟩
    · obtain rfl := List.mem_singleton.1 hs
      exact ⟨.inr ⟨0, .ofString "b", by decide +kernel⟩, by decide +kernel⟩
  · intro s hs hdir hchanged
    have hparents : moveInto.parents twoDirectories = [0, 3] := by decide +kernel
    have hold : ∀ s < (twoDirectories.perform moveInto).nodes.length,
        twoDirectories.node? s ≠ none := by decide +kernel
    refine by_contra fun hmem => ?_
    rcases hchanged with hnew | ⟨name, hne⟩
    · exact hold s (Disk.lt_of_isDirectory hdir) hnew
    · exact hne (Disk.Operation.child?_eq hop evolved_twoDirectories.regular hs (hparents ▸ hmem) name)

theorem processBatch_perm_moved :
    let start : Tracker Disk := { scannedDirectories with files := twoDirectories.perform moveInto }
    ∃ summary₁ w₁ summary₂ w₂,
      (processBatch Disk.filesystem false [modified 0, modified 3]).run start = (.ok summary₁, w₁) ∧
      (processBatch Disk.filesystem false [modified 3, modified 0]).run start = (.ok summary₂, w₂) ∧
      ∀ path, w₁.tree.inoAt? path = w₂.tree.inoAt? path := by
  have hregular := (evolved_twoDirectories.perform moveInto).regular
  have hapart₀ : twoDirectories.Apart [] :=
    evolved_twoDirectories.regular.apart (by decide +kernel) fun s hs => by cases hs
  have hrun : (baseline Disk.filesystem false).run ⟨twoDirectories, {}, fun _ => 0, { tree := {} }⟩ =
      (.ok { directories := 3, linked := 3 }, scannedDirectories) :=
    Prod.ext (by decide +kernel) rfl
  have hop : moveInto.apply twoDirectories = .ok (twoDirectories.perform moveInto) := by
    decide +kernel
  have hapart : (twoDirectories.perform moveInto).Apart [] :=
    hregular.apart (by decide +kernel) fun s hs => by cases hs
  have htidy : (twoDirectories.perform moveInto).Tidy (twoDirectories.perform moveInto).Named :=
    Disk.tidy_of_ordinary (by decide +kernel)
  have hd := hapart.distinguishes_named hregular
  have hreliable : scannedDirectories.tree.view.Reliable false (twoDirectories.perform moveInto) :=
    .inr fun _ _ _ _ => (View.fresh_of_unrepeated (by decide +kernel) hd).not_stale hd
  exact processBatch_perm evolved_twoDirectories hapart₀ hrun (.single ⟨moveInto, hop⟩) hapart
    htidy.listable acyclic_moved covers_moved hreliable
    (.cons (tellsOf_modified 0) (.cons (tellsOf_modified 3) .nil)) (.swap _ _ _) (by decide +kernel)
    (by decide +kernel)

/-- The file in `a` is deleted. A new one gets its inode number and a second name in `b`. -/
def numberReused : Disk :=
  ((twoDirectories.perform (.remove (.ofString "/a/f"))).perform
    (.createWithIno (.ofString "/a/f") 102)).perform (.link (.ofString "/a/f") (.ofString "/b/g"))

/-- The order matters if a number has been used again: a name that is taken for unchanged goes with the
old record when the new file is met under its other name. -/
theorem processBatch_order_matters :
    let after (batch : List (Notification Serial)) : Tracker Disk :=
      ((processBatch Disk.filesystem false batch).run
        { scannedDirectories with files := numberReused }).2
    (after [modified 1, modified 3]).tree.inoAt? [.ofString "a", .ofString "f"] = none ∧
      (after [modified 3, modified 1]).tree.inoAt? [.ofString "a", .ofString "f"] = some 102 := by
  decide +kernel

end Tracker

end TreeWatch

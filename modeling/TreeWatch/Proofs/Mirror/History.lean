import TreeWatch.Proofs.Disk.Operation
import TreeWatch.Proofs.Mirror.Plain
import TreeWatch.Proofs.Tracker.Reached

/-!
# Watching a disk

Runs of the tracker over a disk on which operations happen between the calls, and which may fail calls,
list what is not there and open what was not asked for. Notifications are lost or late. Records are
right about objects all the same, though not about names.

## Main definitions

- `Tracker.Watched` : the states that come up while a disk is watched
- `Disk.Apart` : inode numbers tell objects with names or open handles apart

## Main results

- `Tracker.Watched.regular`, `Tracker.Watched.truthful` : disks stay in order, and every record is for
  some object
-/

namespace TreeWatch

namespace Disk

variable {d d' : Disk}

/-- Inode number, mode and token are those of some object. -/
def Made (d : Disk) (a : Attributes) (token : IdentityToken) : Prop :=
  ∃ s n, d.node? s = some n ∧ a.ino = n.ino ∧ a.mode = n.mode ∧ token = tokenOf s

theorem Keeps.made (h : d.Keeps d') {a : Attributes} {token : IdentityToken}
    (hmade : d.Made a token) : d'.Made a token := by
  obtain ⟨s, n, hn, hino, hmode, htoken⟩ := hmade
  obtain ⟨n', hn', hino', hmode', -⟩ := h s n hn
  exact ⟨s, n', hn', hino.trans hino'.symm, hmode.trans hmode'.symm, htoken⟩

theorem Keeps.oversized (h : d.Keeps d') {s : Serial} (hs : d.Oversized s) : d'.Oversized s := by
  obtain ⟨n, hn, htrue⟩ := hs
  obtain ⟨n', hn', -, -, hsize⟩ := h s n hn
  exact ⟨n', hn', hsize htrue⟩

/-- No two objects share an inode number that have a name or are open by one of the handles. -/
structure Apart (d : Disk) (handles : List Serial) : Prop where
  exists_node : ∀ s ∈ handles, ∃ n, d.node? s = some n
  eq_of_ino_eq : ∀ s s', (d.Named s ∨ s ∈ handles) → (d.Named s' ∨ s' ∈ handles) →
    d.inoAt s = d.inoAt s' → s = s'

theorem Apart.distinguishes {handles : List Serial} (h : d.Apart handles) (hd : d.Regular) :
    d.Distinguishes fun s => d.Named s ∨ s ∈ handles where
  regular := hd
  exists_node hs := hs.elim hd.exists_node_of_named (h.exists_node _)
  of_named := .inl
  eq_of_ino_eq := h.eq_of_ino_eq _ _

/-- Numbers tell objects apart if all objects that count a name have different ones. -/
theorem Owing.apart (hd : d.Regular)
    (hnodup : ((d.nodes.filter (0 < ·.links)).map (·.ino)).Nodup) {handles : List Serial}
    (hnamed : ∀ s ∈ handles, d.Named s) : d.Apart handles := by
  have hdistinct : ∀ s s', s < s' → d.Named s → d.Named s' → d.inoAt s ≠ d.inoAt s' := by
    intro s s' hlt hs hs'
    obtain ⟨n, hn⟩ := hd.exists_node_of_named hs
    obtain ⟨n', hn'⟩ := hd.exists_node_of_named hs'
    have hlinks : 0 < n.links := (hd.named_iff hn).1 hs
    have hlinks' : 0 < n'.links := (hd.named_iff hn').1 hs'
    obtain ⟨hinside, hget⟩ := List.getElem?_eq_some_iff.1 hn
    obtain ⟨hinside', hget'⟩ := List.getElem?_eq_some_iff.1 hn'
    rw [List.Nodup, List.pairwise_map, List.pairwise_filter] at hnodup
    have hpair := List.pairwise_iff_getElem.1 hnodup s s' hinside hinside' hlt
    rw [hget, hget'] at hpair
    rw [inoAt_eq hn, inoAt_eq hn']
    exact hpair (by simpa using hlinks) (by simpa using hlinks')
  have hall : ∀ s, d.Named s ∨ s ∈ handles → d.Named s := fun s h => h.elim id (hnamed s)
  refine ⟨fun s hs => hd.exists_node_of_named (hnamed s hs), fun s s' hs hs' hino => ?_⟩
  rcases Nat.lt_trichotomy s s' with hlt | heq | hlt
  · exact absurd hino (hdistinct s s' hlt (hall s hs) (hall s' hs'))
  · exact heq
  · exact absurd hino.symm (hdistinct s' s hlt (hall s' hs') (hall s hs))

end Disk

/-- If records say what was read from objects, every record is for some object. -/
theorem Tree.Vouched.truthful {t : Tree} {d : Disk} (h : Tree.Vouched d.Made t) :
    t.view.Truthful d := by
  rintro i ⟨a, token⟩ hi
  obtain ⟨fingerprint, s, n, hn, hino, hmode, rfl⟩ := h i a token hi
  exact ⟨s, a, n, hi, hn, hino, hmode⟩

/-! ### What scripted disks answer -/

namespace ScriptedDisk

variable {d : Disk} {files : ScriptedDisk}

/-- Behind the scripted disk is the given one, and modes are read from it as they are. -/
structure Over (d : Disk) (files : ScriptedDisk) : Prop where
  disk : files.disk = d
  modes : ∀ ino o, files.overrides.get? ino = some o → o.mode = none

/-- A call fails by a fault or is answered; faults are used up either way. -/
theorem run_withFaults {ε α : Type} (site : ScriptedDisk → FaultSite) (fail : FaultAnswer → Except ε α)
    (otherwise : StateM ScriptedDisk (Except ε α)) (files : ScriptedDisk) :
    ∃ faults, (∃ a, (withFaults site fail otherwise).run files = (fail a, { files with faults })) ∨
      (withFaults site fail otherwise).run files = otherwise.run { files with faults } := by
  change ∃ faults, (∃ a, (withFaults site fail otherwise) files = (fail a, { files with faults })) ∨
    (withFaults site fail otherwise) files = otherwise { files with faults }
  unfold withFaults
  split
  · next a faults _ => exact ⟨faults, .inl ⟨a, rfl⟩⟩
  · next faults _ => exact ⟨faults, .inr rfl⟩

theorem Over.withFaults {ε α : Type} {site : ScriptedDisk → FaultSite}
    {fail : FaultAnswer → Except ε α} {otherwise : StateM ScriptedDisk (Except ε α)}
    (h : Over d files) (hkeep : ∀ files, Over d files → Over d (otherwise.run files).2) :
    Over d ((withFaults site fail otherwise).run files).2 := by
  obtain ⟨faults, ⟨a, hrun⟩ | hrun⟩ := run_withFaults site fail otherwise files
  · rw [hrun]
    exact ⟨h.disk, h.modes⟩
  · rw [hrun]
    exact hkeep _ ⟨h.disk, h.modes⟩

theorem Over.openChild (h : Over d files) (s : Serial) (name : Bytes) :
    Over d ((openChild s name).run files).2 := by
  change Over d (ScriptedDisk.openChild s name files).2
  unfold ScriptedDisk.openChild
  split
  · exact h
  · split
    · exact h
    · exact ⟨h.disk, h.modes⟩

theorem Over.attributes_eq_ok (h : Over d files) {s : Serial} {a : Attributes}
    (ha : files.attributes s = .ok a) :
    ∃ n, d.node? s = some n ∧ a.ino = n.ino ∧ a.mode = n.mode := by
  unfold attributes at ha
  rw [h.disk, Disk.attributes] at ha
  cases hn : d.node? s with
  | none =>
    rw [hn] at ha
    cases ha
  | some n =>
    rw [hn] at ha
    simp only [Except.map, Except.ok.injEq] at ha
    refine ⟨n, rfl, ?_⟩
    split at ha
    · next o ho =>
      rw [← ha, h.modes _ o ho]
      exact ⟨rfl, rfl⟩
    · rw [← ha]
      exact ⟨rfl, rfl⟩

/-- Inode numbers, modes and tokens are those of objects, whatever else goes wrong. -/
theorem vouches (d : Disk) : filesystem.Vouches (Over d) { made := d.Made } where
  attributes _ _ h := h.withFaults fun _ h => h
  identityToken _ _ h := h.withFaults fun _ h => h
  openByToken _ _ h := h.withFaults fun _ h => h
  list _ _ h := h.withFaults fun _ h => h
  openChild s name _ h := h.withFaults fun _ h => h.openChild s name
  openDirectory _ _ h := h.withFaults fun _ h => h
  openRoot _ h := h.withFaults fun _ h => h
  made := by
    intro s files files' a token h h' ha htoken
    have hattributes : ∃ n, d.node? s = some n ∧ a.ino = n.ino ∧ a.mode = n.mode := by
      obtain ⟨faults, ⟨x, hrun⟩ | hrun⟩ := run_withFaults
        (fun d => { point := .attributes, ino := some (d.disk.inoAt s) }) (failCall .stat)
        (answer (·.attributes s)) files
      · change ((withFaults _ _ _).run files).1 = _ at ha
        rw [hrun] at ha
        cases ha
      · change ((withFaults _ _ _).run files).1 = _ at ha
        rw [hrun] at ha
        have hover : Over d { files with faults } := ⟨h.disk, h.modes⟩
        exact hover.attributes_eq_ok ha
    have hidentity : token = Disk.tokenOf s := by
      obtain ⟨faults, ⟨x, hrun⟩ | hrun⟩ := run_withFaults
        (fun d => { point := .identityToken, ino := some (d.disk.inoAt s) }) (failIdentity .tokenOf)
        (answer fun d => d.disk.identityToken s) files'
      · change ((withFaults _ _ _).run files').1 = _ at htoken
        rw [hrun] at htoken
        cases x <;> cases htoken
      · change ((withFaults _ _ _).run files').1 = _ at htoken
        rw [hrun] at htoken
        exact Disk.eq_tokenOf_of_identityToken htoken
    obtain ⟨n, hn, hino, hmode⟩ := hattributes
    exact ⟨s, n, hn, hino, hmode, hidentity⟩
  stale := by intros; trivial
  listed := by intros; trivial
  root := by intros; trivial

/-- What may happen to a scripted disk between calls: an operation on the disk, and any change of
what is answered differently, but modes are not replaced. -/
structure Moves (files files' : ScriptedDisk) : Prop where
  disk : files'.disk = files.disk ∨ ∃ op : Disk.Operation, op.apply files.disk = .ok files'.disk
  modes : ∀ ino o, files'.overrides.get? ino = some o → o.mode = none

end ScriptedDisk

/-! ### Runs -/

namespace Tracker

/-- The states that come up while a disk is watched that was empty at first. -/
abbrev Watched : Tracker ScriptedDisk → Prop :=
  Reached ScriptedDisk.filesystem (ScriptedDisk.Over .empty) ScriptedDisk.Moves

variable {w : Tracker ScriptedDisk}

theorem Watched.over (h : Watched w) :
    ScriptedDisk.Over w.files.disk w.files ∧ w.files.disk.Regular ∧
      (w.tree.Fits → Tree.Vouched w.files.disk.Made w.tree) := by
  induction h with
  | start hstart =>
    refine ⟨⟨rfl, hstart.modes⟩, hstart.disk ▸ Disk.regular_empty, fun _ i a token hi => ?_⟩
    cases hi
  | @call w strict c hreached ih =>
    obtain ⟨hover, hregular, hvouched⟩ := ih
    have hedited := c.edits (ScriptedDisk.vouches w.files.disk) strict w hover
    rw [hedited.files.disk]
    refine ⟨hedited.files, hregular, fun fits => ?_⟩
    have hfits := hedited.tree.grows.fits fits
    exact Tree.Edits.vouched hedited.tree (hreached.sound hfits) fits (hvouched hfits)
  | @elsewhere w files leases clock hreached hmove ih =>
    obtain ⟨hover, hregular, hvouched⟩ := ih
    refine ⟨⟨rfl, hmove.modes⟩, ?_⟩
    -- what was read from an object goes on to be true of it
    rcases hmove.disk with hsame | ⟨op, hop⟩
    · rw [hsame]
      exact ⟨hregular, hvouched⟩
    · refine ⟨Disk.Operation.regular hop hregular, fun fits i a token hi => ?_⟩
      obtain ⟨fingerprint, hmade⟩ := hvouched fits i a token hi
      exact ⟨fingerprint, (Disk.Operation.keeps hop).made hmade⟩

/-- Disks stay in order. -/
theorem Watched.regular (h : Watched w) : w.files.disk.Regular := h.over.2.1

/-- Every record is for some object. -/
theorem Watched.truthful (h : Watched w) (fits : w.tree.Fits) :
    w.tree.view.Truthful w.files.disk :=
  (h.over.2.2 fits).truthful

/-- The state after operations on the disk; those that fail do nothing. -/
def operate (w : Tracker ScriptedDisk) : List Disk.Operation → Tracker ScriptedDisk
  | [] => w
  | op :: rest => operate { w with files := { w.files with disk := w.files.disk.perform op } } rest

/-- Any number of operations may happen between two calls. -/
theorem Watched.operate (h : Watched w) (ops : List Disk.Operation) : Watched (w.operate ops) := by
  induction ops generalizing w with
  | nil => exact h
  | cons op rest ih =>
    have hmoves : ScriptedDisk.Moves w.files
        { w.files with disk := w.files.disk.perform op } :=
      ⟨(Disk.perform_cases w.files.disk op).imp_right fun hop => ⟨op, hop⟩, h.over.1.modes⟩
    have hnext : Watched { w with files := { w.files with disk := w.files.disk.perform op } } :=
      .elsewhere h hmoves
    exact ih hnext

/-- When nothing is answered differently any more, the tracker can begin to work. -/
theorem Watched.ready (h : Watched w) (hclean : w.files.Clean) (fits : w.tree.Fits) :
    Ready ScriptedDisk.filesystem w.files.disk w :=
  ⟨hclean.plain, h.sound fits, h.truthful fits⟩

end Tracker

end TreeWatch

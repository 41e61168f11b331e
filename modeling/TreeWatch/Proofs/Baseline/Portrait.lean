import TreeWatch.Proofs.Baseline.Scan
import TreeWatch.Proofs.Mirror.Convergence
import TreeWatch.Watcher

/-!
# The first scan

The first scan of a disk succeeds and makes the tree a portrait of the disk. It reports every name once,
depth first, and its summary counts what is on the disk.

## Main definitions

- `Tree.Portrays` : the tree shows the disk from the root down, but for oversized objects
- `Tracker.Baselined` : what the first scan achieves

## Main results

- `Tracker.baseline_portrays` : the first scan achieves that
-/

namespace TreeWatch

open Disk (Sighting)

/-! ### Portraits -/

/-- The tree shows all objects of the disk to which ways lead from the root, past no oversized one, and
nothing else. An object with several names has one record. -/
structure Tree.Portrays (t : Tree) (d : Disk) (recordOf : Serial → InodeId) : Prop where
  root_eq : t.root = some (recordOf Disk.rootSerial)
  /-- Records have the inode number, the mode and thereby the kind, the token and the fingerprint of
  their objects, and as many links as these have names. -/
  record : ∀ s, d.Mirrored s → ∃ r n, t.record? (recordOf s) = some r ∧ d.node? s = some n ∧
    r.ino = n.ino ∧ r.mode = n.mode ∧ r.token = Disk.tokenOf s ∧ r.fingerprint = n.fingerprint ∧
    r.links.size = d.tour.countP (·.object = s)
  injective : ∀ s s', d.Mirrored s → d.Mirrored s' → recordOf s = recordOf s' → s = s'
  surjective : ∀ i r, t.record? i = some r → ∃ s, d.Mirrored s ∧ recordOf s = i
  /-- The same names are in every directory, but for those of oversized objects. -/
  child?_eq : ∀ s, d.Mirrored s → ∀ name,
    t.child? (recordOf s) name = ((d.child? s name).filter fun c => ¬d.Oversized c).map recordOf

theorem Tree.Depicts.portrays {t : Tree} {d : Disk} (hd : d.Scannable)
    (h : t.Depicts d (Disk.Seen d.tour) d.tour) (hrooted : t.view.Rooted d) :
    ∃ recordOf, t.Portrays d recordOf := by
  have hseen : ∀ s, d.Mirrored s ↔ Disk.Seen d.tour s :=
    fun s => Disk.mirrored_iff hd.regular hd.singleNamed
  have hheld : ∀ s, ∃ i, d.Mirrored s → t.view.Holds d i s := by
    intro s
    by_cases hs : d.Mirrored s
    · obtain ⟨i, hi⟩ := (h.held_iff s).2 ((hseen s).1 hs)
      exact ⟨i, fun _ => hi⟩
    · exact ⟨⟨⟨0, 0⟩⟩, fun hs' => absurd hs' hs⟩
  -- records of what is not mirrored do not matter
  choose recordOf hholds using hheld
  refine ⟨recordOf, ?_, fun s hs => ?_, fun s s' hs hs' heq => ?_, fun i r hr => ?_,
    fun s hs name => ?_⟩
  · obtain ⟨r, hroot, hr⟩ := hrooted
    rw [← h.sound.eq_of_holds hr (hholds _ ⟨[], .root⟩)]
    exact hroot
  · obtain ⟨a, ha, hidentity⟩ := h.current (hholds s hs)
    obtain ⟨r, hr, hrecord⟩ := Tree.identity?_eq_some_iff.1 hidentity
    obtain ⟨n, hn⟩ := hd.regular.exists_node_of_named (((hseen s).1 hs).named h.sighted)
    rw [Disk.attributes_eq hn] at ha
    cases ha
    have hlinks := h.linkCount_eq (hholds s hs)
    rw [Tree.linkCount, hr, Option.elim_some] at hlinks
    exact ⟨r, n, hr, hn, congrArg (·.1.ino) hrecord, congrArg (·.1.mode) hrecord,
      congrArg Prod.snd hrecord, congrArg (·.1.fingerprint) hrecord, hlinks⟩
  · have hi := hholds s hs
    rw [heq] at hi
    exact hi.serial_eq hd.regular (hholds s' hs')
  · obtain ⟨s, hi⟩ := h.truthful i r.identity (Tree.identity?_eq_some_iff.2 ⟨r, hr, rfl⟩)
    have hs := (hseen s).2 ((h.held_iff s).1 ⟨i, hi⟩)
    exact ⟨s, hs, h.sound.eq_of_holds (hholds s hs) hi⟩
  · ext c
    rw [← Tree.view_child, h.child_iff (hholds s hs)]
    simp only [Option.map_eq_some_iff, Option.filter_eq_some_iff, decide_eq_true_eq]
    constructor
    · rintro ⟨x, hx, rfl, rfl, hc⟩
      have hsighted := h.sighted x hx
      exact ⟨x.object, ⟨hsighted.child, hsighted.size⟩,
        h.sound.eq_of_holds (hholds _ ⟨_, hsighted.whole⟩) hc⟩
    · rintro ⟨o, ⟨ho, hsize⟩, rfl⟩
      obtain ⟨way, hway⟩ := hs
      exact ⟨_, Disk.mem_tour_of_wayTo hd.regular hd.singleNamed hway ho hsize, rfl, rfl,
        hholds o ⟨_, .name hway ho hsize⟩⟩

namespace Tracker

variable {σ ε : Type} {fs : Filesystem σ Serial} {d : Disk} {strict : Bool} {w : Tracker σ}
  {tour : List Sighting} {room : Nat} {summary : ScanSummary}

/-! ### From the root -/

/-- Scanning the mount of an empty tree binds all names on the tour. -/
theorem gives_scanRoot (hd : d.Scannable) (hplain : fs.Plain w.files d)
    (hpicture : w.tree.Depicts d (fun _ => False) []) (hjournal : w.ledger.journal = [])
    (hroom : w.tree.Room (d.tour.length + 1) d.tour.length) :
    Gives (scanRoot fs strict) w (d.overview Disk.rootSerial d.tour) (Drawn fs d d.tour 0) := by
  have hdir := hd.regular.isDirectory_root
  have hshallow := Disk.SingleNamed.shallow_root hd.regular hd.singleNamed
  have hshort : ∀ way, d.WayTo way Disk.rootSerial → d.isDirectory Disk.rootSerial →
      way.length ≤ w.tree.recordCount := by
    intro way hway _
    rw [hway.unique hd.regular hd.singleNamed .root hdir]
    exact Nat.zero_le _
  obtain ⟨i, hresolve⟩ := gives_resolve_of_not_held (w := { w with leases := w.leases.take }) hd
    hplain hpicture (fun _ => False.elim) (.inl rfl) id hd.root_small hshort hroom
  unfold scanRoot
  refine .wrapping_step hplain.run_openRoot (.attempt_bind hresolve fun w₁ h₁ => ?_)
  refine .step (run_edit _ w₁) (.step (run_look _ _) ?_)
  let w₂ : Tracker σ := { w₁ with ledger := { w₁.ledger with tree := w₁.tree.setRoot i } }
  have hplain₂ : fs.Plain w₂.files d := h₁.files ▸ hplain
  have hnesting : d.nodes.length + 1 ≤ fs.nesting w₂.files + 1 := Nat.succ_le_succ hplain₂.nesting
  have htour : d.sightings (fs.nesting w₂.files + 1) [] Disk.rootSerial = d.tour :=
    Disk.sightings_of_shallow hshallow hnesting []
  have hpicture₂ : w₂.tree.Depicts d (Disk.Seen []) [] := by
    refine (h₁.picture.of_view_eq (h₁.picture.sound.setRoot i) rfl rfl (fun _ => rfl) rfl
      rfl).congr_held fun s => ?_
    simp [Disk.Seen]
  -- the root has been met, and no name yet
  have h₂ : Drawn fs d [] (0 + d.tour.length) w₂ := by
    refine ⟨hplain₂, hpicture₂, ⟨i, rfl, h₁.holds⟩, h₁.journal.trans hjournal, ?_⟩
    rw [Nat.zero_add]
    exact ⟨h₁.room.inodes, h₁.room.entries⟩
  rw [← htour] at h₂ ⊢
  exact (draws_scanWithin hd _ .root hdir (.inl rfl) (fun _ hx => absurd hx List.not_mem_nil)
    (hshallow.mono hnesting) h₂).mono fun _ h => h.toDrawn

/-- Nothing is left to reclaim then. -/
theorem gives_rescanRoots (h : Gives (scanRoot fs strict) w summary (Drawn fs d tour room)) :
    Gives (rescanRoots fs strict) w summary (Drawn fs d tour room) := by
  unfold rescanRoots
  refine .bind h fun w₁ h₁ => ?_
  have hreclaim : (reclaimNow : Track σ ScanError Nat).run w₁ =
      (.ok 0, { w₁ with ledger := w₁.ledger.tick }) := by
    rw [reclaimNow, run_editGet,
      Ledger.reclaimNow_of_not_isOrphan (h₁.picture.not_isOrphan h₁.rooted)]
  exact .step hreclaim (.pure (h₁.of_eq rfl rfl rfl))

theorem gives_baseline (h : Gives (rescanRoots fs strict) w summary (Drawn fs d tour room)) :
    Gives (baseline fs strict) w summary (Drawn fs d tour room) := by
  unfold baseline
  refine .bind h.wrapping fun w₁ h₁ => ?_
  refine .step (run_look _ _) (.step (run_note _ _) (.step (run_look _ _) ?_))
  split
  · exact .pure (h₁.of_eq rfl rfl rfl)
  · exact .step (run_note _ _) (.pure (h₁.of_eq rfl rfl rfl))

/-! ### What it achieves -/

/-- What the first scan of a disk achieves. -/
structure Baselined (d : Disk) (summary : ScanSummary) (w : Tracker σ) : Prop where
  portrays : ∃ recordOf, w.tree.Portrays d recordOf
  entryCount_eq : w.tree.entryCount = d.tour.length
  /-- Nothing was unbound, and nothing was taken for unchanged. -/
  summary_eq : summary =
    { directories := d.directories.length, linked := d.tour.length, unlinked := 0, fastPath := 0,
      skipped := Disk.total d.passedOver d.directories }
  journal_eq : w.ledger.journal = d.tour.map d.observe

/-- The first scan of a disk succeeds and shows the disk but for oversized objects and what is below
them, provided that directories have one name and can be listed, that inode numbers tell objects with
names apart, and that names listed without an object are those of nothing else. -/
theorem baseline_portrays {leases : Leases} {clock : Clock} {grace : Nat} (hd : d.Evolved)
    (hsingle : d.SingleNamed) (hlistable : d.Listable d.Named) (hroot : ¬d.Oversized Disk.rootSerial)
    (hapart : d.Apart []) (hphantoms : ∀ s n, d.Named s → d.node? s = some n → ∀ e ∈ n.phantoms,
      e.isPseudo = false ∧ d.child? s e.name = none) (hcount : d.bindingCount < UInt32.size) :
    d.Toured ∧ ∃ summary w,
      (baseline Disk.filesystem strict).run ⟨d, leases, clock, { tree := { grace } }⟩ =
        (.ok summary, w) ∧ Baselined d summary w := by
  have hscannable : d.Scannable := ⟨hd.regular, hsingle, hapart, hlistable, hroot, hphantoms⟩
  refine ⟨hsingle.toured hd.regular, d.overview Disk.rootSerial d.tour, ?_⟩
  let start : Tracker Disk := ⟨d, leases, clock, { tree := { grace } }⟩
  have hroom : start.tree.Room (d.tour.length + 1) d.tour.length := by
    have hle := Disk.length_tour_le hd.regular hsingle
    have hrecords : 0 + (d.tour.length + 1) ≤ UInt32.size := by omega
    have hentries : 0 + d.tour.length ≤ UInt32.size := by omega
    exact ⟨hrecords, hentries⟩
  obtain ⟨w, hrun, hdrawn⟩ := gives_baseline (gives_rescanRoots
    (gives_scanRoot (w := start) hscannable (Disk.plain d) (Tree.depicts_empty d grace) rfl hroom))
  exact ⟨w, hrun, hdrawn.picture.portrays hscannable hdrawn.rooted, hdrawn.picture.entryCount_eq,
    d.overview_root, hdrawn.journal⟩

/-- A disk with a directory `a` that contains a file, which is `g` as well, and lists `p` without an
object. The file `h` is oversized. -/
def sampler : Disk :=
  (((((Disk.empty.perform (.mkdir (.ofString "/a"))).perform (.create (.ofString "/a/f"))).perform
    (.link (.ofString "/a/f") (.ofString "/g"))).perform (.create (.ofString "/h"))).perform
    (.markOversized (.ofString "/h"))).perform (.addPhantom (.ofString "/a") (.ofString "p") 7)

example : (sampler.tour.map sampler.observe).map (·.path) =
    [.ofString "/a", .ofString "/a/f", .ofString "/g"] := by decide +kernel

/-- Its first scan binds three names and passes over two. -/
theorem baseline_portrays_sampler : ∃ summary w,
    (baseline Disk.filesystem false).run ⟨sampler, {}, fun _ => 0, { tree := {} }⟩ = (.ok summary, w) ∧
      summary = { directories := 2, linked := 3, skipped := 2 } ∧ Baselined sampler summary w := by
  have hevolved : sampler.Evolved :=
    (((((Disk.Evolved.perform .refl _).perform _).perform _).perform _).perform _).perform _
  have hsingle : sampler.SingleNamed := Disk.singleNamed_of_links (by decide +kernel)
  have hlistable : sampler.Listable sampler.Named := by
    have hall : ∀ n ∈ sampler.nodes, n.unlistable = false := by decide +kernel
    exact fun s n _ hn => hall n (List.mem_of_getElem? hn)
  have hapart : sampler.Apart [] :=
    hevolved.regular.apart (by decide +kernel) fun s hs => by cases hs
  have hphantoms : ∀ s n, sampler.Named s → sampler.node? s = some n → ∀ e ∈ n.phantoms,
      e.isPseudo = false ∧ sampler.child? s e.name = none := by
    have hall : ∀ s ∈ List.range sampler.nodes.length, ∀ n ∈ sampler.node? s, ∀ e ∈ n.phantoms,
        e.isPseudo = false ∧ sampler.child? s e.name = none := by decide +kernel
    intro s n _ hn
    exact hall s (List.mem_range.2 (List.getElem?_eq_some_iff.1 hn).1) n hn
  obtain ⟨-, summary, w, hrun, h⟩ := baseline_portrays hevolved hsingle hlistable
    (by decide +kernel) hapart hphantoms (by decide +kernel)
  refine ⟨summary, w, hrun, ?_, h⟩
  rw [h.summary_eq]
  decide +kernel

end Tracker

end TreeWatch

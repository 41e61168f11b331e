import TreeWatch.Proofs.Disk.Neat
import TreeWatch.Proofs.Garbage.Collector
import TreeWatch.Proofs.Garbage.Waiting
import TreeWatch.Proofs.Mirror.Route
import TreeWatch.Proofs.Mirror.Tended

/-!
# Where the path of a record leads

As long as no call fails, the path of a record leads to it from the root, unless the way up by
lowest entries comes to a directory that waits to be destroyed, or to a circle of directories. The
record may have another name by which it can be reached. Its path looks as if it began at the root
even so, but the names in it lead to the record from elsewhere.

## Main definitions

- `Tracker.Unhindered` : the states of a run over an orderly disk in which no call fails
- `Tracker.Sturdy` : what holds of the trees of such a run

## Main results

- `Tracker.Unhindered.sturdy` : no record is stray, and the records are counted
- `Tracker.Unhindered.path_leads` : from where the path of a record leads to it
- `Tracker.not_forall_path_from_root` : it need not be the root
-/

namespace TreeWatch

open Relation (TransGen ReflTransGen)

namespace Disk

variable {d d' : Disk} {op : Operation}

/-- Every name can be a component of a path. -/
def Legible (d : Disk) : Prop := ∀ s name c, d.child? s name = some c → Path.Named name

theorem legible_empty : Disk.empty.Legible := fun _ _ _ hc => neat_empty.spelled hc

theorem Legible.apply (h : d.Legible) (hop : op.apply d = .ok d') : d'.Legible :=
  fun s name c hc => (Operation.name_back hop hc).elim (h s name c) id

theorem rootStands_empty : Disk.empty.RootStands := by decide +kernel

theorem RootStands.apply (h : d.RootStands) (hop : op.apply d = .ok d') (hd : d.Regular) :
    d'.RootStands := by
  obtain ⟨n, hn, hino, -⟩ := h
  obtain ⟨n', hn', hino', -⟩ := Operation.keeps hop _ n hn
  obtain ⟨n'', hn'', hlinks⟩ := (Operation.regular hop hd).counts_root
  cases hn'.symm.trans hn''
  exact ⟨n', hn', hino'.trans hino, hlinks⟩

end Disk

namespace Tracker

variable {w w' : Tracker Disk} {i : InodeId}

/-- The states that come up in a run, as in `Tended`, in which no call fails. -/
inductive Unhindered : Tracker Disk → Prop
  | start {leases : Leases} {clock : Clock} {grace : Nat} :
    Unhindered ⟨.empty, leases, clock, { tree := { grace } }⟩
  | call {w : Tracker Disk} (strict : Bool) (c : Call Serial) :
    Unhindered w → w.files.Apart c.handles → ¬c.Fails Disk.filesystem strict w →
      Unhindered (c.after Disk.filesystem strict w)
  | operate {w : Tracker Disk} {op : Disk.Operation} {d' : Disk} :
    Unhindered w → op.marks = true ∨ op.Orderly w.files → op.apply w.files = .ok d' →
      Unhindered { w with files := d' }
  | wait {w : Tracker Disk} {leases : Leases} {clock : Clock} :
    Unhindered w → Unhindered { w with leases, clock }

theorem Unhindered.tended (h : Unhindered w) : Tended w := by
  induction h with
  | start => exact .start
  | call strict c _ hapart _ ih => exact .call strict c ih hapart
  | operate _ horderly hop ih => exact .operate ih horderly hop
  | wait _ ih => exact .wait ih

/-- No record is stray, the records are counted, and every name can be a component of a path. -/
structure Sturdy (w : Tracker Disk) : Prop where
  standing : Standing Disk.RootStands Disk.rootIno w
  not_stray : ∀ i, ¬w.tree.Stray i
  counted : w.tree.inodes.Counted
  legible : w.tree.Legible

theorem sturdy_start {leases : Leases} {clock : Clock} {grace : Nat} :
    Sturdy ⟨.empty, leases, clock, { tree := { grace } }⟩ where
  standing := ⟨Disk.rootStands_empty, Tree.sound_empty grace, fun r hr => by cases hr⟩
  not_stray i hi := hi.live rfl
  counted := Arena.counted_empty
  legible i name c hc := by cases hc

/-- Whatever happens outside the tree does not matter if the root of the disk goes on to stand. -/
theorem Sturdy.of_tree_eq (h : Sturdy w) (hfiles : w'.files.RootStands) (htree : w'.tree = w.tree) :
    Sturdy w' where
  standing := ⟨hfiles, htree ▸ h.standing.sound, htree ▸ h.standing.root⟩
  not_stray := htree ▸ h.not_stray
  counted := htree ▸ h.counted
  legible := htree ▸ h.legible

theorem Sturdy.call (h : Sturdy w) (htended : Tended w) (hlegible : w.files.Legible)
    {strict : Bool} {c : Call Serial} (hapart : w.files.Apart c.handles)
    (hsucceeds : ¬c.Fails Disk.filesystem strict w)
    (fits : (c.after Disk.filesystem strict w).tree.Fits) :
    Sturdy (c.after Disk.filesystem strict w) := by
  obtain ⟨hregular, hacyclic, hshape⟩ := htended.inShape
  obtain ⟨hw, -⟩ := hshape ((c.grows strict w).fits fits)
  obtain ⟨-, -, hkept⟩ := c.behaves (hapart.distinguishes hregular) hacyclic.straight hw strict
    (fun _ => .inr) fits
  obtain ⟨hstanding, hstrays⟩ :=
    c.after_standing Disk.keepsRoot.keeps Disk.keepsRoot.numbered strict h.standing fits
  have hedited := c.edits Disk.filesystem.vouches_trivial strict w trivial
  refine ⟨hstanding, fun i hi => ?_, hedited.edits.counted hw.sound fits h.counted, ?_⟩
  · exact (hstrays i hi).elim (h.not_stray i) hsucceeds
  · intro i name c hc
    rcases hkept.child_back i name c hc with hold | ⟨s, o, ho⟩
    · exact h.legible i name c hold
    · exact hlegible s name o ho

theorem Unhindered.sturdy (h : Unhindered w) :
    w.files.RootStands ∧ w.files.Legible ∧ (w.tree.Fits → Sturdy w) := by
  induction h with
  | start => exact ⟨Disk.rootStands_empty, Disk.legible_empty, fun _ => sturdy_start⟩
  | @call w strict c hrun hapart hsucceeds ih =>
    obtain ⟨hroot, hlegible, hsturdy⟩ := ih
    rw [c.files_after]
    refine ⟨hroot, hlegible, fun fits => ?_⟩
    exact (hsturdy ((c.grows strict w).fits fits)).call hrun.tended hlegible hapart hsucceeds fits
  | operate hrun _ hop ih =>
    obtain ⟨hroot, hlegible, hsturdy⟩ := ih
    have hroot' := hroot.apply hop hrun.tended.inShape.1
    exact ⟨hroot', hlegible.apply hop, fun fits => (hsturdy fits).of_tree_eq hroot' rfl⟩
  | wait _ ih =>
    obtain ⟨hroot, hlegible, hsturdy⟩ := ih
    exact ⟨hroot, hlegible, fun fits => (hsturdy fits).of_tree_eq hroot rfl⟩

theorem Sturdy.live_of_reachable (h : Sturdy w) (hi : w.tree.Reachable i) : w.tree.isLive i := by
  refine h.standing.sound.live_of_reachable (fun r hr => ?_) hi
  obtain ⟨x, hx, -⟩ := h.standing.root r hr
  rw [Tree.isLive_iff_identity?]
  exact fun hnone => absurd (hx.symm.trans hnone) (Option.some_ne_none x)

/-- What nothing binds is the root or waits. -/
theorem Sturdy.root_or_waits (h : Sturdy w) (hi : w.tree.isLive i)
    (hnone : ∀ p name, w.tree.child? p name ≠ some i) :
    w.tree.root = some i ∨ w.tree.isOrphan i := by
  by_cases hroot : w.tree.root = some i
  · exact .inl hroot
  · have hidle : w.tree.Idle i := ⟨hroot, hnone⟩
    exact .inr (hidle.waits hi (h.not_stray i))

/-- The components of the path of a record lead to it from where one comes going up by lowest
entries. That is the root, unless it is a directory that waits to be destroyed or one on a
circle. -/
theorem Unhindered.path_leads (h : Unhindered w) (fits : w.tree.Fits) (hi : w.tree.Reachable i) :
    ∃ j, ReflTransGen w.tree.Upward i j ∧ w.tree.LeadsAlong j (w.tree.resolvePath i) i ∧
      (w.tree.root = some j ∨ w.tree.isOrphan j ∨ TransGen w.tree.Upward j j) := by
  have hsturdy := h.sturdy.2.2 fits
  obtain ⟨j, hway, hleads, hj, hends⟩ := hsturdy.standing.sound.exists_summit hsturdy.counted fits
    hsturdy.legible (hsturdy.live_of_reachable hi)
  refine ⟨j, hway, hleads, ?_⟩
  rcases hends with hnone | hcircle
  · exact (hsturdy.root_or_waits hj hnone).imp_right .inl
  · exact .inr (.inr hcircle)

/-! ### Directories that wait, and circles -/

theorem Unhindered.perform (h : Unhindered w) {op : Disk.Operation}
    (horderly : op.Orderly w.files) : Unhindered { w with files := w.files.perform op } := by
  rcases w.files.perform_cases op with hsame | hop
  · rwa [hsame]
  · exact .operate h (.inr horderly) hop

/-- Operations that are orderly on every disk may happen in any number. -/
theorem Unhindered.performAll (h : Unhindered w) (ops : List Disk.Operation)
    (horderly : ∀ op ∈ ops, ∀ d, op.Orderly d) :
    Unhindered { w with files := ops.foldl Disk.perform w.files } :=
  List.foldlRecOn ops Disk.perform (motive := fun d => Unhindered { w with files := d }) h
    fun d hd op hop => hd.perform (horderly op hop d)

/-- A call may be made where objects have numbers of their own and handles are of objects. -/
theorem Unhindered.call_of_unrepeated (h : Unhindered w) (c : Call Serial)
    (hnumbers : w.files.Unrepeated) (hhandles : ∀ s ∈ c.handles, (w.files.node? s).isSome)
    (hsucceeds : ¬c.Fails Disk.filesystem false w) :
    Unhindered (c.after Disk.filesystem false w) := by
  refine .call false c h (hnumbers.apart h.tended.inShape.1 fun s hs => ?_) hsucceeds
  exact Option.isSome_iff_exists.1 (hhandles s hs)

theorem not_error_of_isOk {ε α : Type} {x : Except ε α} (h : x.isOk) : ¬∃ e, x = .error e := by
  rintro ⟨e, rfl⟩
  cases h

/-- A file in a directory. -/
def shallowFile : Disk :=
  [Disk.Operation.mkdir (.ofString "/d"), .create (.ofString "/d/f")].foldl Disk.perform .empty

/-- The file has a second name outside. -/
def shallowLink : Disk := shallowFile.perform (.link (.ofString "/d/f") (.ofString "/g"))

/-- What has been seen of both. -/
def sawShallowLink : Tracker Disk :=
  Call.baseline.after Disk.filesystem false ⟨shallowLink, {}, fun _ => 0, { tree := { grace := 1000 } }⟩

/-- The directory has been deleted, and it waits. -/
def abandoned : Tracker Disk :=
  Call.rescanRoots.after Disk.filesystem false
    { sawShallowLink with
      files := [Disk.Operation.remove (.ofString "/d/f"),
        .remove (.ofString "/d")].foldl Disk.perform sawShallowLink.files }

theorem unhindered_abandoned : Unhindered abandoned := by
  have hstart : Unhindered ⟨.empty, {}, fun _ => 0, { tree := { grace := 1000 } }⟩ := .start
  have hmade := hstart.performAll [.mkdir (.ofString "/d"), .create (.ofString "/d/f")]
    (by simp [Disk.Operation.Orderly])
  have hlink : (Disk.Operation.link (.ofString "/d/f") (.ofString "/g")).Orderly shallowFile :=
    Disk.Operation.orderly_link (s := 2) (by decide +kernel) (by decide +kernel)
  have hsaw : Unhindered sawShallowLink :=
    (hmade.perform hlink).call_of_unrepeated .baseline (by decide +kernel) (List.forall_mem_nil _)
      (not_error_of_isOk (by decide +kernel))
  have hgone := hsaw.performAll [.remove (.ofString "/d/f"), .remove (.ofString "/d")]
    (by simp [Disk.Operation.Orderly])
  exact hgone.call_of_unrepeated .rescanRoots (by decide +kernel) (List.forall_mem_nil _)
    (not_error_of_isOk (by decide +kernel))

/-- The way up may come to a directory that waits. -/
theorem not_forall_path_from_root :
    ¬∀ w, Unhindered w → w.tree.Fits → ∀ r i, w.tree.root = some r → w.tree.Reachable i →
      w.tree.LeadsAlong r (w.tree.resolvePath i) i := by
  intro hall
  have hroot : abandoned.tree.root = some ⟨⟨0, 0⟩⟩ := by decide +kernel
  have hname : abandoned.tree.child? ⟨⟨0, 0⟩⟩ (.ofString "g") = some ⟨⟨2, 0⟩⟩ := by decide +kernel
  have hleads := hall abandoned unhindered_abandoned (by decide +kernel) _ _ hroot
    ⟨_, hroot, .single ⟨_, hname⟩⟩
  -- the path is `/f`, but the file is not found by that name
  have hpath : (abandoned.tree.resolvePath ⟨⟨2, 0⟩⟩).components =
      .root :: [.ofString "f"].map .name := by decide +kernel
  have hlost : abandoned.tree.follow ⟨⟨0, 0⟩⟩ [.ofString "f"] = none := by decide +kernel
  rw [Tree.leadsAlong_iff hpath, hlost] at hleads
  cases hleads

/-- A file two directories down. -/
def deepFile : Disk :=
  [Disk.Operation.mkdir (.ofString "/a"), .mkdir (.ofString "/a/b"),
    .create (.ofString "/a/b/f")].foldl Disk.perform .empty

/-- The file has a second name outside. -/
def deepLink : Disk := deepFile.perform (.link (.ofString "/a/b/f") (.ofString "/g"))

/-- What has been seen of both. -/
def sawDeepLink : Tracker Disk :=
  Call.baseline.after Disk.filesystem false ⟨deepLink, {}, fun _ => 0, { tree := {} }⟩

/-- The directory inside has been moved out. -/
def movedOut : Disk := deepLink.perform (.rename (.ofString "/a/b") (.ofString "/b"))

/-- Then the other one has been moved into it, and there has been no other notification. -/
def toldOfInner : Tracker Disk :=
  (Call.processBatch [modified 2]).after Disk.filesystem false
    { sawDeepLink with files := movedOut.perform (.rename (.ofString "/a") (.ofString "/b/a")) }

/-- Both directories have been deleted, and their records bind each other. -/
def knotted : Tracker Disk :=
  Call.rescanRoots.after Disk.filesystem false
    { toldOfInner with
      files := [Disk.Operation.remove (.ofString "/b/f"), .remove (.ofString "/b/a"),
        .remove (.ofString "/b")].foldl Disk.perform toldOfInner.files }

theorem unhindered_knotted : Unhindered knotted := by
  have hstart : Unhindered ⟨.empty, {}, fun _ => 0, { tree := {} }⟩ := .start
  have hmade := hstart.performAll
    [.mkdir (.ofString "/a"), .mkdir (.ofString "/a/b"), .create (.ofString "/a/b/f")]
    (by simp [Disk.Operation.Orderly])
  have hlink : (Disk.Operation.link (.ofString "/a/b/f") (.ofString "/g")).Orderly deepFile :=
    Disk.Operation.orderly_link (s := 3) (by decide +kernel) (by decide +kernel)
  have hsaw : Unhindered sawDeepLink :=
    (hmade.perform hlink).call_of_unrepeated .baseline (by decide +kernel) (List.forall_mem_nil _)
      (not_error_of_isOk (by decide +kernel))
  have hfiles : sawDeepLink.files = deepLink := Call.files_after ..
  have hout : (Disk.Operation.rename (.ofString "/a/b") (.ofString "/b")).Orderly deepLink := by
    have hsource : deepLink.split (.ofString "/a/b") = .ok (1, .ofString "b") := by decide +kernel
    have htarget : deepLink.split (.ofString "/b") = .ok (0, .ofString "b") := by decide +kernel
    have hs : deepLink.child? 1 (.ofString "b") = some 2 := by decide +kernel
    exact Disk.Operation.orderly_rename hsource hs htarget (by decide) (by decide +kernel)
  have hmoved : Unhindered { sawDeepLink with files := movedOut } := by
    have hperformed := hsaw.perform (hfiles.symm ▸ hout)
    rwa [hfiles] at hperformed
  have hinto : (Disk.Operation.rename (.ofString "/a") (.ofString "/b/a")).Orderly movedOut := by
    have hsource : movedOut.split (.ofString "/a") = .ok (0, .ofString "a") := by decide +kernel
    have htarget : movedOut.split (.ofString "/b/a") = .ok (2, .ofString "a") := by decide +kernel
    have hs : movedOut.child? 0 (.ofString "a") = some 1 := by decide +kernel
    exact Disk.Operation.orderly_rename hsource hs htarget (by decide) (by decide +kernel)
  have htold : Unhindered toldOfInner :=
    (hmoved.perform hinto).call_of_unrepeated (.processBatch [modified 2]) (by decide +kernel)
      (by decide +kernel) (not_error_of_isOk (by decide +kernel))
  have hgone := htold.performAll
    [.remove (.ofString "/b/f"), .remove (.ofString "/b/a"), .remove (.ofString "/b")]
    (by simp [Disk.Operation.Orderly])
  exact hgone.call_of_unrepeated .rescanRoots (by decide +kernel) (List.forall_mem_nil _)
    (not_error_of_isOk (by decide +kernel))

/-- Nothing waits, but the way up goes round a circle. It is left after a while, and the path does
not lead from the root. -/
theorem path_leads_knotted :
    Unhindered knotted ∧ knotted.tree.Fits ∧ knotted.tree.Reachable ⟨⟨3, 0⟩⟩ ∧
      knotted.tree.orphans = .empty ∧
      ¬knotted.tree.LeadsAlong ⟨⟨0, 0⟩⟩ (knotted.tree.resolvePath ⟨⟨3, 0⟩⟩) ⟨⟨3, 0⟩⟩ ∧
      ∃ j, ReflTransGen knotted.tree.Upward ⟨⟨3, 0⟩⟩ j ∧
        knotted.tree.LeadsAlong j (knotted.tree.resolvePath ⟨⟨3, 0⟩⟩) ⟨⟨3, 0⟩⟩ ∧
        (knotted.tree.root = some j ∨ knotted.tree.isOrphan j ∨
          TransGen knotted.tree.Upward j j) := by
  have fits : knotted.tree.Fits := by decide +kernel
  have hroot : knotted.tree.root = some ⟨⟨0, 0⟩⟩ := by decide +kernel
  have hname : knotted.tree.child? ⟨⟨0, 0⟩⟩ (.ofString "g") = some ⟨⟨3, 0⟩⟩ := by decide +kernel
  have hreach : knotted.tree.Reachable ⟨⟨3, 0⟩⟩ := ⟨_, hroot, .single ⟨_, hname⟩⟩
  have hpath : (knotted.tree.resolvePath ⟨⟨3, 0⟩⟩).components = .root :: [.ofString "a",
      .ofString "b", .ofString "a", .ofString "b", .ofString "f"].map .name := by decide +kernel
  refine ⟨unhindered_knotted, fits, hreach, by decide +kernel, ?_,
    unhindered_knotted.path_leads fits hreach⟩
  rw [Tree.leadsAlong_iff hpath]
  decide +kernel

end Tracker

end TreeWatch

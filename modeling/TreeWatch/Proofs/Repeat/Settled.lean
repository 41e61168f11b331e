import TreeWatch.Proofs.Garbage.Sweep
import TreeWatch.Proofs.Repeat.Idle

/-!
# Names that need not be dealt with again

What a scan has done to a name is not undone later on, neither by the rest of the scan nor by what is
scanned below. So if the same is done again at any later time, it finds nothing to do.

## Main definitions

- `View.Enters` : a name leads to the record of a directory with an inode number
- `Tracker.Beyond` : work has been done, and it has left no stray
- `Tracker.Settled` : from a state on, whatever else is done, a scan rests
- `Tracker.Poised` : the circumstances in which scans settle
- `Tracker.Tidied` : a listed name need not be dealt with again

## Main results

- `Tracker.Tidied.rests` : a tidied name is found to be in order
- `Tracker.settles_reconcile`, `Tracker.settles_reconcileAll` : dealing with listed names tidies them

## Design notes

A scan that rests need not do the same as it did before: a name that was opened may be taken for unchanged
the next time. Therefore what has been achieved is told by states, and not by comparing runs.
-/

namespace TreeWatch

namespace View

variable {d : Disk} {present : Serial → Prop} {v v' : View} {p : InodeId} {s c : Serial} {name : Bytes}
  {ino : UInt64}

/-- The name leads to the record of a directory with the inode number. -/
def Enters (v : View) (p : InodeId) (name : Bytes) (ino : UInt64) : Prop :=
  ∃ j x, v.child p name = some j ∧ v.identity j = some x ∧ x.1.ino = ino ∧ x.1.kind = .directory

/-- A name that scans pass over leads nowhere where it did not lead before. -/
theorem Updates.enters_back (hd : d.Distinguishes present) (h : Updates d present v v')
    (hv' : v'.Truthful d) (hp : v'.Holds d p s) (hc : d.child? s name = some c)
    (hsize : d.Oversized c) (henters : v'.Enters p name ino) : v.Enters p name ino := by
  obtain ⟨j, x, hj, hx, hino, hkind⟩ := henters
  rcases Updates.child hd h hj with ⟨hold, hback⟩ | ⟨s', o, hp', -, htends, ho, -⟩
  · obtain ⟨o, ho⟩ := hv' j x hx
    obtain ⟨a, n, ha, hn, hainos, hamode⟩ := hback j (.inr rfl) o ho
    obtain ⟨a', n', ha', hn', hino', hmode'⟩ := ho
    cases hn.symm.trans hn'
    cases ha'.symm.trans hx
    refine ⟨j, _, hold, ha, hainos.trans (hino'.symm.trans hino), ?_⟩
    rw [Attributes.kind, hamode, ← hmode']
    exact hkind
  · obtain rfl := hp.serial_eq hd.regular hp'
    rcases htends.2 with hpseudo | hskips
    · rw [hd.regular.bound_proper hc] at hpseudo
      cases hpseudo
    · rw [Disk.Skips, hc] at hskips
      exact absurd hsize hskips

/-- The root goes on to be the record of the number of the root of the disk. -/
theorem Update.rootIs (h : Update d present v v')
    (hv : v.RootIs (d.inoAt Disk.rootSerial)) : v'.RootIs (d.inoAt Disk.rootSerial) := by
  cases h with
  | insert hunused _ _ _ => exact hv.insert hunused.identity _ _
  | replace _ _ _ hunused _ _ => exact (hv.destroy _).insert hunused.identity _ _
  | refresh _ _ => exact hv.refresh _ _
  | bind _ _ _ _ _ => exact hv
  | unbind _ _ _ _ => exact hv
  | root hi =>
    rintro r ⟨⟩
    obtain ⟨a, n, ha, hn, hino, -⟩ := hi
    exact ⟨_, ha, hino.trans (Disk.inoAt_eq hn).symm⟩

theorem Updates.rootIs (h : Updates d present v v') (hv : v.RootIs (d.inoAt Disk.rootSerial)) :
    v'.RootIs (d.inoAt Disk.rootSerial) :=
  Updates.keep (P := fun v => v.RootIs (d.inoAt Disk.rootSerial)) (fun hstep => hstep.rootIs) h hv

/-- Where no inode number leads to the record of another object, a number tells where a name leads. -/
theorem Fresh.agrees (h : v.Fresh d present) (hd : d.Distinguishes present) (hv : v.Truthful d)
    (hc : d.child? s name = some c) (hleads : v.Leads p name (d.inoAt c)) : v.Agrees d p s name := by
  obtain ⟨j, x, hj, hx, hino⟩ := hleads
  obtain ⟨o, ho⟩ := hv j x hx
  obtain rfl := h j o c ho (hd.of_child? hc) ((ho.ino_eq hx).symm.trans hino)
  exact (agrees_of_some hc).2 ⟨j, hj, ho⟩

end View

namespace Tracker

open View

variable {σ ε α : Type} {fs : Filesystem σ Serial} {d : Disk} {present : Serial → Prop}
  {strict recursive : Bool} {w w' w'' : Tracker σ} {s o : Serial} {p : InodeId} {name : Bytes}
  {e : ListedEntry} {scanBelow : ScanBelow σ Serial}

/-! ### What lasts -/

/-- Work has been done, and no record is stray that was not stray before. -/
structure Beyond (d : Disk) (present : Serial → Prop) (w w' : Tracker σ) : Prop
    extends Worked d present w w' where
  strays : ∀ i, w'.tree.Stray i → w.tree.Stray i

theorem Beyond.trans (h : Beyond d present w w') (h' : Beyond d present w' w'') :
    Beyond d present w w'' :=
  ⟨h.toWorked.trans h'.toWorked, fun i hi => h.strays i (h'.strays i hi)⟩

theorem Still.beyond (h : Still w w') (hsound : w.tree.Sound) : Beyond d present w w' := by
  obtain ⟨hfiles, htree, -⟩ := h
  exact ⟨⟨hfiles, htree ▸ hsound, htree ▸ .refl⟩, htree ▸ fun _ => id⟩

/-- From `w` on, whatever else is done, the scan rests. -/
def Settled (d : Disk) (present : Serial → Prop) (x : Track σ ScanError ScanSummary)
    (w : Tracker σ) : Prop :=
  ∀ w', Beyond d present w w' → Rests x w'

theorem Settled.later {x : Track σ ScanError ScanSummary} (h : Settled d present x w)
    (hlater : Beyond d present w w') : Settled d present x w' :=
  fun w'' hw'' => h w'' (hlater.trans hw'')

/-- The tracker can begin to work, the root is where it should be, and unless the scan is strict no inode
number leads to the record of another object. -/
structure Poised (fs : Filesystem σ Serial) (strict : Bool) (d : Disk) (present : Serial → Prop)
    (w : Tracker σ) : Prop extends Ready fs d w where
  root : w.tree.view.RootIs (d.inoAt Disk.rootSerial)
  fresh : strict = false → w.tree.view.Fresh d present

namespace Poised

theorem after (h : Poised fs strict d present w) (hd : d.Distinguishes present)
    (hwork : Worked d present w w') : Poised fs strict d present w' where
  toReady := h.toReady.after hwork
  root := Updates.rootIs hwork.updates h.root
  fresh hstrict := Updates.fresh hd hwork.updates (h.fresh hstrict)

theorem leases (h : Poised fs strict d present w) (leases : Leases) :
    Poised fs strict d present { w with leases } :=
  ⟨h.toReady.leases leases, h.root, h.fresh⟩

theorem standing (h : Poised fs strict d present w) :
    Standing (fun _ => True) (d.inoAt Disk.rootSerial) w :=
  ⟨trivial, h.sound, h.root⟩

end Poised

/-- What a computation achieves, together with what it leaves stray. -/
theorem Does.swept {good : Prop} {x : Track σ ε α} {Q : α → Tracker σ → Prop}
    {post : α → InodeId → Prop} {number : UInt64} (h : Does x w good Q)
    (hx : Sweeps (fun _ => True) (fun _ _ => True) number x nothing post)
    (hw : Standing (fun _ => True) number w) :
    Does x w good fun a w' => Q a w' ∧ ∀ i, w'.tree.Stray i → post a i ∨ w.tree.Stray i := by
  intro fits
  have hrun := h fits
  have hstrays := fun a => hx.strays w a hw fits
  generalize x.run w = outcome at *
  obtain ⟨r, w'⟩ := outcome
  cases r with
  | error e => exact hrun
  | ok a => exact ⟨hrun, fun i hi => (hstrays a rfl i hi).imp_right And.left⟩

/-! ### Listed names -/

/-- A listed name need not be dealt with again: it is right, its record says what the disk says if the
name will be opened, and a directory that will be scanned is settled. Scans that are not strict go into a
directory even if its token is too large, when the name leads to the record of another one. -/
structure Tidied (strict : Bool) (d : Disk) (present : Serial → Prop) (scanBelow : ScanBelow σ Serial)
    (recursive : Bool) (p : InodeId) (s : Serial) (e : ListedEntry) (w : Tracker σ) : Prop where
  right : ∀ o, d.child? s e.name = some o → ¬d.Oversized o → w.tree.view.Agrees d p s e.name ∧
    (strict = true ∨ e.ino ≠ d.inoAt o → ∃ i, w.tree.view.Current d i o)
  below : recursive = true → ∀ o, d.child? s e.name = some o → d.isDirectory o →
    (d.Oversized o → strict = false ∧ w.tree.view.Enters p e.name e.ino) →
    Settled d present (scanBelow o true) w

theorem Tidied.later (hd : d.Distinguishes present) (hs : present s) (hp : w.tree.view.Holds d p s)
    (htruthful : w'.tree.view.Truthful d)
    (h : Tidied strict d present scanBelow recursive p s e w) (hlater : Beyond d present w w') :
    Tidied strict d present scanBelow recursive p s e w' where
  right o ho hsize := by
    obtain ⟨hagrees, hcurrent⟩ := h.right o ho hsize
    refine ⟨Updates.agrees hd hlater.updates hs hp hagrees, fun hopened => ?_⟩
    obtain ⟨i, hi⟩ := hcurrent hopened
    exact ⟨i, Updates.current hd.regular hlater.updates (hd.of_child? ho) hi⟩
  below hrecursive o ho hodir hlarge := by
    have hp' := Updates.holds hd.regular hlater.updates hs hp
    refine (h.below hrecursive o ho hodir fun hsize => ?_).later hlater
    obtain ⟨hstrict, henters⟩ := hlarge hsize
    exact ⟨hstrict, Updates.enters_back hd hlater.updates htruthful hp' ho hsize henters⟩

/-- A tidied name is found to be in order. -/
theorem Tidied.rests (hw : Ready fs d w) (hdir : d.isDirectory s)
    (h : Tidied strict d present scanBelow recursive p s e w) :
    Rests (reconcile fs strict scanBelow s p recursive e) w := by
  have hbeyond : ∀ {w'}, Still w w' → Beyond d present w w' := fun hstill => hstill.beyond hw.sound
  have hopened : (∀ o, d.child? s e.name = some o → ¬d.Oversized o →
      strict = true ∨ e.ino ≠ d.inoAt o) → Rests (reopen fs scanBelow s p recursive e.name) w := by
    intro hreason
    refine rests_reopen hw hdir (fun o ho hsize => ?_) fun hrecursive o ho hodir hsize w' hstill => ?_
    · obtain ⟨hagrees, hcurrent⟩ := h.right o ho hsize
      obtain ⟨i, hi⟩ := hcurrent (hreason o ho hsize)
      obtain ⟨j, hj, hholds⟩ := (agrees_of_some ho).1 hagrees
      obtain rfl := hw.sound.eq_of_holds hi.holds hholds
      exact ⟨i, hj, hi⟩
    · exact h.below hrecursive o ho hodir (fun hlarge => absurd hlarge hsize) w' (hbeyond hstill)
  unfold reconcile
  refine .step (run_look _ w) (.refl w) ?_
  cases hunchanged : ((w.tree.child? p e.name).bind w.tree.record?).filter (·.ino = e.ino) with
  | none =>
    refine hopened fun o ho hsize => .inr fun hino => ?_
    -- a right name would have been taken for unchanged
    obtain ⟨j, hj, hholds⟩ := (agrees_of_some ho).1 (h.right o ho hsize).1
    obtain ⟨r, hr⟩ := Tree.exists_record?_of_holds hholds
    have hsame : r.ino = d.inoAt o := hholds.ino_eq (Tree.identity?_eq_some_iff.2 ⟨r, hr, rfl⟩)
    rw [Tree.view_child] at hj
    rw [hj, Option.bind_some, hr, Option.filter_some, hsame, hino] at hunchanged
    simp at hunchanged
  | some r =>
    cases strict with
    | true => exact hopened fun _ _ _ => .inl rfl
    | false =>
      obtain ⟨hbound, hino⟩ := Option.filter_eq_some_iff.1 hunchanged
      obtain ⟨j, hj, hr⟩ := Option.bind_eq_some_iff.1 hbound
      simp only [Bool.false_eq_true, if_false]
      split
      · next hgo =>
        obtain ⟨hrecursive, hrdir⟩ := (Bool.and_eq_true _ _).mp hgo
        have henters : w.tree.view.Enters p e.name e.ino :=
          ⟨j, r.identity, hj, Tree.identity?_eq_some_iff.2 ⟨r, hr, rfl⟩, of_decide_eq_true hino,
            (hw.sound.directory_iff hr).1 hrdir⟩
        refine .bind (rests_descend hw hdir fun o ho hodir w' hstill => ?_) fun a w₁ ha _ => ?_
        · exact h.below hrecursive o ho hodir (fun _ => ⟨rfl, henters⟩) w' (hbeyond hstill)
        · exact .pure (ScanSummary.changed_add rfl ha)
      · exact .pure rfl

/-- The function scans directories, and the same scan rests at any later time. -/
structure SettlesBelow (fs : Filesystem σ Serial) (strict : Bool) (d : Disk) (present : Serial → Prop)
    (scanBelow : ScanBelow σ Serial) : Prop where
  tame : ∀ c recursive, Tame (scanBelow c recursive)
  does : ∀ {c recursive} {w : Tracker σ}, present c → d.isDirectory c → Poised fs strict d present w →
    Does (scanBelow c recursive) w False fun _ w' =>
      Beyond d present w w' ∧ Settled d present (scanBelow c recursive) w'

/-- What is sincere of a listing stays so when its first name has been dealt with. -/
theorem Poised.sincere_tail {rest : List ListedEntry} (hd : d.Distinguishes present)
    (hw : Poised fs strict d present w) (hstrict : strict = false) (hp : w.tree.view.Holds d p s)
    (hs : present s) (h : Sincere d w.tree.view p s (e :: rest)) (hwork : Worked d present w w')
    (hright : ∀ o, d.child? s e.name = some o → ¬d.Oversized o → w'.tree.view.Agrees d p s e.name) :
    Sincere d w'.tree.view p s rest := by
  intro e' he' o ho hsize
  by_cases hsame : e.name = e'.name
  · rw [← hsame] at ho ⊢
    exact .inr ((hright o ho hsize).leads ho)
  · refine (h e' (List.mem_cons_of_mem _ he') o ho hsize).imp ?_ fun hleads => ?_
    · rw [List.find?_cons_of_neg (by simpa using hsame)]
      exact id
    · have hagrees := (hw.fresh hstrict).agrees hd hw.truthful ho hleads
      exact (Updates.agrees hd hwork.updates hs hp hagrees).leads ho

section names

variable (hd : d.Distinguishes present) (hbelow : SettlesBelow fs strict d present scanBelow)
  (hw : Poised fs strict d present w) (hp : w.tree.view.Holds d p s) (hs : present s)
  (hdir : d.isDirectory s)
include hd hbelow hw hdir

/-- The directory behind a name that is taken for unchanged. -/
theorem settles_descend (name : Bytes) :
    Does (descend fs scanBelow s name) w False fun _ w' => Beyond d present w w' ∧
      ∀ o, d.child? s name = some o → d.isDirectory o → Settled d present (scanBelow o true) w' := by
  obtain ⟨leases, hdescend⟩ := run_descend scanBelow hw.plain hdir name
  have hopened : Beyond d present w { w with leases } := (Still.leases w leases).beyond hw.sound
  unfold Does
  rw [hdescend]
  cases hchild : d.child? s name with
  | none => exact fun _ => ⟨hopened, fun o ho => by cases ho⟩
  | some o =>
    by_cases hodir : d.isDirectory o
    · have hscan : Does (scanBelow o true) { w with leases } False fun _ w' =>
          Beyond d present w w' ∧ ∀ o', some o = some o' → d.isDirectory o' →
            Settled d present (scanBelow o' true) w' := by
        refine (hbelow.does (hd.of_child? hchild) hodir (hw.leases leases)).mono ?_
        rintro _ w' ⟨hbeyond, hsettled⟩
        refine ⟨hopened.trans hbeyond, ?_⟩
        rintro o' ⟨⟩ -
        exact hsettled
      simp only [hodir, if_true]
      exact hscan
    · simp only [hodir]
      refine fun _ => ⟨hopened, ?_⟩
      rintro o' ⟨⟩ hodir'
      exact absurd hodir' hodir

include hp hs

/-- A name that is opened. -/
theorem settles_reopen (hsmall : ¬d.Oversized s) (name : Bytes) :
    Does (reopen fs scanBelow s p recursive name) w False fun _ w' => Beyond d present w w' ∧
      ∀ o, d.child? s name = some o → ¬d.Oversized o →
        (w'.tree.view.Agrees d p s name ∧ ∃ i, w'.tree.view.Current d i o) ∧
        (recursive = true → d.isDirectory o → Settled d present (scanBelow o true) w') := by
  obtain ⟨leases, hopen⟩ := hw.plain.run_openChild hdir name
  have hopened : Beyond d present w { w with leases } := (Still.leases w leases).beyond hw.sound
  have hw₀ := hw.leases leases
  unfold reopen
  refine .step (by rw [run_wrapping, hopen]) ?_
  cases hchild : d.child? s name with
  | none =>
    refine .step (run_note _ _) (.pure ⟨hopened.trans ((Still.noted _ _).beyond hw.sound), ?_⟩)
    rintro o ⟨⟩
  | some o =>
    have ho : present o := hd.of_child? hchild
    have hbinds := (does_bindObject hd hw₀.toReady hp hs hdir hsmall hchild recursive).swept
      (sweeps_bindObject fs.vouches_trivial p name recursive o) hw₀.standing
    have hbound : Does _ _ False _ := hbinds.weaken fun _ => trivial
    refine .bind (P := fun r w₁ => Bound d present p s name o recursive w r.2 w₁ ∧
        Beyond d present w w₁) (hbound.releasing ?_) ?_ ?_
    · rintro r w₁ after ⟨hbound, hstrays⟩
      have hafter : Bound d present p s name o recursive w r.2 { w₁ with leases := after } :=
        hbound.leases
      exact ⟨hafter, hafter.toWorked, fun i hi => (hstrays i hi).resolve_left id⟩
    · rintro ⟨summary, next⟩
      cases next with
      | none => exact .pure _
      | some handle => exact .bind (hbelow.tame _ _) fun _ => .pure _
    rintro ⟨summary, next⟩ w₁ ⟨hbound, hbeyond⟩
    cases next with
    | none =>
      refine .pure ⟨hbeyond, ?_⟩
      rintro o' ⟨⟩ hsize
      refine ⟨hbound.right hsize, fun hrecursive hodir => ?_⟩
      cases hbound.explored hodir hsize (.inl hrecursive)
    | some handle =>
      obtain ⟨rfl, hodir⟩ := hbound.next_eq handle rfl
      have hp₁ := Updates.holds hd.regular hbound.updates hs hp
      refine .bind (hbelow.does ho hodir (hw.after hd hbound.toWorked)) (fun _ => .pure _) ?_
      rintro _ w₂ ⟨hbeyond', hsettled⟩
      refine .pure ⟨hbeyond.trans hbeyond', ?_⟩
      rintro o' ⟨⟩ hsize
      obtain ⟨hagrees, i, hi⟩ := hbound.right hsize
      refine ⟨⟨Updates.agrees hd hbeyond'.updates hs hp₁ hagrees, i, ?_⟩, ?_⟩
      · exact Updates.current hd.regular hbeyond'.updates ho hi
      · rintro rfl -
        exact hsettled

/-- A listed name. Unless the scan is strict, it leads to its object already if the number listed is
another one. -/
theorem settles_reconcile (hsmall : ¬d.Oversized s) (e : ListedEntry)
    (hlisted : strict = false → ∀ o, d.child? s e.name = some o → ¬d.Oversized o →
      e.ino = d.inoAt o ∨ w.tree.view.Leads p e.name (d.inoAt o)) :
    Does (reconcile fs strict scanBelow s p recursive e) w False fun _ w' =>
      Beyond d present w w' ∧ Tidied strict d present scanBelow recursive p s e w' := by
  have hopened : (strict = false → ¬w.tree.view.Enters p e.name e.ino) →
      Does (reopen fs scanBelow s p recursive e.name) w False fun _ w' =>
        Beyond d present w w' ∧ Tidied strict d present scanBelow recursive p s e w' := by
    intro hnot
    refine (settles_reopen hd hbelow hw hp hs hdir hsmall e.name).mono ?_
    rintro _ w' ⟨hbeyond, hnames⟩
    have hw' := hw.after hd hbeyond.toWorked
    have hp' := Updates.holds hd.regular hbeyond.updates hs hp
    refine ⟨hbeyond, fun o ho hsize => ?_, fun hrecursive o ho hodir hlarge => ?_⟩
    · obtain ⟨hagrees, hcurrent⟩ := (hnames o ho hsize).1
      exact ⟨hagrees, fun _ => hcurrent⟩
    · by_cases hsize : d.Oversized o
      · -- the name would have been taken for unchanged
        obtain ⟨hstrict, henters⟩ := hlarge hsize
        exact absurd (Updates.enters_back hd hbeyond.updates hw'.truthful hp' ho hsize henters)
          (hnot hstrict)
      · exact (hnames o ho hsize).2 hrecursive hodir
  unfold reconcile
  refine .step (run_look _ w) ?_
  cases hunchanged : ((w.tree.child? p e.name).bind w.tree.record?).filter (·.ino = e.ino) with
  | none =>
    refine hopened fun _ henters => ?_
    obtain ⟨j, x, hj, hx, hino, -⟩ := henters
    obtain ⟨r, hr, rfl⟩ := Tree.identity?_eq_some_iff.1 hx
    have hsame : r.ino = e.ino := hino
    rw [Tree.view_child] at hj
    rw [hj, Option.bind_some, hr, Option.filter_some, hsame] at hunchanged
    simp at hunchanged
  | some r =>
    cases strict with
    | true => exact hopened fun hfalse => by cases hfalse
    | false =>
      obtain ⟨hbound, hino⟩ := Option.filter_eq_some_iff.1 hunchanged
      obtain ⟨j, hj, hr⟩ := Option.bind_eq_some_iff.1 hbound
      rw [decide_eq_true_eq] at hino
      have hidentity : w.tree.view.identity j = some r.identity :=
        Tree.identity?_eq_some_iff.2 ⟨r, hr, rfl⟩
      -- the number is that of the object, whichever is listed
      have hagrees : ∀ o, d.child? s e.name = some o → ¬d.Oversized o →
          w.tree.view.Agrees d p s e.name ∧ e.ino = d.inoAt o := by
        intro o ho hsize
        have hsame : e.ino = d.inoAt o := by
          refine (hlisted rfl o ho hsize).elim id fun hleads => ?_
          obtain ⟨j', x, hj', hx, hleads⟩ := hleads
          cases hj.symm.trans hj'
          cases hidentity.symm.trans hx
          exact hino.symm.trans hleads
        exact ⟨(hw.fresh rfl).agrees hd hw.truthful ho ⟨j, _, hj, hidentity, hino.trans hsame⟩, hsame⟩
      have hright : ∀ {w' : Tracker σ}, Beyond d present w w' → ∀ o, d.child? s e.name = some o →
          ¬d.Oversized o → w'.tree.view.Agrees d p s e.name ∧
            (false = true ∨ e.ino ≠ d.inoAt o → ∃ i, w'.tree.view.Current d i o) := by
        intro w' hbeyond o ho hsize
        obtain ⟨hname, hsame⟩ := hagrees o ho hsize
        refine ⟨Updates.agrees hd hbeyond.updates hs hp hname, fun hreason => ?_⟩
        exact absurd hsame (hreason.resolve_left Bool.false_ne_true)
      simp only [Bool.false_eq_true, if_false]
      split
      · refine .bind (settles_descend hd hbelow hw hdir e.name) (fun _ => .pure _) ?_
        rintro _ w' ⟨hbeyond, hsettled⟩
        exact .pure ⟨hbeyond, hright hbeyond, fun _ o ho hodir _ => hsettled o ho hodir⟩
      · next hstay =>
        have hbeyond : Beyond d present w w := (Still.refl w).beyond hw.sound
        refine .pure ⟨hbeyond, hright hbeyond, fun hrecursive o ho hodir hlarge => ?_⟩
        -- the record is one of a directory, so the scan would have gone down
        refine absurd ((Bool.and_eq_true _ _).mpr ⟨hrecursive, ?_⟩) hstay
        by_cases hsize : d.Oversized o
        · obtain ⟨j', x, hj', hx, -, hkind⟩ := (hlarge hsize).2
          cases hj.symm.trans hj'
          cases hidentity.symm.trans hx
          exact (hw.sound.directory_iff hr).2 hkind
        · obtain ⟨j', hj', hholds⟩ := (agrees_of_some ho).1 (hagrees o ho hsize).1
          cases hj.symm.trans hj'
          exact (hw.sound.isDirectory_iff hd.regular hholds hr).2 hodir

/-- Listed names. -/
theorem settles_reconcileAll (hsmall : ¬d.Oversized s) {listing : List ListedEntry}
    (hlisting : strict = false → Sincere d w.tree.view p s listing) :
    Does (reconcileAll fs strict scanBelow s p recursive listing) w False fun _ w' =>
      Beyond d present w w' ∧
        ∀ e ∈ listing, Tidied strict d present scanBelow recursive p s e w' := by
  induction listing generalizing w with
  | nil => exact .pure ⟨(Still.refl w).beyond hw.sound, fun e he => absurd he List.not_mem_nil⟩
  | cons e rest ih =>
    have htame := editsOnly_reconcileAll fs.vouches_trivial strict hbelow.tame s p recursive rest
      fun _ _ => trivial
    refine .bind (settles_reconcile hd hbelow hw hp hs hdir hsmall e fun hstrict =>
      (hlisting hstrict).head) (fun _ => .bind htame fun _ => .pure _) ?_
    rintro _ w₁ ⟨hbeyond, htidied⟩
    have hw₁ := hw.after hd hbeyond.toWorked
    have hp₁ := Updates.holds hd.regular hbeyond.updates hs hp
    refine .bind (ih hw₁ hp₁ fun hstrict => ?_) (fun _ => .pure _) ?_
    · exact hw.sincere_tail hd hstrict hp hs (hlisting hstrict) hbeyond.toWorked
        fun o ho hsize => (htidied.right o ho hsize).1
    rintro _ w₂ ⟨hbeyond', hrest⟩
    refine .pure ⟨hbeyond.trans hbeyond', fun e' he' => ?_⟩
    rcases List.mem_cons.1 he' with rfl | hmem
    · exact htidied.later hd hs hp₁ (hw₁.toReady.after hbeyond'.toWorked).truthful hbeyond'
    · exact hrest e' hmem

end names

end Tracker

end TreeWatch

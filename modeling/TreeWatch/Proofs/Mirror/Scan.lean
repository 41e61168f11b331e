import TreeWatch.Proofs.Mirror.Listing

/-!
# Scanning a plain disk

What a scan achieves that gives a result, and that it does give one if directories can be listed.

## Main definitions

- `Tracker.DidNames` : listed names have been brought up to date
- `Tracker.DidScan` : a directory has been scanned
- `Tracker.ScansBelow` : a function that scans directories, down to a depth

## Main results

- `Tracker.does_reconcileAll` : going through a listing
- `Tracker.does_scanDirectory`, `Tracker.scansBelow_scanWithin` : scanning a directory
- `Tracker.does_scan`, `Tracker.does_scanRoot`

## Design notes

What is said of a name holds at the end of the scan, not only when the name was dealt with: all that
happens later are updates, and what a scan has made of a name outlives them.
-/

namespace TreeWatch.Tracker

open View

variable {σ : Type} {fs : Filesystem σ Serial} {d : Disk} {present : Serial → Prop}
  {strict recursive : Bool} {w w' w'' : Tracker σ} {p : InodeId} {s : Serial} {good : Prop}
  {depth : Nat} {scanBelow : ScanBelow σ Serial}

/-- A directory has been scanned. -/
structure DidScan (strict : Bool) (d : Disk) (present : Serial → Prop) (recursive : Bool)
    (s : Serial) (w w' : Tracker σ) : Prop extends Worked d present w w' where
  scanned : ¬d.Oversized s → Scanned strict d w.tree.view w'.tree.view s
  explored : Explored strict d present w.tree.view w'.tree.view
  below : recursive = true → w.tree.view.Calm strict d present →
    ∀ c, d.Below s c → Scanned strict d w.tree.view w'.tree.view c
  met : ∀ c, w'.tree.view.Held d c →
    d.Met present (fun x => w.tree.view.Held d x ∨ x = s ∧ ¬d.Oversized s) c

/-- Listed names of a directory have been brought up to date. A name may be listed with the inode
number of another object; nothing is said of it then. -/
structure DidNames (strict : Bool) (d : Disk) (present : Serial → Prop) (recursive : Bool)
    (p : InodeId) (s : Serial) (listing : List ListedEntry) (w w' : Tracker σ) : Prop
    extends Worked d present w w' where
  done : ∀ e ∈ listing, ∀ c, d.child? s e.name = some c → e.ino = d.inoAt c → ¬d.Oversized c →
    Done strict d w.tree.view w'.tree.view p s e.name ∧
      (strict = true → ∃ j, w'.tree.view.Current d j c)
  explored : Explored strict d present w.tree.view w'.tree.view
  below : recursive = true → w.tree.view.Calm strict d present →
    ∀ e ∈ listing, ∀ c, d.child? s e.name = some c → e.ino = d.inoAt c → d.isDirectory c →
      ∀ x, d.Below c x → Scanned strict d w.tree.view w'.tree.view x
  met : ∀ c, w'.tree.view.Held d c → d.Met present (w.tree.view.Held d) c

/-- Down to a depth, the function scans directories, and it does not fail if they can be listed. -/
structure ScansBelow (fs : Filesystem σ Serial) (strict : Bool) (d : Disk) (present : Serial → Prop)
    (depth : Nat) (scanBelow : ScanBelow σ Serial) : Prop where
  tame : ∀ c recursive, Tame (scanBelow c recursive)
  does : ∀ {c recursive} {w : Tracker σ} {good : Prop}, present c → d.isDirectory c →
    Ready fs d w → (good → d.Listable present ∧ d.Shallow depth c) →
    Does (scanBelow c recursive) w good fun _ w' => DidScan strict d present recursive c w w'

theorem Ready.didNames_nil (h : Ready fs d w) :
    DidNames strict d present recursive p s [] w w :=
  ⟨h.worked, by simp, .refl, by simp, fun _ => .start⟩

/-- Dealing with one name and then with the others. -/
theorem DidNames.cons (hd : d.Distinguishes present) {e : ListedEntry} {rest : List ListedEntry}
    (hs : present s) (hp : w.tree.view.Holds d p s)
    (h : DidNames strict d present recursive p s [e] w w')
    (h' : DidNames strict d present recursive p s rest w' w'') :
    DidNames strict d present recursive p s (e :: rest) w w'' := by
  have hp' : w'.tree.view.Holds d p s := h.updates.holds hd.regular hs hp
  refine ⟨h.toWorked.trans h'.toWorked, ?_, ?_, ?_, fun c hc => (h'.met c hc).trans h.met⟩
  · intro e' he' c hc hino hsize
    rcases List.mem_cons.1 he' with rfl | hrest
    · obtain ⟨hdone, hcurrent⟩ := h.done e' (List.mem_singleton_self e') c hc hino hsize
      refine ⟨hdone.mono hd h'.updates hs hp', fun hstrict => ?_⟩
      obtain ⟨j, hj⟩ := hcurrent hstrict
      exact ⟨j, h'.updates.current hd.regular (hd.of_child? hc) hj⟩
    · obtain ⟨hdone, hcurrent⟩ := h'.done e' hrest c hc hino hsize
      exact ⟨hdone.of_later hd h.updates, hcurrent⟩
  · exact h.explored.trans hd h.updates h'.explored h'.updates
  · intro hrecursive hcalm e' he' c hc hino hdir x hx
    rcases List.mem_cons.1 he' with rfl | hrest
    · have hpresent : present x := hd.of_below (hd.of_child? hc) hx
      exact (h.below hrecursive hcalm e' (List.mem_singleton_self e') c hc hino hdir x hx).mono hd
        h'.updates hpresent
    · exact (h'.below hrecursive (h.updates.calm hd hcalm) e' hrest c hc hino hdir x hx).of_later hd
        h.updates

/-- Nothing is to be said of what happened before a scan, if it only found the directory. -/
theorem DidScan.of_later (hd : d.Distinguishes present) {w₁ : Tracker σ}
    (h : DidScan strict d present recursive s w₁ w') (hwork : Worked d present w w₁)
    (hheld : ∀ c, w₁.tree.view.Held d c → w.tree.view.Held d c ∨ c = s) (hsize : ¬d.Oversized s) :
    DidScan strict d present recursive s w w' := by
  have hscanned := (h.scanned hsize).of_later hd hwork.updates
  refine ⟨hwork.trans h.toWorked, fun _ => hscanned, ?_, ?_, ?_⟩
  · intro c hc hdir hlast
    rcases h.explored c hc hdir hlast with hmid | hlater
    · rcases hheld c hmid with hold | rfl
      · exact .inl hold
      · exact .inr hscanned
    · exact .inr (hlater.of_later hd hwork.updates)
  · intro hrecursive hcalm c hc
    exact (h.below hrecursive (hwork.updates.calm hd hcalm) c hc).of_later hd hwork.updates
  · refine fun c hc => (h.met c hc).trans fun x hx => .start ?_
    rcases hx with hmid | hself
    · exact (hheld x hmid).imp_right fun heq => ⟨heq, hsize⟩
    · exact .inr hself

/-! ### Names -/

/-- The object of a name that has been bound may have got a record by it. -/
theorem Bound.met {name : Bytes} {o c : Serial} {next : Option Serial} (hs : present s)
    (hp : w.tree.view.Holds d p s) (hsmall : ¬d.Oversized s)
    (h : Bound d present p s name o recursive w next w') (hchild : d.child? s name = some o)
    (hc : w'.tree.view.Held d c ∨ c = o ∧ ¬d.Oversized o) : d.Met present (w.tree.view.Held d) c := by
  have hnew : ¬d.Oversized o → d.Met present (w.tree.view.Held d) o := fun hsize =>
    .name (.start ⟨p, hp⟩) hs (Disk.tends_of_child? hsmall hchild hsize) hchild
  rcases hc with hheld | ⟨rfl, hsize⟩
  · rcases h.held c hheld with hold | ⟨rfl, hsize⟩
    · exact .start hold
    · exact hnew hsize
  · exact hnew hsize

/-- A name has been bound and there is nothing below that has to be scanned. -/
theorem Bound.didNames (hd : d.Distinguishes present) {listed : ListedEntry} {o : Serial}
    (hs : present s) (hp : w.tree.view.Holds d p s) (hsmall : ¬d.Oversized s)
    (h : Bound d present p s listed.name o recursive w none w')
    (hchild : d.child? s listed.name = some o) :
    DidNames strict d present recursive p s [listed] w w' := by
  refine ⟨h.toWorked, ?_, ?_, ?_, fun c hc => h.met hs hp hsmall hchild (.inl hc)⟩
  · intro e he c hc _ hsize
    rw [List.mem_singleton.1 he] at hc ⊢
    rw [hchild] at hc
    cases hc
    obtain ⟨hright, hcurrent⟩ := h.right hsize
    exact ⟨.inl hright, fun _ => hcurrent⟩
  · intro c _ hdir hc
    by_cases hold : w.tree.view.Held d c
    · exact .inl hold
    · -- a new directory would have been handed on
      obtain ⟨rfl, hsize⟩ := (h.held c hc).resolve_left hold
      cases h.explored hdir hsize (.inr hold)
  · intro hrecursive hcalm e he c hc _ hdir
    rw [List.mem_singleton.1 he, hchild] at hc
    cases hc
    have hsize := hcalm.1.not_oversized (hd.of_child? hchild)
    cases h.explored hdir hsize (.inl hrecursive)

/-- A name has been bound, and the directory that it leads to has been scanned. -/
theorem Bound.didNames_of_didScan (hd : d.Distinguishes present) {listed : ListedEntry}
    {o : Serial} {next : Option Serial} (hs : present s) (hp : w.tree.view.Holds d p s)
    (hsmall : ¬d.Oversized s) (h : Bound d present p s listed.name o recursive w next w')
    (hchild : d.child? s listed.name = some o) (hscan : DidScan strict d present recursive o w' w'') :
    DidNames strict d present recursive p s [listed] w w'' := by
  have hp' : w'.tree.view.Holds d p s := h.updates.holds hd.regular hs hp
  refine ⟨h.toWorked.trans hscan.toWorked, ?_, ?_, ?_,
    fun c hc => (hscan.met c hc).trans fun _ => h.met hs hp hsmall hchild⟩
  · intro e he c hc _ hsize
    rw [List.mem_singleton.1 he] at hc ⊢
    rw [hchild] at hc
    cases hc
    obtain ⟨hright, j, hj⟩ := h.right hsize
    refine ⟨.inl (hscan.updates.agrees hd hs hp' hright), fun _ => ⟨j, ?_⟩⟩
    exact hscan.updates.current hd.regular (hd.of_child? hchild) hj
  · intro c hpresent hdir hc
    rcases hscan.explored c hpresent hdir hc with hmid | hscanned
    · refine (h.held c hmid).imp_right fun ⟨heq, hsize⟩ => ?_
      subst heq
      exact (hscan.scanned hsize).of_later hd h.updates
    · exact .inr (hscanned.of_later hd h.updates)
  · intro hrecursive hcalm e he c hc _ hdir x hx
    rw [List.mem_singleton.1 he, hchild] at hc
    cases hc
    exact (hscan.below hrecursive (h.updates.calm hd hcalm) x hx).of_later hd h.updates

/-- A name with a record of the right inode number is right or stale. -/
theorem Ready.done_of_ino_eq (hw : Ready fs d w) (hstrict : strict = false)
    (hp : w.tree.view.Holds d p s) {name : Bytes} {j : InodeId} {r : InodeRecord} {c : Serial}
    (hj : w.tree.view.child p name = some j) (hr : w.tree.record? j = some r)
    (hc : d.child? s name = some c) (hino : r.ino = d.inoAt c) :
    Done strict d w.tree.view w.tree.view p s name := by
  have hidentity : w.tree.view.identity j = some r.identity := Tree.identity?_eq_some_iff.2 ⟨r, hr, rfl⟩
  obtain ⟨o, ho⟩ := hw.truthful j _ hidentity
  by_cases heq : o = c
  · subst heq
    exact .inl ((agrees_of_some hc).2 ⟨j, hj, ho⟩)
  · have hsame : d.inoAt o = d.inoAt c := by
      rw [← ho.ino_eq hidentity, ← hino]
      rfl
    have hstale : w.tree.view.Stale d p s name := ⟨hp, j, o, c, hj, ho, hc, hsame, heq⟩
    exact .inr ⟨hstrict, hstale, .inl hstale⟩

/-- In calm circumstances the record of such a name is a directory if the object is. -/
theorem Ready.isDirectory_of_ino_eq (hd : d.Distinguishes present) (hw : Ready fs d w)
    (hstrict : strict = false) (hcalm : w.tree.view.Calm strict d present)
    (hp : w.tree.view.Holds d p s) {name : Bytes} {j : InodeId} {r : InodeRecord} {c : Serial}
    (hj : w.tree.view.child p name = some j) (hr : w.tree.record? j = some r)
    (hc : d.child? s name = some c) (hino : r.ino = d.inoAt c) :
    r.isDirectory ↔ d.isDirectory c := by
  have hagrees := (hw.done_of_ino_eq hstrict hp hj hr hc hino).agrees hd hcalm.2
  obtain ⟨j', hj', hholds⟩ := (agrees_of_some hc).1 hagrees
  rw [hj] at hj'
  cases hj'
  exact hw.sound.isDirectory_iff hd.regular hholds hr

section names

variable (hd : d.Distinguishes present) (hbelow : ScansBelow fs strict d present depth scanBelow)
  (hw : Ready fs d w) (hp : w.tree.view.Holds d p s) (hs : present s) (hdir : d.isDirectory s)
  (hsmall : ¬d.Oversized s)
  (hgood : good → d.Listable present ∧ ∀ c, d.Subdirectory s c → d.Shallow depth c)
include hd hbelow hw hp hs hdir hsmall hgood

/-- A name that is opened. -/
theorem does_reopen (listed : ListedEntry) :
    Does (reopen fs scanBelow s p recursive listed.name) w good fun _ w' =>
      DidNames strict d present recursive p s [listed] w w' := by
  obtain ⟨leases, hopen⟩ := hw.plain.run_openChild hdir listed.name
  unfold reopen
  refine .step (by rw [run_wrapping, hopen]) ?_
  have hw₀ : Ready fs d { w with leases } := hw.leases leases
  cases hchild : d.child? s listed.name with
  | none =>
    refine .step (run_note _ _) (.pure ⟨⟨rfl, hw.sound, .refl⟩, ?_, .refl, ?_, fun _ => .start⟩)
    · intro e he c hc
      rw [List.mem_singleton.1 he, hchild] at hc
      cases hc
    · intro _ _ e he c hc
      rw [List.mem_singleton.1 he, hchild] at hc
      cases hc
  | some o =>
    have ho : present o := hd.of_child? hchild
    have hbinds := does_bindObject hd hw₀ hp hs hdir hsmall hchild recursive
    have hbound : Does _ _ good _ := hbinds.weaken fun _ => trivial
    refine .bind (P := fun r w₁ => Bound d present p s listed.name o recursive w r.2 w₁)
      (hbound.releasing fun _ _ _ h => h.leases) ?_ ?_
    · rintro ⟨summary, next⟩
      cases next with
      | none => exact .pure _
      | some handle => exact .bind (hbelow.tame _ _) fun _ => .pure _
    rintro ⟨summary, next⟩ w₁ hbound
    cases next with
    | none => exact .pure (hbound.didNames hd hs hp hsmall hchild)
    | some handle =>
      obtain ⟨rfl, hodir⟩ := hbound.next_eq handle rfl
      have hw₁ := hw.after hbound.toWorked
      refine .bind (hbelow.does ho hodir hw₁ fun h => ?_) (fun _ => .pure _) ?_
      · exact ⟨(hgood h).1, (hgood h).2 _ ⟨⟨_, hchild⟩, hodir⟩⟩
      · exact fun _ w₂ hscan => .pure (hbound.didNames_of_didScan hd hs hp hsmall hchild hscan)

/-- The directory behind a name that is taken for unchanged. -/
theorem does_descend (listed : ListedEntry) :
    Does (descend fs scanBelow s listed.name) w good fun _ w' =>
      Worked d present w w' ∧ Explored strict d present w.tree.view w'.tree.view ∧
        (w.tree.view.Calm strict d present → ∀ c, d.child? s listed.name = some c →
          d.isDirectory c → ∀ x, d.Below c x → Scanned strict d w.tree.view w'.tree.view x) ∧
        ∀ c, w'.tree.view.Held d c → d.Met present (w.tree.view.Held d) c := by
  obtain ⟨leases, hchildOpen⟩ := hw.plain.run_openChild hdir listed.name
  unfold descend
  refine .step (by rw [run_wrapping, hchildOpen]) ?_
  have hw₀ : Ready fs d { w with leases } := hw.leases leases
  cases hchild : d.child? s listed.name with
  | none =>
    refine .pure ⟨⟨rfl, hw.sound, .refl⟩, .refl, fun _ c hc => ?_, fun _ => .start⟩
    cases hc
  | some o =>
    have ho : present o := hd.of_child? hchild
    by_cases hodir : d.isDirectory o
    · have hrun := hw₀.plain.run_openDirectory hodir
      refine .step (by rw [run_releasing, run_attempt, hrun]) ?_
      have hw₁ : Ready fs d { w with leases := leases.take.giveBack } := hw.leases _
      have hdeep : good → d.Listable present ∧ d.Shallow depth o :=
        fun h => ⟨(hgood h).1, (hgood h).2 _ ⟨⟨_, hchild⟩, hodir⟩⟩
      refine (hbelow.does ho hodir hw₁ hdeep).mono ?_
      intro _ w' hscan
      refine ⟨⟨hscan.files, hscan.sound, hscan.updates⟩, hscan.explored, fun hcalm c hc _ x hx => ?_,
        fun c hc => (hscan.met c hc).trans fun x hx => ?_⟩
      · cases hc
        exact hscan.below rfl hcalm x hx
      · rcases hx with hheld | ⟨rfl, hsize⟩
        · exact .start hheld
        · exact .name (.start ⟨p, hp⟩) hs (Disk.tends_of_child? hsmall hchild hsize) hchild
    · have hrun := hw₀.plain.run_openDirectory_of_not hodir
      refine .step (by rw [run_releasing, run_attempt, hrun]) ?_
      -- no directory is there any more, and that counts as vanished
      refine .pure ⟨⟨rfl, hw.sound, .refl⟩, .refl, fun _ c hc hcdir => ?_, fun _ => .start⟩
      cases hc
      exact absurd hcdir hodir

/-- A listed name. -/
theorem does_reconcile (listed : ListedEntry) :
    Does (reconcile fs strict scanBelow s p recursive listed) w good fun _ w' =>
      DidNames strict d present recursive p s [listed] w w' := by
  unfold reconcile
  refine .step (run_look _ w) ?_
  cases hunchanged :
      ((w.tree.child? p listed.name).bind w.tree.record?).filter (·.ino = listed.ino) with
  | none => exact does_reopen hd hbelow hw hp hs hdir hsmall hgood listed
  | some r =>
    cases strict with
    | true => exact does_reopen hd hbelow hw hp hs hdir hsmall hgood listed
    | false =>
      obtain ⟨hbound, hino⟩ := Option.filter_eq_some_iff.1 hunchanged
      obtain ⟨j, hj, hr⟩ := Option.bind_eq_some_iff.1 hbound
      rw [decide_eq_true_eq] at hino
      have hdone : ∀ e ∈ [listed], ∀ c, d.child? s e.name = some c → e.ino = d.inoAt c →
          Done false d w.tree.view w.tree.view p s e.name := by
        intro e he c hc hec
        rw [List.mem_singleton.1 he] at hc hec ⊢
        exact hw.done_of_ino_eq rfl hp hj hr hc (hino.trans hec)
      have hkind : w.tree.view.Calm false d present → ∀ c, d.child? s listed.name = some c →
          listed.ino = d.inoAt c → (r.isDirectory ↔ d.isDirectory c) := fun hcalm c hc hec =>
        hw.isDirectory_of_ino_eq hd rfl hcalm hp hj hr hc (hino.trans hec)
      simp only [Bool.false_eq_true, if_false]
      -- the name is taken for unchanged; what is left to do is to go down
      split
      · next hgo =>
        rw [Bool.and_eq_true] at hgo
        refine .bind (does_descend hd hbelow hw hp hs hdir hsmall hgood listed) (fun _ => .pure _) ?_
        rintro _ w' ⟨hwork, hexplored, hscanned, hmet⟩
        refine .pure ⟨hwork, fun e he c hc hec _ => ⟨?_, fun htrue => ?_⟩, hexplored, ?_, hmet⟩
        · exact (hdone e he c hc hec).mono hd hwork.updates hs hp
        · cases htrue
        · intro _ hcalm e he c hc _ hcdir
          rw [List.mem_singleton.1 he] at hc
          exact hscanned hcalm c hc hcdir
      · next hstay =>
        refine .pure ⟨hw.worked, fun e he c hc hec _ => ⟨hdone e he c hc hec, fun htrue => ?_⟩,
          .refl, ?_, fun _ => .start⟩
        · cases htrue
        · intro hrecursive hcalm e he c hc hec hcdir
          rw [List.mem_singleton.1 he] at hc hec
          rw [Bool.and_eq_true] at hstay
          exact absurd ⟨hrecursive, (hkind hcalm c hc hec).2 hcdir⟩ hstay

end names

/-- Listed names, one after another. -/
theorem does_reconcileAll (hd : d.Distinguishes present)
    (hbelow : ScansBelow fs strict d present depth scanBelow) (hw : Ready fs d w)
    (hp : w.tree.view.Holds d p s) (hs : present s) (hdir : d.isDirectory s)
    (hsmall : ¬d.Oversized s)
    (hgood : good → d.Listable present ∧ ∀ c, d.Subdirectory s c → d.Shallow depth c)
    (listing : List ListedEntry) :
    Does (reconcileAll fs strict scanBelow s p recursive listing) w good fun _ w' =>
      DidNames strict d present recursive p s listing w w' := by
  induction listing generalizing w with
  | nil => exact .pure hw.didNames_nil
  | cons listed rest ih =>
    have htame := editsOnly_reconcileAll fs.vouches_trivial strict hbelow.tame s p recursive rest
      fun _ _ => trivial
    refine .bind (does_reconcile hd hbelow hw hp hs hdir hsmall hgood listed)
      (fun _ => .bind htame fun _ => .pure _) ?_
    intro _ w₁ hfirst
    have hp₁ := hfirst.updates.holds hd.regular hs hp
    refine .bind (ih (hw.after hfirst.toWorked) hp₁) (fun _ => .pure _) ?_
    exact fun _ _ hrest => .pure (hfirst.cons hd hs hp hrest)

/-! ### Directories -/

/-- The names of a directory have been dealt with. -/
structure DidRecord (strict : Bool) (d : Disk) (present : Serial → Prop) (recursive : Bool)
    (p : InodeId) (s : Serial) (w w' : Tracker σ) : Prop extends Worked d present w w' where
  names : ∀ name, ¬d.Skips s name → Done strict d w.tree.view w'.tree.view p s name
  children : strict = true → ∀ name c, d.child? s name = some c → ¬d.Oversized c →
    ∃ j, w'.tree.view.Current d j c
  explored : Explored strict d present w.tree.view w'.tree.view
  below : recursive = true → w.tree.view.Calm strict d present → ∀ c, d.Subdirectory s c →
    ∀ x, d.Below c x → Scanned strict d w.tree.view w'.tree.view x
  met : ∀ c, w'.tree.view.Held d c → d.Met present (w.tree.view.Held d) c

/-- Going through a listing and then unbinding what is not listed deals with all names. -/
theorem DidNames.didRecord (hd : d.Distinguishes present) {listing : List ListedEntry}
    {w₁ w₂ : Tracker σ} (hw : Ready fs d w) (hp : w.tree.view.Holds d p s) (hs : present s)
    (hlist : d.list s = .ok listing)
    (h : DidNames strict d present recursive p s (listing.filter (!·.isPseudo)) w w₁)
    (hwork : Worked d present w₁ w₂) (hidentity : w₂.tree.view.identity = w₁.tree.view.identity)
    (hgone : ∀ e ∈ goneEntries w₁.tree p ((listing.filter (!·.isPseudo)).map (·.name)), ∀ b,
      w₁.tree.entryOf? e = some b → w₂.tree.view.child p b.name = none) :
    DidRecord strict d present recursive p s w w₂ := by
  have hw₁ := hw.after h.toWorked
  have hp₁ : w₁.tree.view.Holds d p s := h.updates.holds hd.regular hs hp
  have hlisted : ∀ {name c}, d.child? s name = some c →
      (⟨name, d.inoAt c⟩ : ListedEntry) ∈ listing.filter (!·.isPseudo) := by
    intro name c hc
    refine List.mem_filter.2 ⟨Disk.mem_list hlist hc, ?_⟩
    simpa [ListedEntry.isPseudo] using hd.regular.bound_proper hc
  have hheld : ∀ c, w₂.tree.view.Held d c → w₁.tree.view.Held d c := by
    rintro c ⟨j, hj⟩
    exact ⟨j, (holds_congr (congrFun hidentity j)).1 hj⟩
  refine ⟨h.toWorked.trans hwork, ?_, ?_, ?_, ?_, fun c hc => h.met c (hheld c hc)⟩
  · intro name hskips
    cases hchild : d.child? s name with
    | some c =>
      rw [Disk.Skips, hchild] at hskips
      exact (h.done _ (hlisted hchild) c hchild rfl hskips).1.mono hd hwork.updates hs hp₁
    | none =>
      rw [Disk.Skips, hchild] at hskips
      -- the name is not on the disk: it was not bound, or its entry is out of date
      refine .inl ((agrees_of_none hchild).2 ?_)
      obtain ⟨r, hr⟩ := Tree.exists_record?_of_holds hp₁
      cases hentry : r.childEntryOf? name with
      | none =>
        have hnone := (hw₁.sound.childEntryOf?_eq_none_iff hr).1 hentry
        have hagrees : w₁.tree.view.Agrees d p s name := (agrees_of_none hchild).2 hnone
        exact (agrees_of_none hchild).1 (hwork.updates.agrees hd hs hp₁ hagrees)
      | some e =>
        obtain ⟨b, hb, -, rfl⟩ := (hw₁.sound.child_iff hr _ _).1 hentry
        refine hgone e ((mem_goneEntries hr).2 ⟨b.name, fun hmem => ?_, hentry⟩) b hb
        -- a listed name without an object is a phantom
        obtain ⟨e', he', hname⟩ := List.mem_map.1 hmem
        obtain ⟨hin, hproper⟩ := List.mem_filter.1 he'
        rw [Bool.not_eq_true'] at hproper
        rcases Disk.cases_of_mem_list hlist hin hproper with ⟨c, hc, -⟩ | ⟨n, hn, hphantom⟩
        · rw [hname, hchild] at hc
          cases hc
        · exact hskips ⟨n, hn, e', hphantom, hname⟩
  · intro hstrict name c hc hsize
    obtain ⟨j, hj⟩ := (h.done _ (hlisted hc) c hc rfl hsize).2 hstrict
    exact ⟨j, hwork.updates.current hd.regular (hd.of_child? hc) hj⟩
  · exact h.explored.trans hd h.updates (fun c _ _ hc => .inl (hheld c hc)) hwork.updates
  · rintro hrecursive hcalm c ⟨⟨name, hc⟩, hcdir⟩ x hx
    refine (h.below hrecursive hcalm _ (hlisted hc) c hc rfl hcdir x hx).mono hd hwork.updates ?_
    exact hd.of_below (hd.of_child? hc) hx

/-- Letting a record wait does not show. -/
theorem DidRecord.of_tree_eq {now : Instant} {i : InodeId}
    (h : DidRecord strict d present recursive p s w w') (hfiles : w''.files = w'.files)
    (htree : w''.tree = (w'.tree.orphanIfUnlinked i now).2) :
    DidRecord strict d present recursive p s w w'' := by
  have hview : w''.tree.view = w'.tree.view := by rw [htree, Tree.view_orphanIfUnlinked]
  have hsound : w''.tree.Sound := htree ▸ h.sound.orphanIfUnlinked i now
  obtain ⟨⟨hfiles', -, hupdates⟩, hnames, hchildren, hexplored, hbelow, hmet⟩ := h
  rw [← hview] at hupdates hnames hchildren hexplored hbelow hmet
  exact ⟨⟨hfiles.trans hfiles', hsound, hupdates⟩, hnames, hchildren, hexplored, hbelow, hmet⟩

section directory

variable (hd : d.Distinguishes present) (hbelow : ScansBelow fs strict d present depth scanBelow)
  (hw : Ready fs d w) (hs : present s) (hdir : d.isDirectory s)
include hd hbelow hw hs hdir

theorem does_applyListing {listing : List ListedEntry} (hp : w.tree.view.Holds d p s)
    (hsmall : ¬d.Oversized s)
    (hgood : good → d.Listable present ∧ ∀ c, d.Subdirectory s c → d.Shallow depth c)
    (hlist : d.list s = .ok listing) :
    Does (applyListing fs strict scanBelow s p recursive listing) w good fun _ w' =>
      DidRecord strict d present recursive p s w w' := by
  unfold applyListing
  refine .bind (does_reconcileAll hd hbelow hw hp hs hdir hsmall hgood _) (fun _ =>
    .bind (.look _) fun _ => .bind (editsOnly_unbindAll _) fun _ => editsOnly_closeListing _ _) ?_
  intro summary w₁ hnames
  have hw₁ := hw.after hnames.toWorked
  have hp₁ : w₁.tree.view.Holds d p s := hnames.updates.holds hd.regular hs hp
  refine .step (run_look _ _) ?_
  refine .bind (P := fun _ w₂ => DidRecord strict d present recursive p s w w₂) ?_ (fun _ => ?_) ?_
  · refine ((does_unbindGone hd hw₁ hp₁ hs hsmall hlist rfl).weaken fun _ => trivial).mono ?_
    exact fun _ w₂ ⟨hwork, hidentity, hgone⟩ =>
      hnames.didRecord hd hw hp hs hlist hwork hidentity hgone
  · exact editsOnly_closeListing _ _
  intro removed w₂ hrecord
  exact .step (run_edit _ _) (.step (run_look _ _) (.step (run_note _ _)
    (.pure (hrecord.of_tree_eq rfl rfl))))

/-- A directory whose record has been found. -/
theorem does_scanRecord (hp : w.tree.view.Holds d p s) (hsmall : ¬d.Oversized s)
    (hgood : good → d.Listable present ∧ ∀ c, d.Subdirectory s c → d.Shallow depth c) :
    Does (scanRecord fs strict scanBelow s p recursive) w good fun _ w' =>
      DidRecord strict d present recursive p s w w' := by
  obtain ⟨n, hn⟩ := hd.exists_node hs
  unfold scanRecord
  refine .attempt_step (hw.plain.run_list s) ?_
  cases hlist : d.list s with
  | ok listing => exact does_applyListing hd hbelow hw hs hdir hp hsmall hgood hlist
  | error e =>
    -- directories that cannot be listed are the only reason
    have hunlistable : n.unlistable = true ∧ e = ⟨.list, .inputOutput⟩ := by
      obtain ⟨children, hchildren⟩ := Option.isSome_iff_exists.1 hdir
      rw [hn, Option.bind_some] at hchildren
      unfold Disk.list at hlist
      rw [hn] at hlist
      by_cases h : n.unlistable = true
      · simp only [h, if_true, Except.error.injEq] at hlist
        exact ⟨h, hlist.symm⟩
      · simp [h, hchildren] at hlist
    obtain ⟨htrue, rfl⟩ := hunlistable
    refine .throw _ fun h => ?_
    rw [(hgood h).1 s n hs hn] at htrue
    cases htrue

theorem does_scanDirectory (hgood : good → d.Listable present ∧ d.Shallow (depth + 1) s) :
    Does (scanDirectory fs strict scanBelow s recursive) w good fun _ w' =>
      DidScan strict d present recursive s w w' := by
  unfold scanDirectory
  refine .releasing (P := fun _ w' => DidScan strict d present recursive s w w') ?_
    fun _ w' leases h => ⟨⟨h.files, h.sound, h.updates⟩, h.scanned, h.explored, h.below, h.met⟩
  by_cases hsize : d.Oversized s
  · refine .attempt_step (hw.plain.run_resolve_of_oversized hsize) (.step (run_note _ _) (.pure ?_))
    refine ⟨⟨rfl, hw.sound, .refl⟩, fun hnot => absurd hsize hnot, .refl, fun _ hcalm => ?_,
      fun _ hc => .start (.inl hc)⟩
    exact absurd hsize (hcalm.1.not_oversized hs)
  refine .attempt_bind (does_resolve hd hw hs hsize)
    (editsOnly_afterResolve fs.vouches_trivial strict hbelow.tame s recursive) ?_
    fun _ _ hfalse => absurd trivial hfalse
  · rintro p w₁ ⟨hwork, hfound⟩
    have hw₁ := hw.after hwork
    refine (does_scanRecord hd hbelow hw₁ hs hdir hfound.current.holds hsize hgood).mono
      fun _ w' hrecord => ?_
    have hscanned : Scanned strict d w₁.tree.view w'.tree.view s :=
      ⟨p, hrecord.updates.current hd.regular hs hfound.current, hrecord.names, hrecord.children⟩
    have hdid : DidScan strict d present recursive s w₁ w' := by
      refine ⟨hrecord.toWorked, fun _ => hscanned, hrecord.explored, fun hrecursive hcalm c hc => ?_,
        fun c hc => (hrecord.met c hc).trans fun _ hx => .start (.inl hx)⟩
      rcases Relation.ReflTransGen.cases_head hc with rfl | ⟨b, hb, hbc⟩
      · exact hscanned
      · exact hrecord.below hrecursive hcalm b hb c hbc
    exact hdid.of_later hd hwork hfound.held hsize

end directory

/-- The scans of the program are as they should be. -/
theorem scansBelow_scanWithin (hd : d.Distinguishes present) (depth : Nat) :
    ScansBelow fs strict d present depth (scanWithin fs strict depth) := by
  induction depth with
  | zero =>
    refine ⟨fun c recursive => editsOnly_scanWithin fs.vouches_trivial strict 0 c recursive, ?_⟩
    intro c recursive w good _ _ _ hgood
    refine .releasing (P := fun _ _ => False) (.throw _ fun h => (hgood h).2) ?_
    exact fun _ _ _ hfalse => hfalse.elim
  | succ depth ih =>
    refine ⟨fun c recursive => editsOnly_scanWithin fs.vouches_trivial strict _ c recursive, ?_⟩
    intro c recursive w good hc hdir hw hgood
    exact does_scanDirectory hd ih hw hc hdir hgood

/-- Scanning a directory. It succeeds if directories can be listed, unless ways down are too long. -/
theorem does_scan (hd : d.Distinguishes present) (hw : Ready fs d w) (hs : present s)
    (hdir : d.isDirectory s) (recursive : Bool)
    (hgood : good → d.Listable present ∧ d.Shallow (d.nodes.length + 1) s) :
    Does (scan fs strict s recursive) w good fun _ w' =>
      DidScan strict d present recursive s w w' := by
  unfold scan
  refine .step (run_look _ w) ((scansBelow_scanWithin hd _).does hs hdir hw fun h => ?_)
  have hdeep : d.nodes.length + 1 ≤ fs.nesting w.files + 1 := Nat.succ_le_succ hw.plain.nesting
  exact ⟨(hgood h).1, (hgood h).2.mono hdeep⟩

/-- Scanning the whole mount. -/
theorem does_scanRoot (hd : d.Distinguishes present) (hw : Ready fs d w)
    (hgood : good → d.Listable present ∧ ¬d.Oversized Disk.rootSerial ∧
      d.Shallow (d.nodes.length + 1) Disk.rootSerial) :
    Does (scanRoot fs strict) w good fun _ w' =>
      DidScan strict d present true Disk.rootSerial w w' ∧ w'.tree.view.Rooted d := by
  have hroot : present Disk.rootSerial := hd.of_named (.inl rfl)
  have hdir := hd.regular.isDirectory_root
  unfold scanRoot
  refine .step (by rw [run_wrapping, hw.plain.run_openRoot]) ?_
  have hw₀ := hw.leases w.leases.take
  by_cases hsize : d.Oversized Disk.rootSerial
  · refine .attempt_step (hw₀.plain.run_resolve_of_oversized hsize) ?_
    refine .releasing (P := fun _ _ => False) (.throw _ fun h => ?_) fun _ _ _ hfalse => hfalse.elim
    exact (hgood h).2.1 hsize
  refine .attempt_bind (does_resolve hd hw₀ hroot hsize) (fun r => ?_) ?_
    fun _ _ hfalse => absurd trivial hfalse
  · split
    · exact .bind (.edit fun _ _ => .single (.root trivial)) fun _ => editsOnly_scan fs.vouches_trivial strict _ _
    · exact .releasing (.throw _)
  rintro i w₁ ⟨hwork, hfound⟩
  have hw₁ := hw₀.after hwork
  let w₂ : Tracker σ := { w₁ with ledger := { w₁.ledger with tree := w₁.tree.setRoot i } }
  have hbecomes : Worked d present w₁ w₂ :=
    ⟨rfl, hw₁.sound.setRoot i, .single (.root hfound.current.holds)⟩
  have hboth : Worked d present w w₂ :=
    ⟨hwork.files, hbecomes.sound, hwork.updates.trans hbecomes.updates⟩
  have hrooted : w₂.tree.view.Rooted d := ⟨i, rfl, hfound.current.holds⟩
  refine .step (run_edit _ _) ?_
  refine (does_scan hd (hw₁.after hbecomes) hroot hdir true fun h => ?_).mono fun _ w' hscan => ?_
  · exact ⟨(hgood h).1, (hgood h).2.2⟩
  · exact ⟨hscan.of_later hd hboth (fun c hc => hfound.held c hc) hsize,
      hscan.updates.rooted hd hrooted⟩

end TreeWatch.Tracker

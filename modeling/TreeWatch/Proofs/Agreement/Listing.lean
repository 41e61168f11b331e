import TreeWatch.Proofs.Agreement.Name
import TreeWatch.Proofs.Mirror.Listing

/-!
# Names taken for unchanged

A scan that is not strict does not open a name that leads to the number listed. As long as numbers lead
to the right records, opening it would change nothing but a fingerprint.

## Main results

- `Tracker.together_unchanged` : opening a name on one side only
- `Tracker.together_reconcile` : a listed name is brought up to date on both sides
- `Tracker.together_applyListing` : so is a directory
-/

namespace TreeWatch.Tracker

open View

variable {σ : Type} {fs : Filesystem σ Serial} {d : Disk} {present : Serial → Prop}
  {w w' : Tracker σ} {s o : Serial} {p j : InodeId} {name : Bytes} {r : InodeRecord} {n : Node}
  {scanBelow scanBelow' : ScanBelow σ Serial} {depth : Nat}

/-! ### Opening names on one side only -/

theorem run_bindObject_of_oversized (p : InodeId) (name : Bytes) (hplain : fs.Plain w.files d)
    (hsize : d.Oversized o) (recursive : Bool) :
    ∃ w₁, (bindObject fs p name recursive o).run w = (.ok (.oneSkipped, none), w₁) ∧
      Alike w w₁ := by
  have hrun := hplain.run_resolve_of_oversized hsize
  refine ⟨{ w with ledger := w.ledger.note (.tokenTooLarge name Disk.oversizedTokenSize) }, ?_,
    ⟨rfl, rfl, rfl, rfl, rfl⟩⟩
  unfold bindObject
  rw [run_bind, run_attempt, hrun]
  rfl

/-- Opening a name that leads to the record of its object refreshes the fingerprint. -/
theorem run_bindObject_of_bound (hplain : fs.Plain w.files d) (hn : d.node? o = some n)
    (hsize : ¬d.Oversized o) (hlookup : w.tree.lookupIno n.ino = some j)
    (hr : w.tree.record? j = some r) (htoken : r.token = Disk.tokenOf o) {e : EntryId}
    (hentry : w.tree.childEntryOf? p name = some e)
    (he : (w.tree.entryOf? e).map DirectoryEntry.child = some j) (recursive : Bool) :
    ∃ summary w₁, (bindObject fs p name recursive o).run w =
        (.ok (summary, if r.isDirectory && recursive && d.isDirectory o then some o else none), w₁) ∧
      summary.Matches {} ∧ Alike w w₁ := by
  let w₁ : Tracker σ := { w with ledger.tree := w.tree.refreshFingerprint j n.fingerprint }
  have hresolve : (resolve fs o).run w = (.ok j, w₁) := by
    rw [run_resolve hplain hn hsize, hlookup]
    intro i hi
    rw [hlookup] at hi
    cases hi
    exact ⟨r, hr, htoken⟩
  have halike : Alike w w₁ := ⟨rfl, rfl, rfl, rfl, Tree.blank_refreshFingerprint ..⟩
  have hrebind : (rebind p name j : Track σ ScanError ScanSummary).run w₁ = (.ok {}, w₁) := by
    unfold rebind
    rw [run_bind, run_look, Tree.childEntryOf?_of_blank_eq halike.blank, hentry]
    simp only [Option.map_some, Tree.entryOf?_of_blank_eq halike.blank, he, if_true, run_pure]
  obtain ⟨r', hr', hblank⟩ := Tree.record?_of_blank_eq halike.blank hr
  have hdir : r'.isDirectory = r.isDirectory :=
    congrArg (fun r => r.children.isSome) hblank
  have hplain₁ : fs.Plain w₁.files d := hplain
  have hbind : (bindObject fs p name recursive o).run w = (handOn fs j {} recursive o).run w₁ := by
    unfold bindObject
    rw [run_bind, run_attempt, hresolve]
    simp only
    rw [run_bind, hrebind]
  rw [hbind]
  unfold handOn
  rw [run_bind, run_look]
  simp only [hr', Option.any_some, hdir]
  have hzero : decide (0 < ({} : ScanSummary).linked) = false := rfl
  rw [hzero, Bool.false_and, Bool.or_false]
  by_cases hopen : (r.isDirectory && recursive) = true
  · rw [if_pos hopen, hopen, Bool.true_and, run_bind, run_attempt]
    by_cases hodir : d.isDirectory o = true
    · rw [hplain₁.run_openDirectory hodir, hodir]
      exact ⟨_, _, rfl, .refl _, ⟨rfl, rfl, rfl, rfl, halike.blank⟩⟩
    · rw [hplain₁.run_openDirectory_of_not hodir, if_neg hodir]
      exact ⟨_, _, rfl, ⟨rfl, rfl, rfl⟩, halike⟩
  · rw [if_neg hopen]
    rw [Bool.not_eq_true] at hopen
    rw [hopen]
    exact ⟨_, _, rfl, .refl _, halike⟩

/-- Opening a name that is not there, or one whose object has a token that is too large, passes it
over. -/
theorem run_reopen_of_skipped (scanBelow : ScanBelow σ Serial) (p : InodeId)
    (hplain : fs.Plain w.files d) (hdir : d.isDirectory s)
    (hskip : ∀ o, d.child? s name = some o → d.Oversized o) (recursive : Bool) :
    ∃ w₁, (reopen fs scanBelow s p recursive name).run w = (.ok .oneSkipped, w₁) ∧ Alike w w₁ := by
  obtain ⟨leases, hopen⟩ := hplain.run_openChild hdir name
  unfold reopen
  rw [run_bind, run_wrapping, hopen]
  cases hchild : d.child? s name with
  | none => exact ⟨_, rfl, rfl, rfl, rfl, rfl, rfl⟩
  | some o =>
    have hplain₁ : fs.Plain ({ w with leases } : Tracker σ).files d := hplain
    obtain ⟨w₁, hrun, hfiles, hclock, hreads, hjournal, hblank⟩ :=
      run_bindObject_of_oversized p name hplain₁ (hskip o hchild) recursive
    simp only
    rw [run_bind, run_releasing, hrun]
    exact ⟨_, rfl, hfiles, hclock, hreads, hjournal, hblank⟩

/-- Opening a name that leads to the record of its object goes down from there at most. -/
theorem run_reopen_of_bound (scanBelow : ScanBelow σ Serial) (hplain : fs.Plain w.files d)
    (hdir : d.isDirectory s)
    (hchild : d.child? s name = some o) (hn : d.node? o = some n) (hsize : ¬d.Oversized o)
    (hlookup : w.tree.lookupIno n.ino = some j) (hr : w.tree.record? j = some r)
    (htoken : r.token = Disk.tokenOf o) {e : EntryId} (hentry : w.tree.childEntryOf? p name = some e)
    (he : (w.tree.entryOf? e).map DirectoryEntry.child = some j) (recursive : Bool) :
    ∃ summary w₁, (reopen fs scanBelow s p recursive name).run w =
        (if r.isDirectory && recursive && d.isDirectory o then do
            return summary + (← scanBelow o recursive)
          else pure summary : Track σ ScanError ScanSummary).run w₁ ∧
      summary.Matches {} ∧ Alike w w₁ := by
  obtain ⟨leases, hopen⟩ := hplain.run_openChild hdir name
  have hplain₁ : fs.Plain ({ w with leases } : Tracker σ).files d := hplain
  obtain ⟨summary, w₁, hrun, hmatch, halike⟩ :=
    run_bindObject_of_bound hplain₁ hn hsize hlookup hr htoken hentry he recursive
  refine ⟨summary, { w₁ with leases := w₁.leases.giveBack }, ?_, hmatch, halike.files, halike.clock,
    halike.reads, halike.journal, halike.blank⟩
  unfold reopen
  rw [run_bind, run_wrapping, hopen, hchild]
  simp only
  rw [run_bind, run_releasing, hrun]
  simp only
  by_cases hnext : (r.isDirectory && recursive && d.isDirectory o) = true
  · rw [if_pos hnext, if_pos hnext]
  · rw [if_neg hnext, if_neg hnext]

/-- Going down behind a name scans the directory there, if there is one. -/
theorem run_descend (scanBelow : ScanBelow σ Serial) (hplain : fs.Plain w.files d)
    (hdir : d.isDirectory s) (name : Bytes) :
    ∃ leases, (descend fs scanBelow s name).run w =
      (match d.child? s name with
        | some o => if d.isDirectory o then scanBelow o true else pure .oneSkipped
        | none => pure .oneSkipped : Track σ ScanError ScanSummary).run { w with leases } := by
  obtain ⟨leases, hopen⟩ := hplain.run_openChild hdir name
  unfold descend
  rw [run_bind, run_wrapping, hopen]
  cases hchild : d.child? s name with
  | none => exact ⟨leases, rfl⟩
  | some o =>
    have hplain₁ : fs.Plain ({ w with leases } : Tracker σ).files d := hplain
    simp only
    rw [run_bind, run_releasing, run_attempt]
    by_cases hodir : d.isDirectory o = true
    · rw [hplain₁.run_openDirectory hodir, if_pos hodir]
      exact ⟨_, rfl⟩
    · rw [hplain₁.run_openDirectory_of_not hodir, if_neg hodir]
      exact ⟨_, rfl⟩

/-- What a scan that is not strict does with a name that it takes for unchanged. -/
def takeUnchanged (fs : Filesystem σ Serial) (scanBelow : ScanBelow σ Serial) (directory : Serial)
    (recursive isDirectory : Bool) (name : Bytes) : Track σ ScanError ScanSummary :=
  if recursive && isDirectory then do
    return { fastPath := 1 } + (← descend fs scanBelow directory name)
  else pure { fastPath := 1 }

theorem run_takeUnchanged_of_none (scanBelow : ScanBelow σ Serial) (hplain : fs.Plain w.files d)
    (hdir : d.isDirectory s)
    (hchild : d.child? s name = none) (recursive isDirectory : Bool) :
    ∃ summary leases, (takeUnchanged fs scanBelow s recursive isDirectory name).run w =
      (.ok summary, { w with leases }) ∧ summary.Matches {} := by
  obtain ⟨leases, hdescend⟩ := run_descend scanBelow hplain hdir name
  rw [hchild] at hdescend
  unfold takeUnchanged
  split
  · rw [run_bind, hdescend]
    exact ⟨_, leases, rfl, rfl, rfl, rfl⟩
  · exact ⟨_, w.leases, rfl, rfl, rfl, rfl⟩

theorem run_takeUnchanged (scanBelow : ScanBelow σ Serial) (hplain : fs.Plain w.files d)
    (hdir : d.isDirectory s)
    (hchild : d.child? s name = some o) (recursive isDirectory : Bool) :
    ∃ summary leases, (takeUnchanged fs scanBelow s recursive isDirectory name).run w =
        (if isDirectory && recursive && d.isDirectory o then do
            return summary + (← scanBelow o recursive)
          else pure summary : Track σ ScanError ScanSummary).run { w with leases } ∧
      summary.Matches {} := by
  obtain ⟨leases, hdescend⟩ := run_descend scanBelow hplain hdir name
  rw [hchild] at hdescend
  unfold takeUnchanged
  cases recursive with
  | false => exact ⟨{ fastPath := 1 }, w.leases, by rw [Bool.and_false]; rfl, rfl, rfl, rfl⟩
  | true =>
    cases isDirectory with
    | false => exact ⟨{ fastPath := 1 }, w.leases, rfl, rfl, rfl, rfl⟩
    | true =>
      by_cases hodir : d.isDirectory o = true
      · refine ⟨{ fastPath := 1 }, leases, ?_, rfl, rfl, rfl⟩
        simp only [hodir, Bool.and_self, if_true] at hdescend ⊢
        rw [run_bind, hdescend, run_bind]
      · refine ⟨{ fastPath := 1 } + .oneSkipped, leases, ?_, rfl, rfl, rfl⟩
        simp only [hodir, Bool.and_self, Bool.and_false, if_true] at hdescend ⊢
        rw [run_bind, hdescend]
        rfl

/-- Taking a name for unchanged goes together with opening it. -/
theorem together_takeUnchanged (hd : d.Distinguishes present)
    (hbelow : ScansTogether fs d present depth scanBelow scanBelow')
    (h : InStep fs d present w w') (hs : present s) (hdir : d.isDirectory s)
    (hshallow : ∀ c, d.Subdirectory s c → d.Shallow depth c) (hp : w.tree.view.Marks d p s)
    (hname : w.tree.child? p name = some j) (hr : w.tree.record? j = some r)
    (hino : ∀ o, d.child? s name = some o → ¬d.Oversized o → r.ino = d.inoAt o) (recursive : Bool) :
    Together fs d present (takeUnchanged fs scanBelow s recursive r.isDirectory name)
      (reopen fs scanBelow' s p recursive name) w w' fun a b w₁ => a.Matches b ∧
        ∀ o, d.child? s name = some o → ¬d.Oversized o →
          w₁.tree.view.Leads p name (d.inoAt o) := by
  cases hchild : d.child? s name with
  | none =>
    obtain ⟨summary, leases, hleft, hmatch⟩ := run_takeUnchanged_of_none
      scanBelow h.plain hdir hchild recursive r.isDirectory
    obtain ⟨w₁', hright, halike⟩ := run_reopen_of_skipped scanBelow' p
      h.plain' hdir (fun o ho => by cases hchild.symm.trans ho) recursive
    refine .of_run hleft hright rfl (.pure ?_ ⟨hmatch.oneSkipped, ?_⟩)
    · exact (h.leases leases w'.leases).right halike
    · rintro o ⟨⟩
  | some o =>
    obtain ⟨summary, leases, hleft, hmatch⟩ := run_takeUnchanged
      scanBelow h.plain hdir hchild recursive r.isDirectory
    have h₀ := h.leases leases w'.leases
    by_cases hsize : d.Oversized o
    · obtain ⟨w₁', hright, halike⟩ := run_reopen_of_skipped scanBelow' p
        h.plain' hdir (by rintro o' ho'; cases hchild.symm.trans ho'; exact hsize) recursive
      have hnone : ∀ w₁ : Tracker σ, ∀ o', some o = some o' → ¬d.Oversized o' →
          w₁.tree.view.Leads p name (d.inoAt o') := by
        rintro w₁ o' ⟨⟩ hnot
        exact absurd hsize hnot
      refine .of_run hleft hright rfl ?_
      split
      · next hnext =>
        simp only [Bool.and_eq_true] at hnext
        obtain ⟨w₁, hskips, hfiles, hclock, hreads, hjournal, htree⟩ :=
          hbelow.skips recursive hsize h₀.plain (hshallow _ ⟨⟨_, hchild⟩, hnext.2⟩)
        refine .left hskips htree (.pure ?_ ⟨.add hmatch ⟨rfl, rfl, rfl⟩, hnone _⟩)
        exact (h₀.left hfiles hclock hreads hjournal htree).right halike
      · exact .pure (h₀.right halike) ⟨hmatch.oneSkipped, hnone _⟩
    · have ho := hd.of_child? hchild
      obtain ⟨n, hn⟩ := hd.exists_node ho
      have hsame : r.ino = d.inoAt o := hino o hchild hsize
      have hview := Tree.identity?_eq_some_iff.2 ⟨r, hr, rfl⟩
      have hlookup := h.formed.lookupIno_eq_some_iff.2 ⟨_, hview, hsame.trans (Disk.inoAt_eq hn)⟩
      have htoken := h.upToDate j _ o hview ho hsame
      obtain ⟨r', hr', hblank⟩ := Tree.record?_of_blank_eq h.blank hr
      obtain ⟨e, hentry, he⟩ := Option.bind_eq_some_iff.1 hname
      rw [← Tree.lookupIno_of_blank_eq h.blank] at hlookup
      rw [← Tree.childEntryOf?_of_blank_eq h.blank] at hentry
      rw [← Tree.entryOf?_of_blank_eq h.blank] at he
      obtain ⟨summary', w₁', hright, hmatch', halike⟩ := run_reopen_of_bound
        scanBelow' h.plain' hdir hchild hn hsize hlookup hr'
        ((congrArg InodeRecord.token hblank).trans htoken) hentry he recursive
      have hdirectory : r'.isDirectory = r.isDirectory :=
        congrArg (fun r => r.children.isSome) hblank
      rw [hdirectory] at hright
      have hboth : summary.Matches summary' := hmatch.trans hmatch'.symm
      have hleads : w.tree.view.Leads p name (d.inoAt o) := ⟨j, _, hname, hview, hsame⟩
      refine .of_run hleft hright rfl ?_
      have h₁ := h₀.right halike
      split
      · next hnext =>
        simp only [Bool.and_eq_true] at hnext
        refine (hbelow.together ho hnext.2 h₁ (hshallow _ ⟨⟨_, hchild⟩, hnext.2⟩)).bind
          (fun _ => .pure _) ?_
        intro a b w₂ w₂' hstep honward hbelow
        refine .pure hstep ⟨.add hboth hbelow, ?_⟩
        rintro o' ⟨⟩ hnot
        exact honward.leads hs hp hchild hnot hleads
      · refine .pure h₁ ⟨hboth, ?_⟩
        rintro o' ⟨⟩ -
        exact hleads

/-- A listed name is brought up to date. The number listed may be that of another object only if the
name leads to the right one already. -/
theorem together_reconcile (hd : d.Distinguishes present)
    (hbelow : ScansTogether fs d present depth scanBelow scanBelow')
    (h : InStep fs d present w w') (hs : present s) (hdir : d.isDirectory s)
    (hshallow : ∀ c, d.Subdirectory s c → d.Shallow depth c) (hp : w.tree.view.Marks d p s)
    {listed : ListedEntry} (hlisted : ∀ c, d.child? s listed.name = some c → ¬d.Oversized c →
      listed.ino = d.inoAt c ∨ w.tree.view.Leads p listed.name (d.inoAt c)) (recursive : Bool) :
    Together fs d present (reconcile fs false scanBelow s p recursive listed)
      (reconcile fs true scanBelow' s p recursive listed) w w' fun a b w₁ => a.Matches b ∧
        ∀ c, d.child? s listed.name = some c → ¬d.Oversized c →
          w₁.tree.view.Leads p listed.name (d.inoAt c) := by
  have hreopen := together_reopen hd hbelow h hs hdir hshallow hp recursive listed.name
  unfold reconcile
  refine .step (run_look _ w) (run_look _ w') rfl ?_
  rw [Tree.child?_of_blank_eq h.blank]
  cases hname : w.tree.child? p listed.name with
  | none => exact hreopen
  | some j =>
    obtain ⟨e, hb⟩ := h.formed.child?_eq_some_iff.1 hname
    obtain ⟨r, hr⟩ := h.formed.child_live hb
    obtain ⟨r', hr', hblank⟩ := Tree.record?_of_blank_eq h.blank hr
    have hsame : r'.ino = r.ino := congrArg (·.ino) hblank
    have hkind : r'.isDirectory = r.isDirectory := congrArg (·.children.isSome) hblank
    simp only [Option.bind_some, hr, hr', Option.filter_some, hsame]
    by_cases hino : r.ino = listed.ino
    · simp only [hino, decide_true, if_true]
      refine together_takeUnchanged hd hbelow h hs hdir hshallow hp hname hr ?_ recursive
      intro c hc hsize
      rcases hlisted c hc hsize with hright | ⟨j, x, hj, hx, hleads⟩
      · exact hino.trans hright
      · cases hname.symm.trans hj
        obtain ⟨r₀, hr₀, rfl⟩ := Tree.identity?_eq_some_iff.1 hx
        cases hr.symm.trans hr₀
        exact hleads
    · simp only [hino, decide_false]
      exact hreopen

/-- Where real names are listed, they are listed with the right numbers first, or they lead to these
already. -/
def Sincere (d : Disk) (v : View) (p : InodeId) (s : Serial) (listing : List ListedEntry) : Prop :=
  ∀ e ∈ listing, ∀ c, d.child? s e.name = some c → ¬d.Oversized c →
    (∃ first, listing.find? (·.name = e.name) = some first ∧ first.ino = d.inoAt c) ∨
      v.Leads p e.name (d.inoAt c)

theorem Sincere.head {v : View} {listed : ListedEntry} {rest : List ListedEntry}
    (h : Sincere d v p s (listed :: rest)) (c : Serial) (hc : d.child? s listed.name = some c)
    (hsize : ¬d.Oversized c) : listed.ino = d.inoAt c ∨ v.Leads p listed.name (d.inoAt c) := by
  refine (h listed List.mem_cons_self c hc hsize).imp_left ?_
  rintro ⟨first, hfirst, hino⟩
  rw [List.find?_cons_of_pos (by simp)] at hfirst
  cases hfirst
  exact hino

theorem Sincere.tail {v v' : View} {listed : ListedEntry} {rest : List ListedEntry}
    (h : Sincere d v p s (listed :: rest)) (hs : present s) (hp : v.Marks d p s)
    (honward : Onward d present v v')
    (hleads : ∀ c, d.child? s listed.name = some c → ¬d.Oversized c →
      v'.Leads p listed.name (d.inoAt c)) : Sincere d v' p s rest := by
  intro e he c hc hsize
  by_cases hsame : listed.name = e.name
  · rw [← hsame] at hc ⊢
    exact .inr (hleads c hc hsize)
  · refine (h e (List.mem_cons_of_mem _ he) c hc hsize).imp ?_ (honward.leads hs hp hc hsize)
    rw [List.find?_cons_of_neg (by simpa using hsame)]
    exact id

/-- What a directory lists is sincere: phantoms come after the real names. -/
theorem sincere_of_list (hd : d.Regular) (v : View) (p : InodeId) {listing : List ListedEntry}
    (hlist : d.list s = .ok listing) : Sincere d v p s (listing.filter (!·.isPseudo)) := by
  obtain ⟨n, children, hn, hchildren, rfl⟩ := Disk.list_eq_ok hlist
  intro e he c hc _
  left
  have hproper : isPseudoName e.name = false := hd.bound_proper hc
  have hmem : (e.name, c) ∈ children.toList := by
    rw [Disk.child?_eq_of_children hn hchildren] at hc
    exact SortedMap.get?_eq_some_iff.1 hc
  unfold Disk.listing
  rw [List.filter_append, List.find?_append]
  cases hfirst : List.find? (fun first : ListedEntry => first.name = e.name) (List.filter (!·.isPseudo)
    ([⟨Path.dot, n.ino⟩, ⟨Path.dotDot, Disk.rootIno⟩] ++
      children.toList.map fun p => ⟨p.1, d.inoAt p.2⟩)) with
  | none =>
    rw [List.find?_eq_none] at hfirst
    refine absurd (decide_eq_true rfl) (hfirst ⟨e.name, d.inoAt c⟩ ?_)
    refine List.mem_filter.2 ⟨?_, by simpa [ListedEntry.isPseudo] using hproper⟩
    exact List.mem_append_right _ (List.mem_map.2 ⟨_, hmem, rfl⟩)
  | some first =>
    refine ⟨first, rfl, ?_⟩
    have hname : first.name = e.name := by simpa using List.find?_some hfirst
    have hin := (List.mem_filter.1 (List.mem_of_find?_eq_some hfirst)).1
    rcases List.mem_append.1 hin with hdots | hreal
    · rw [← hname] at hproper
      simp only [List.mem_cons, List.not_mem_nil, or_false] at hdots
      rcases hdots with rfl | rfl <;> simp [isPseudoName] at hproper
    · obtain ⟨⟨name, c'⟩, hmem', rfl⟩ := List.mem_map.1 hreal
      cases (hname : name = e.name)
      have hsame := SortedMap.get?_eq_some_iff.2 hmem'
      rw [SortedMap.get?_eq_some_iff.2 hmem] at hsame
      cases hsame
      rfl

/-- Listed names are brought up to date. -/
theorem together_reconcileAll (hd : d.Distinguishes present)
    (hbelow : ScansTogether fs d present depth scanBelow scanBelow')
    (h : InStep fs d present w w') (hs : present s) (hdir : d.isDirectory s)
    (hshallow : ∀ c, d.Subdirectory s c → d.Shallow depth c) (hp : w.tree.view.Marks d p s)
    {listing : List ListedEntry} (hlisting : Sincere d w.tree.view p s listing) (recursive : Bool) :
    Together fs d present (reconcileAll fs false scanBelow s p recursive listing)
      (reconcileAll fs true scanBelow' s p recursive listing) w w' fun a b _ => a.Matches b := by
  induction listing generalizing w w' with
  | nil => exact .pure h (.refl _)
  | cons listed rest ih =>
    have htame := editsOnly_reconcileAll fs.vouches_trivial false hbelow.tame s p recursive rest
      fun _ _ => trivial
    refine (together_reconcile hd hbelow h hs hdir hshallow hp hlisting.head recursive).bind
      (fun _ => .bind htame fun _ => .pure _) ?_
    rintro first first' w₁ w₁' hstep honward ⟨hmatch, hleads⟩
    refine (ih hstep (honward.marks hp) (hlisting.tail hs hp honward hleads)).bind
      (fun _ => .pure _) ?_
    exact fun _ _ _ _ hstep' _ hmatch' => .pure hstep' (hmatch.add hmatch')

/-- Entries go whose names are not on the disk. -/
theorem together_unbindAll (hd : d.Distinguishes present) (h : InStep fs d present w w')
    (hs : present s) (hp : w.tree.view.Marks d p s) {entries : List EntryId}
    (hgone : ∀ e ∈ entries, ∀ b, w.tree.entryOf? e = some b →
      b.parent = p ∧ d.child? s b.name = none) :
    Together fs d present (unbindAll entries : Track σ ScanError ScanSummary) (unbindAll entries)
      w w' fun a b _ => a.Matches b := by
  induction entries generalizing w w' with
  | nil => exact .pure h (.refl _)
  | cons e rest ih =>
    refine (together_unbindEntry hd h hs hp (e := e) fun b hb => ?_).bind
      (fun _ => .bind (editsOnly_unbindAll rest) fun _ => .pure _) ?_
    · obtain ⟨hparent, hnone⟩ := hgone e List.mem_cons_self b hb
      refine ⟨hparent, fun o ho => ?_⟩
      rw [hnone] at ho
      cases ho
    intro _ _ w₁ w₁' hstep honward hentries
    refine (ih hstep (honward.marks hp) fun e' he' b hb => ?_).bind (fun _ => .pure _) ?_
    · exact hgone e' (List.mem_cons_of_mem _ he') b (hentries e' b hb)
    · exact fun _ _ _ _ hstep' _ hmatch => .pure hstep' (.add (.refl _) hmatch)

theorem goneEntries_of_blank_eq {t t' : Tree} (h : t'.blank = t.blank) (p : InodeId)
    (names : List Bytes) : goneEntries t' p names = goneEntries t p names := by
  unfold goneEntries
  rw [← Tree.childList_blank, h, Tree.childList_blank]

theorem together_orphanIfUnlinked (h : InStep fs d present w w') (p : InodeId) :
    Together fs d present (edit fun clock l => l.orphanIfUnlinked p clock : Track σ ScanError Unit)
      (edit fun clock l => l.orphanIfUnlinked p clock) w w' fun _ _ _ => True := by
  intro fits
  let now : Instant := w.clock w.ledger.reads
  have hnow : w'.clock w'.ledger.reads = now := by rw [h.clock, h.reads]
  have hview : (w.tree.orphanIfUnlinked p now).2.view = w.tree.view := Tree.view_orphanIfUnlinked ..
  have hleft := Tree.orphanIfUnlinked_blank w.tree p now
  have hright := Tree.orphanIfUnlinked_blank w'.tree p now
  rw [h.blank, hleft] at hright
  have hbegan : (w'.tree.orphanIfUnlinked p now).1 = (w.tree.orphanIfUnlinked p now).1 :=
    (congrArg Prod.fst hright).symm
  refine ⟨h.edited (h.formed.orphanIfUnlinked p now) ?_ ?_ h.journal ?_, ?_, trivial⟩
  · show (w.tree.orphanIfUnlinked p now).2.view.UpToDate d present
    exact hview ▸ h.upToDate
  · simp only [Ledger.orphanIfUnlinked, hnow]
    rw [← tree, hbegan, h.reads]
    rfl
  · show (w'.tree.orphanIfUnlinked p (w'.clock w'.ledger.reads)).2.blank =
      (w.tree.orphanIfUnlinked p now).2.blank
    rw [hnow]
    exact (congrArg Prod.snd hright).symm
  · show Onward d present w.tree.view (w.tree.orphanIfUnlinked p now).2.view
    exact hview ▸ .refl

/-- The names of a directory are brought in line with its listing. -/
theorem together_applyListing (hd : d.Distinguishes present)
    (hbelow : ScansTogether fs d present depth scanBelow scanBelow')
    (h : InStep fs d present w w') (hs : present s) (hdir : d.isDirectory s)
    (hshallow : ∀ c, d.Subdirectory s c → d.Shallow depth c) (hp : w.tree.view.Marks d p s)
    {listing : List ListedEntry} (hlist : d.list s = .ok listing) (recursive : Bool) :
    Together fs d present (applyListing fs false scanBelow s p recursive listing)
      (applyListing fs true scanBelow' s p recursive listing) w w' fun a b _ => a.Matches b := by
  unfold applyListing
  refine (together_reconcileAll hd hbelow h hs hdir hshallow hp
    (sincere_of_list hd.regular _ p hlist) recursive).bind (fun _ =>
    .bind (.look _) fun _ => .bind (editsOnly_unbindAll _) fun _ => editsOnly_closeListing _ _) ?_
  intro below below' w₁ w₁' hstep honward hbelow
  have hp₁ := honward.marks hp
  refine .step (run_look _ _) (run_look _ _) rfl ?_
  rw [goneEntries_of_blank_eq hstep.blank]
  refine (together_unbindAll hd hstep hs hp₁ fun e he b hb => ?_).bind (fun _ => ?_) ?_
  · obtain ⟨x, hx, -⟩ := hp₁
    obtain ⟨r, hr, -⟩ := Tree.identity?_eq_some_iff.1 hx
    obtain ⟨name, hname, hentry⟩ := (mem_goneEntries hr).1 he
    obtain ⟨b', hb', rfl, rfl⟩ := (hstep.formed.child_iff hr _ _).1 hentry
    cases hb.symm.trans hb'
    refine ⟨rfl, Option.eq_none_iff_forall_ne_some.2 fun o ho => hname ?_⟩
    refine List.mem_map.2 ⟨⟨b.name, d.inoAt o⟩, List.mem_filter.2 ⟨Disk.mem_list hlist ho, ?_⟩, rfl⟩
    simpa [ListedEntry.isPseudo] using hd.regular.bound_proper ho
  · exact editsOnly_closeListing _ _
  intro removed removed' w₂ w₂' hstep' honward' hremoved
  refine (together_orphanIfUnlinked hstep' p).bind (fun _ => ?_) ?_
  · exact .bind (.look _) fun _ => .bind (.note _) fun _ => .pure _
  intro _ _ w₃ w₃' hstep'' _ _
  refine .step (run_look _ _) (run_look _ _) rfl (.step (run_note _ _) (run_note _ _) rfl ?_)
  exact .pure (hstep''.noted _ _) (.add (.add (.refl _) hbelow) hremoved)


end TreeWatch.Tracker

import Mathlib.Data.List.Nodup
import TreeWatch.Proofs.Mirror.Bind
import TreeWatch.Proofs.Mirror.Directory

/-!
# Listings

What a listing says of a directory, and what becomes of the names that are not listed.

## Main results

- `Disk.mem_list`, `Disk.cases_of_mem_list` : what is listed
- `Tracker.mem_goneEntries` : which entries are out of date
- `Tracker.does_unbindAll`, `Tracker.does_unbindGone` : names that are not listed go
-/

namespace TreeWatch

namespace Disk

variable {d : Disk} {s c : Serial} {name : Bytes} {listing : List ListedEntry}

theorem list_eq_ok (h : d.list s = .ok listing) :
    ∃ n children, d.node? s = some n ∧ n.children = some children ∧
      listing = d.listing n children := by
  unfold list at h
  split at h
  · cases h
  · next n hn =>
    split at h
    · cases h
    · split at h
      · next children hchildren =>
        cases h
        exact ⟨n, children, hn, hchildren, rfl⟩
      · cases h

theorem exists_list {present : Serial → Prop} (hdir : d.isDirectory s) (hlistable : d.Listable present)
    (hs : present s) : ∃ listing, d.list s = .ok listing := by
  obtain ⟨children, hchildren⟩ := Option.isSome_iff_exists.1 hdir
  obtain ⟨n, hn, hnames⟩ := Option.bind_eq_some_iff.1 hchildren
  refine ⟨d.listing n children, ?_⟩
  simp [list, hn, hlistable s n hs hn, hnames]

/-- A directory that can be listed lists its names. -/
theorem mem_list (h : d.list s = .ok listing) (hc : d.child? s name = some c) :
    ⟨name, d.inoAt c⟩ ∈ listing := by
  obtain ⟨n, children, hn, hchildren, rfl⟩ := list_eq_ok h
  rw [child?_eq_of_children hn hchildren, SortedMap.get?_eq_some_iff] at hc
  unfold Disk.listing
  simp only [List.mem_append, List.mem_map]
  exact .inl (.inr ⟨(name, c), hc, rfl⟩)

/-- It also lists names that are not there. -/
theorem mem_list_of_phantom (h : d.list s = .ok listing) {n : Node} (hn : d.node? s = some n)
    {e : ListedEntry} (he : e ∈ n.phantoms) : e ∈ listing := by
  obtain ⟨n', children, hn', hchildren, rfl⟩ := list_eq_ok h
  rw [hn] at hn'
  cases hn'
  unfold Disk.listing
  simp only [List.mem_append]
  exact .inr he

/-- What is listed has an object with the inode number listed beside it, or is a phantom. -/
theorem cases_of_mem_list (h : d.list s = .ok listing) {e : ListedEntry} (he : e ∈ listing)
    (hproper : e.isPseudo = false) :
    (∃ c, d.child? s e.name = some c ∧ e.ino = d.inoAt c) ∨
      ∃ n, d.node? s = some n ∧ e ∈ n.phantoms := by
  obtain ⟨n, children, hn, hchildren, rfl⟩ := list_eq_ok h
  unfold Disk.listing at he
  simp only [List.mem_append, List.mem_map, List.mem_cons, List.not_mem_nil, or_false] at he
  rcases he with ((rfl | rfl) | ⟨⟨name, c⟩, hmem, rfl⟩) | hphantom
  · simp [ListedEntry.isPseudo, isPseudoName] at hproper
  · simp [ListedEntry.isPseudo, isPseudoName] at hproper
  · refine .inl ⟨c, ?_, rfl⟩
    rw [child?_eq_of_children hn hchildren, SortedMap.get?_eq_some_iff]
    exact hmem
  · exact .inr ⟨n, hn, hphantom⟩

end Disk

namespace Tracker

variable {σ : Type} {fs : Filesystem σ Serial} {d : Disk} {present : Serial → Prop}
  {w : Tracker σ} {p : InodeId} {s : Serial}

theorem mem_goneEntries {t : Tree} {r : InodeRecord} (hr : t.record? p = some r)
    {names : List Bytes} {e : EntryId} :
    e ∈ goneEntries t p names ↔ ∃ name, name ∉ names ∧ r.childEntryOf? name = some e := by
  unfold goneEntries Tree.childList
  rw [hr]
  simp only [List.mem_map, List.mem_filter, Prod.exists, exists_eq_right, r.mem_childList]
  simp [and_comm]

/-- No entry is out of date if all names of the directory are listed. -/
theorem goneEntries_eq_nil {t : Tree} (h : t.Sound) {names : List Bytes}
    (hnames : ∀ name i, t.child? p name = some i → name ∈ names) : goneEntries t p names = [] := by
  cases hr : t.record? p with
  | none => simp [goneEntries, Tree.childList, hr]
  | some r =>
    refine List.eq_nil_iff_forall_not_mem.2 fun e he => ?_
    obtain ⟨name, hname, hentry⟩ := (mem_goneEntries hr).1 he
    obtain ⟨b, hb, rfl, rfl⟩ := (h.child_iff hr _ _).1 hentry
    exact hname (hnames b.name b.child (h.child?_eq_some_iff.2 ⟨e, hb⟩))

/-- No entry occurs twice in a directory. -/
theorem nodup_goneEntries {t : Tree} (h : t.Sound) (p : InodeId) (names : List Bytes) :
    (goneEntries t p names).Nodup := by
  unfold goneEntries Tree.childList
  cases hr : t.record? p with
  | none => simp
  | some r =>
    have hdistinct : r.childList.Nodup := by
      unfold InodeRecord.childList
      cases r.children with
      | none => exact List.nodup_nil
      | some children => exact .of_map Prod.fst children.distinct
    refine List.Nodup.map_on ?_ (hdistinct.filter _)
    rintro ⟨name, e⟩ hx ⟨name', e'⟩ hy rfl
    have hx' := (r.mem_childList name e).1 (List.mem_filter.1 hx).1
    have hy' := (r.mem_childList name' e).1 (List.mem_filter.1 hy).1
    obtain ⟨b, hb, -, hname⟩ := (h.child_iff hr _ _).1 hx'
    obtain ⟨b', hb', -, hname'⟩ := (h.child_iff hr _ _).1 hy'
    rw [hb] at hb'
    cases hb'
    rw [← hname, ← hname']

/-- Entries of a directory whose names are not on the disk. -/
theorem does_unbindAll (hd : d.Distinguishes present) (hw : Ready fs d w)
    (hp : w.tree.view.Holds d p s) (hs : present s) {entries : List EntryId}
    (hnodup : entries.Nodup) (hentries : ∀ e ∈ entries, ∃ c name,
      w.tree.entryOf? e = some ⟨p, c, name⟩ ∧ d.child? s name = none ∧ d.Tends s name) :
    Does (unbindAll entries : Track σ ScanError ScanSummary) w True fun _ w' =>
      Worked d present w w' ∧ w'.tree.view.identity = w.tree.view.identity ∧
        ∀ e ∈ entries, ∀ b, w.tree.entryOf? e = some b → w'.tree.view.child p b.name = none := by
  induction entries generalizing w with
  | nil => exact .pure ⟨hw.worked, rfl, by simp⟩
  | cons e rest ih =>
    obtain ⟨hfirst, hrest⟩ := List.nodup_cons.1 hnodup
    obtain ⟨c, name, he, hgone, htends⟩ := hentries e List.mem_cons_self
    refine .bind (does_unbindEntry hw.sound he)
      (fun _ => .bind (editsOnly_unbindAll rest) fun _ => .pure _) ?_
    rintro ⟨⟩ w₁ ⟨hfiles, hsound, hview, hentryOf⟩
    have hunbound : View.Update d present w.tree.view w₁.tree.view := by
      rw [hview]
      refine .unbind hp hs htends fun o ho => ?_
      rw [hgone] at ho
      cases ho
    have hwork : Worked d present w w₁ := ⟨hfiles, hsound, .single hunbound⟩
    have hp₁ : w₁.tree.view.Holds d p s := hunbound.holds hd.regular hs hp
    have hothers : ∀ e' ∈ rest, w₁.tree.entryOf? e' = w.tree.entryOf? e' := by
      intro e' he'
      rw [hentryOf, if_neg]
      rintro rfl
      exact hfirst he'
    refine .bind (ih (hw.after hwork) hp₁ hrest ?_) (fun _ => .pure _) ?_
    · intro e' he'
      rw [hothers e' he']
      exact hentries e' (List.mem_cons_of_mem _ he')
    rintro _ w₂ ⟨hwork₂, hidentity₂, hnames₂⟩
    refine .pure ⟨hwork.trans hwork₂, ?_, fun e' he' b hb => ?_⟩
    · rw [hidentity₂, hview, View.identity_unbind]
    rcases List.mem_cons.1 he' with rfl | hmem
    · rw [he] at hb
      cases hb
      have hagrees : w₁.tree.view.Agrees d p s name := by
        rw [View.agrees_of_none hgone, hview, View.child_unbind, if_pos ⟨rfl, rfl⟩]
      exact (View.agrees_of_none hgone).1 (hwork₂.updates.agrees hd hs hp₁ hagrees)
    · exact hnames₂ e' hmem b (by rw [hothers e' hmem, hb])

/-- Entries of a directory whose names are not among those that it lists. -/
theorem does_unbindGone (hd : d.Distinguishes present) (hw : Ready fs d w)
    (hp : w.tree.view.Holds d p s) (hs : present s) (hsmall : ¬d.Oversized s)
    {listing : List ListedEntry} (hlist : d.list s = .ok listing) {gone : List EntryId}
    (hgone : goneEntries w.tree p ((listing.filter (!·.isPseudo)).map (·.name)) = gone) :
    Does (unbindAll gone : Track σ ScanError ScanSummary) w True fun _ w' =>
      Worked d present w w' ∧ w'.tree.view.identity = w.tree.view.identity ∧
        ∀ e ∈ gone, ∀ b, w.tree.entryOf? e = some b → w'.tree.view.child p b.name = none := by
  obtain ⟨r, hr⟩ := Tree.exists_record?_of_holds hp
  subst hgone
  refine does_unbindAll hd hw hp hs (nodup_goneEntries hw.sound p _) fun e he => ?_
  obtain ⟨name, hname, hentry⟩ := (mem_goneEntries hr).1 he
  obtain ⟨⟨p', c, name'⟩, hb, rfl, rfl⟩ := (hw.sound.child_iff hr _ _).1 hentry
  have hlisted : ∀ e ∈ listing, e.name = name' → isPseudoName name' = true := by
    intro e he hsame
    cases hproper : isPseudoName name' with
    | true => rfl
    | false =>
      refine absurd (List.mem_map.2 ⟨e, List.mem_filter.2 ⟨he, ?_⟩, hsame⟩) hname
      rw [ListedEntry.isPseudo, hsame, hproper]
      rfl
  have hchild : d.child? s name' = none := by
    refine Option.eq_none_iff_forall_ne_some.2 fun o ho => ?_
    have hproper := hlisted _ (Disk.mem_list hlist ho) rfl
    rw [hd.regular.bound_proper ho] at hproper
    cases hproper
  refine ⟨c, name', hb, hchild, hsmall, ?_⟩
  rw [Disk.Skips, hchild]
  by_cases hphantom : ∃ n, d.node? s = some n ∧ ∃ e ∈ n.phantoms, e.name = name'
  · obtain ⟨n, hn, e, he, hsame⟩ := hphantom
    exact .inl (hlisted e (Disk.mem_list_of_phantom hlist hn he) hsame)
  · exact .inr hphantom

end Tracker

end TreeWatch

import TreeWatch.Proofs.Mirror.Listing
import TreeWatch.Proofs.Mirror.Reclaim
import TreeWatch.Proofs.Tracker.Does

/-!
# What is said in the log

The program reports at the level of errors what should not happen: a number that another record still
has, an entry that cannot be taken out, a tree that is found inconsistent. This module says which changes
of a sound tree report nothing of the kind.

## Main definitions

- `View.Straight` : no name leads back to the directory that it is in
- `Ledger.Quiet` : nothing has been reported at the level of errors

## Main results

- `Ledger.log_destroy`, `Ledger.log_reclaim` : destroying records reports nothing at all
- `Tracker.quiet_resolve` : finding the record of an object reports no error

## Design notes

An entry that leads from a record back to it is met twice when the record is destroyed, and that is
reported. So nothing can be said of trees in which there is such an entry.
-/

namespace TreeWatch

/-- No name leads back to the directory that it is in. -/
def View.Straight (v : View) : Prop := ∀ i name, v.child i name ≠ some i

/-- Whatever has been reported was reported before or is no error. -/
def Ledger.Quiet (l l' : Ledger) : Prop := ∀ e ∈ l'.log, e ∈ l.log ∨ e.level ≠ .error

namespace Ledger

open TreeWatch.Tree

variable {l l' l'' : Ledger} {clock : Clock} {deadline : Instant} {x : InodeId} {e : EntryId}

namespace Quiet

theorem of_log_eq (h : l'.log = l.log) : Quiet l l' :=
  fun _ he => .inl (h ▸ he)

protected theorem refl : Quiet l l := of_log_eq rfl

theorem trans (h : Quiet l l') (h' : Quiet l' l'') : Quiet l l'' := by
  intro e he
  rcases h' e he with hmid | hlevel
  · exact h e hmid
  · exact .inr hlevel

theorem note {event : LogEvent} (h : event.level ≠ .error) : Quiet l (l.note event) := by
  intro e he
  rcases List.mem_append.1 he with hold | hnew
  · exact .inl hold
  · rw [List.mem_singleton.1 hnew]
    exact .inr h

end Quiet

/-! ### Records -/

/-- Putting in a record under a free number reports nothing. -/
theorem log_insertRecord {a : Attributes} {token : IdentityToken} (h : l.tree.lookupIno a.ino = none) :
    (l.insertRecord a token).2.log = l.log := by
  unfold insertRecord
  simp only [h]

theorem log_detach {b : DirectoryEntry} (hb : l.tree.entryOf? e = some b) :
    (detach clock x l e).log = l.log := by
  obtain ⟨p, hp⟩ : ∃ p, l.tree.removeEntry (clock l.reads) e = .ok p := exists_removeEntry_eq_ok hb
  simp only [detach, removeEntry, hp]

/-- Taking out entries that are there, each of them once, reports nothing. -/
theorem log_foldl_detach (h : l.tree.Sound) {entries : List EntryId} (hnodup : entries.Nodup)
    (hentries : ∀ e ∈ entries, ∃ b, l.tree.entryOf? e = some b) :
    (entries.foldl (detach clock x) l).log = l.log := by
  induction entries generalizing l with
  | nil => rfl
  | cons e rest ih =>
    obtain ⟨hfirst, hrest⟩ := List.nodup_cons.1 hnodup
    obtain ⟨b, hb⟩ := hentries e List.mem_cons_self
    have hdetached : Detached [e] l.tree (detach clock x l e).tree := detached_foldl_detach clock x h [e]
    rw [List.foldl_cons, ih hdetached.sound hrest fun e' he' => ?_, log_detach hb]
    rw [hdetached.entryOf?_eq, if_neg]
    · exact hentries e' (List.mem_cons_of_mem e he')
    · rintro hmem
      exact hfirst (List.mem_singleton.1 hmem ▸ he')

/-- No entry is met twice unless it leads from the record back to it. -/
theorem nodup_doomed {t : Tree} (h : t.Sound) {r : InodeRecord} (hr : t.record? x = some r)
    (hstraight : ∀ name, t.child? x name ≠ some x) :
    (r.links.elements ++ r.childList.map Prod.snd).Nodup := by
  have hchildren : (r.childList.map Prod.snd).Nodup := by
    simpa [Tracker.goneEntries, childList, hr] using Tracker.nodup_goneEntries h x []
  refine List.nodup_append.2 ⟨SortedMap.distinct _, hchildren, ?_⟩
  rintro e hlink _ hchild rfl
  obtain ⟨b, hb, hto⟩ := (h.link_iff hr e).1 ((SortedSet.mem_elements _ _).1 hlink)
  obtain ⟨⟨name, e'⟩, hmem, rfl⟩ := List.mem_map.1 hchild
  obtain ⟨b', hb', hfrom, -⟩ := (h.child_iff hr name e').1 ((r.mem_childList name e').1 hmem)
  cases hb.symm.trans hb'
  refine hstraight b.name (h.child?_eq_some_iff.2 ⟨e', ?_⟩)
  obtain ⟨parent, child, name'⟩ := b
  cases hto
  cases hfrom
  exact hb

/-- Destroying a record that no name inside leads back to reports nothing. -/
theorem log_destroy (h : l.tree.Sound) (clock : Clock)
    (hstraight : ∀ name, l.tree.child? x name ≠ some x) :
    (l.destroy clock x).2.log = l.log := by
  cases hr : l.tree.record? x with
  | none => rw [destroy_of_none clock x hr]
  | some r =>
    rw [snd_destroy clock x hr]
    refine log_foldl_detach h (nodup_doomed h hr hstraight) fun e he => ?_
    obtain ⟨b, hb, -⟩ := (mem_doomed x h hr e).1 he
    exact ⟨b, hb⟩

theorem quiet_invalidate (h : l.tree.Sound) (clock : Clock)
    (hstraight : ∀ name, l.tree.child? x name ≠ some x) :
    Quiet l (l.invalidate clock x) := by
  have hlog := log_destroy h clock hstraight
  unfold invalidate
  generalize l.destroy clock x = outcome at hlog ⊢
  obtain ⟨destroyed, l'⟩ := outcome
  cases destroyed
  · exact .of_log_eq hlog
  · exact (Quiet.of_log_eq hlog).trans (.note (by rintro ⟨⟩))

/-! ### Reclaiming -/

theorem log_destroyAll (h : l.tree.Sound) (inodes : List InodeId)
    (hidle : ∀ i ∈ inodes, l.tree.Idle i) : (l.destroyAll clock inodes).2.log = l.log := by
  induction inodes generalizing l with
  | nil => rfl
  | cons i rest ih =>
    have hi := hidle i List.mem_cons_self
    have hfirst : Tree.Pruned l.tree (l.destroy clock i).2.tree := pruned_destroy h hi
    have hrest := ih hfirst.sound fun j hj => hfirst.idle (hidle j (List.mem_cons_of_mem i hj))
    exact hrest.trans (log_destroy h clock (hi.child?_ne i))

/-- What waits has no entries that lead to it, so reclaiming reports nothing. -/
theorem log_reclaim (h : l.tree.Sound) : (l.reclaim clock deadline).2.log = l.log := by
  induction l using Ledger.reclaim.induct clock deadline with
  | case1 l round hlast =>
    rw [Ledger.reclaim, dif_pos hlast]
    exact log_destroyAll h _ fun i hi => idle_of_mem_expired h hi
  | case2 l round hlast hless ih =>
    rw [Ledger.reclaim, dif_neg hlast]
    have hidle : ∀ i ∈ expired l.tree deadline, l.tree.Idle i := fun i hi => idle_of_mem_expired h hi
    have hround : Tree.Pruned l.tree round.2.tree := pruned_destroyAll h _ hidle
    exact (ih hround.sound).trans (log_destroyAll h _ hidle)

end Ledger

namespace Tracker

variable {σ H ε ε' α β : Type} {w : Tracker σ}

theorem quiet_bind {x : Track σ ε α} {f : α → Track σ ε β} (hx : w.ledger.Quiet (x.run w).2.ledger)
    (hf : ∀ a w', x.run w = (.ok a, w') → w'.ledger.Quiet ((f a).run w').2.ledger) :
    w.ledger.Quiet ((x >>= f).run w).2.ledger := by
  rw [run_bind]
  rcases hrun : x.run w with ⟨r, w'⟩
  rw [hrun] at hx
  cases r with
  | error e => exact hx
  | ok a => exact hx.trans (hf a w' hrun)

/-- Finding the record of an object reports no error, whatever the filesystem answers. -/
theorem quiet_resolve (fs : Filesystem σ H) (object : H) (h : w.tree.Sound)
    (hstraight : w.tree.view.Straight) : w.ledger.Quiet ((resolve fs object).run w).2.ledger := by
  have hattributes : ((wrapping IdentityError.call (attributes fs object)).run w).2.ledger =
      w.ledger := by
    rw [run_wrapping, attributes, run_ask]
    cases ((fs.attributes object).run w.files).1 <;> rfl
  refine quiet_bind (.of_log_eq (congrArg _ hattributes)) fun a w₁ hrun₁ => ?_
  rw [hrun₁] at hattributes
  refine quiet_bind .refl fun token w₂ hrun₂ => ?_
  have hledger : w₂.ledger = w.ledger := by
    rw [identityToken, run_ask] at hrun₂
    obtain ⟨-, rfl⟩ := Prod.ext_iff.1 hrun₂
    exact hattributes
  clear hrun₁ hrun₂ hattributes
  rw [run_bind, run_look]
  simp only
  cases hlookup : w₂.tree.lookupIno a.ino with
  | none => exact .of_log_eq (Ledger.log_insertRecord hlookup)
  | some existing =>
    have hbelongs : ((belongsTo fs existing token).run w₂).2.ledger = w₂.ledger :=
      ledger_belongsTo existing token w₂
    refine quiet_bind (.of_log_eq (congrArg _ hbelongs)) fun same w₃ hrun₃ => ?_
    rw [hrun₃] at hbelongs
    have htree : w₃.tree = w.tree := congrArg Ledger.tree (hbelongs.trans hledger)
    cases same with
    | true => exact .refl
    | false =>
      -- the number is free once the old record has gone
      let event : LogEvent := .recycled a.ino (w₃.tree.resolvePath existing)
      have hsound : (w₃.ledger.note event).tree.Sound := by
        change w₃.tree.Sound
        exact htree ▸ h
      have hold : (w₃.ledger.note event).tree.lookupIno a.ino = some existing := by
        change w₃.tree.lookupIno a.ino = some existing
        rw [← hlookup, tree, tree, hbelongs]
      have hback : ∀ name, (w₃.ledger.note event).tree.child? existing name ≠ some existing := by
        intro name
        change w₃.tree.child? existing name ≠ some existing
        rw [htree]
        exact hstraight existing name
      have hfree := Tree.lookupIno_invalidate w₃.clock hsound hold
      have hinvalidated := Ledger.quiet_invalidate hsound w₃.clock hback
      have hnoted : w₃.ledger.Quiet (w₃.ledger.note event) := .note (by rintro ⟨⟩)
      refine Ledger.Quiet.trans ((hnoted.trans hinvalidated).trans ?_) (.note (by rintro ⟨⟩))
      exact .of_log_eq (Ledger.log_insertRecord hfree)

end Tracker

end TreeWatch

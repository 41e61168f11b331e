import TreeWatch.Proofs.Tree.Edits

/-!
# Touched records

Binding a name touches the record that the name leads to. A record is no longer touched when it is
destroyed, and it has no names then. So every record with a name is touched until the touched ones are
taken.

## Main definitions

- `Tree.Noticed` : every record that an entry binds is touched

## Main results

- `Tree.Edits.noticed` : this is kept, whatever happens to the tree
- `Tree.Noticed.mem_takeTouched` : whoever takes the touched records gets all that have a name
-/

namespace TreeWatch

namespace Tree

variable {t t' : Tree} {i : InodeId}

/-! ### Which records are touched -/

@[simp] theorem touched_waitIfUnlinked (i : InodeId) (now : Instant) :
    (t.waitIfUnlinked i now).touched = t.touched := by
  rcases waitIfUnlinked_cases (t := t) i now with heq | ⟨heq, -⟩ <;> rw [heq]
  rfl

@[simp] theorem touched_orphanIfUnlinked (i : InodeId) (now : Instant) :
    (t.orphanIfUnlinked i now).2.touched = t.touched := by
  unfold orphanIfUnlinked
  split
  · split <;> rfl
  · rfl

@[simp] theorem touched_dropRecord : (t.dropRecord i).2.touched = t.touched.erase i := by
  cases hremove : t.inodes.remove i.index with
  | none => simp [dropRecord, hremove]
  | some p => simp [dropRecord, hremove]

theorem touched_removeEntry {now : Instant} {e : EntryId} {o : Observation}
    (hremove : t.removeEntry now e = .ok (t', o)) : t'.touched = t.touched := by
  obtain ⟨b, entries, -, rfl⟩ := removeEntry_eq_ok hremove
  rw [touched_waitIfUnlinked]
  rfl

end Tree

namespace Ledger

variable (clock : Clock) (x : InodeId)

theorem touched_detach (l : Ledger) (e : EntryId) :
    (detach clock x l e).tree.touched = l.tree.touched := by
  unfold detach removeEntry
  cases hremove : l.tree.removeEntry (clock l.reads) e with
  | ok p => exact Tree.touched_removeEntry hremove
  | error err => rfl

theorem touched_foldl_detach (l : Ledger) (entries : List EntryId) :
    (entries.foldl (detach clock x) l).tree.touched = l.tree.touched := by
  induction entries generalizing l with
  | nil => rfl
  | cons e rest ih =>
    rw [List.foldl_cons, ih, touched_detach]

theorem touched_destroy {l : Ledger} {r : InodeRecord} (hr : l.tree.record? x = some r) :
    (l.destroy clock x).2.tree.touched = l.tree.touched.erase x := by
  rw [tree_destroy clock x hr, Tree.touched_dropRecord, touched_foldl_detach]

end Ledger

namespace Tree

variable {made : Attributes → IdentityToken → Prop} {t t' : Tree}

/-! ### Records with names -/

/-- Every record that an entry binds is touched. -/
def Noticed (t : Tree) : Prop :=
  ∀ e b, t.entryOf? e = some b → t.touched.contains b.child

theorem noticed_empty (grace : Nat) : ({ grace } : Tree).Noticed := by
  intro e b hb
  cases hb

theorem Noticed.of_eq (h : t.Noticed) (hentries : t'.entries = t.entries)
    (htouched : t'.touched = t.touched) : t'.Noticed := by
  intro e b hb
  rw [entryOf?, hentries] at hb
  rw [htouched]
  exact h e b hb

theorem Noticed.withEntry (h : t.Noticed) (wf : t.entries.WellFormed) {parent child : InodeId}
    {name : Bytes} (fits : (t.withEntry parent name child).Fits) :
    (t.withEntry parent name child).Noticed := by
  intro e b hb
  rw [entryOf?_withEntry wf fits] at hb
  show (t.touched.add child).contains b.child
  rw [SortedSet.contains_add, Bool.or_eq_true, decide_eq_true_iff]
  split at hb
  · cases hb
    exact .inl rfl
  · exact .inr (h e b hb)

theorem Noticed.removeEntry (h : t.Noticed) (hsound : t.Sound) {now : Instant} {e : EntryId}
    {o : Observation} (hremove : t.removeEntry now e = .ok (t', o)) : t'.Noticed := by
  intro e' b hb
  rw [(hsound.removeEntry hremove).entryOf?_eq] at hb
  rw [touched_removeEntry hremove]
  split at hb
  · cases hb
  · exact h e' b hb

/-- A record that is destroyed takes its entries along. -/
theorem Noticed.destroy {l : Ledger} (h : l.tree.Noticed) (hsound : l.tree.Sound) (clock : Clock)
    (x : InodeId) : (l.destroy clock x).2.tree.Noticed := by
  cases hr : l.tree.record? x with
  | none =>
    rw [Ledger.destroy_of_none clock x hr]
    exact h
  | some r =>
    intro e b hb
    rw [(Ledger.destroyed_destroy clock x hsound hr).entryOf?_eq_some_iff] at hb
    obtain ⟨hold, -, hchild⟩ := hb
    rw [Ledger.touched_destroy clock x hr, SortedSet.contains_erase, Bool.and_eq_true,
      decide_eq_true_iff]
    exact ⟨hchild, h e b hold⟩

theorem Edit.noticed (h : Edit made t t') (hsound : t.Sound) (fits : t'.Fits) (hn : t.Noticed) :
    t'.Noticed := by
  cases h with
  | insert => exact hn.of_eq rfl rfl
  | @replace l clock old _ _ =>
    rw [Ledger.tree_invalidate]
    exact (hn.destroy hsound clock old).of_eq rfl rfl
  | refresh => exact hn.of_eq rfl rfl
  | bind hadd =>
    obtain ⟨-, -, -, rfl⟩ := addEntry_eq_ok hadd
    exact hn.withEntry hsound.entries_wellFormed fits
  | unbind hremove => exact hn.removeEntry hsound hremove
  | destroy => exact hn.destroy hsound _ _
  | wait => exact hn.of_eq (entries_orphanIfUnlinked _ _) (touched_orphanIfUnlinked _ _)
  | root => exact hn.of_eq rfl rfl

/-- Records with names stay touched. -/
theorem Edits.noticed (h : Edits made t t') (hsound : t.Sound) (fits : t'.Fits) (hn : t.Noticed) :
    t'.Noticed :=
  h.keep (fun _ _ hedit hsound fits => hedit.noticed hsound fits) hsound fits hn

/-! ### Taking them -/

theorem mem_takeTouched {i : InodeId} :
    i ∈ t.takeTouched.1 ↔ t.touched.contains i ∧ ∃ r, t.record? i = some r := by
  rw [takeTouched, List.mem_filter, SortedSet.mem_elements, isLive, Arena.contains,
    Option.isSome_iff_exists]
  rfl

/-- Nothing that has a name is missed. -/
theorem Noticed.mem_takeTouched (h : t.Noticed) (hsound : t.Sound) {p c : InodeId} {name : Bytes}
    (hc : t.child? p name = some c) : c ∈ t.takeTouched.1 := by
  obtain ⟨e, -, hentry⟩ := Option.bind_eq_some_iff.1 hc
  obtain ⟨b, hb, rfl⟩ := Option.map_eq_some_iff.1 hentry
  exact Tree.mem_takeTouched.2 ⟨h e b hb, hsound.child_live hb⟩

end Tree

end TreeWatch

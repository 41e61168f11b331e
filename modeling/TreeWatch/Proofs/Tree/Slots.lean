import TreeWatch.Proofs.Arena.Count
import TreeWatch.Proofs.Tree.Ledger

/-!
# The slots of records

What changes do to the arena in which the records of a tree are kept: they change records and take
some out, and one change puts in one record at most, which it does last.

## Main results

- `Ledger.shrinks_destroy` : destroying a record puts in nothing
- `Ledger.Edit.inodes_cases` : what any change does
-/

namespace TreeWatch

namespace Tree

variable {t t' : Tree} {now : Instant}

theorem inodes_waitIfUnlinked (t : Tree) (i : InodeId) (now : Instant) :
    (t.waitIfUnlinked i now).inodes = t.inodes := by
  rcases waitIfUnlinked_cases (t := t) i now with heq | ⟨heq, -⟩ <;> rw [heq]
  rfl

theorem inodes_orphanIfUnlinked (t : Tree) (i : InodeId) (now : Instant) :
    (t.orphanIfUnlinked i now).2.inodes = t.inodes := by
  unfold orphanIfUnlinked
  split
  · split <;> rfl
  · rfl

theorem shrinks_removeEntry {e : EntryId} {o : Observation}
    (hremove : t.removeEntry now e = .ok (t', o)) : t.inodes.Shrinks t'.inodes := by
  obtain ⟨b, entries, -, rfl⟩ := removeEntry_eq_ok hremove
  rw [inodes_waitIfUnlinked]
  exact (Arena.Shrinks.refl.modify _ _).modify _ _

theorem shrinks_dropRecord (t : Tree) (i : InodeId) :
    t.inodes.Shrinks (t.dropRecord i).2.inodes := by
  cases hremove : t.inodes.remove i.index with
  | none =>
    simp only [dropRecord, hremove]
    exact .refl
  | some p =>
    simp only [dropRecord, hremove]
    exact Arena.Shrinks.refl.remove hremove

end Tree

namespace Ledger

open TreeWatch.Tree

variable {known : Testimony} {clock : Clock} {l l' : Ledger}

theorem shrinks_foldl_detach (x : InodeId) (l : Ledger) (entries : List EntryId) :
    l.tree.inodes.Shrinks (entries.foldl (detach clock x) l).tree.inodes := by
  induction entries generalizing l with
  | nil => exact .refl
  | cons e rest ih =>
    have hfirst : l.tree.inodes.Shrinks (detach clock x l e).tree.inodes := by
      unfold detach removeEntry
      cases hremove : l.tree.removeEntry (clock l.reads) e with
      | ok p => exact shrinks_removeEntry hremove
      | error err => exact .refl
    exact hfirst.trans (ih _)

theorem shrinks_destroy (l : Ledger) (x : InodeId) :
    l.tree.inodes.Shrinks (l.destroy clock x).2.tree.inodes := by
  cases hr : l.tree.record? x with
  | none =>
    rw [destroy_of_none clock x hr]
    exact .refl
  | some r =>
    rw [tree_destroy clock x hr]
    exact (shrinks_foldl_detach x l _).trans (shrinks_dropRecord _ x)

/-- A change puts in no record, or one, and that last. -/
theorem Edit.inodes_cases (h : Edit known clock l l') :
    l.tree.inodes.Shrinks l'.tree.inodes ∨
      ∃ a r, l.tree.inodes.Shrinks a ∧ l'.tree.inodes = (a.insert r).2 := by
  cases h with
  | note event => exact .inl .refl
  | insert _ _ =>
    rw [tree_insertRecord]
    exact .inr ⟨l.tree.inodes, _, .refl, rfl⟩
  | @replace old _ _ _ _ _ =>
    rw [tree_insertRecord, tree_invalidate]
    exact .inr ⟨_, _, shrinks_destroy l old, rfl⟩
  | refresh => exact .inl (Arena.Shrinks.refl.modify _ _)
  | bind _ hadd =>
    obtain ⟨t, o, htree, rfl⟩ := addEntry_eq_ok hadd
    obtain ⟨-, -, -, rfl⟩ := Tree.addEntry_eq_ok htree
    exact .inl ((Arena.Shrinks.refl.modify _ _).modify _ _)
  | unbind hremove =>
    obtain ⟨t, o, htree, rfl⟩ := removeEntry_eq_ok hremove
    exact .inl (shrinks_removeEntry htree)
  | @wait i =>
    have hsame : (l.orphanIfUnlinked i clock).tree.inodes = l.tree.inodes :=
      inodes_orphanIfUnlinked l.tree i (clock l.reads)
    rw [hsame]
    exact .inl .refl
  | root => exact .inl .refl
  | reclaim =>
    exact .inl (keep_reclaim (P := fun l' => l.tree.inodes.Shrinks l'.tree.inodes)
      (fun l' x hl' => hl'.trans (shrinks_destroy l' x)) (clock l.reads) .refl)

end Ledger

end TreeWatch

import Mathlib.Data.Finite.Prod
import Mathlib.Order.WellFounded
import Mathlib.Order.RelClasses
import TreeWatch.Proofs.Garbage.Stray

/-!
# Where the ways to a record begin

Going up from a record along the names that lead to it one comes to the root, or to a record without a
name, or one walks in a circle.

## Main definitions

- `Tree.Inside` : a record has a name in another one
- `Tree.Attached` : names lead from the root to the record
- `Tree.Circled` : the record is on a circle of names, or below one

## Main results

- `Tree.Sound.attached_or_circled` : otherwise it is below a record that waits or is stray
-/

namespace TreeWatch

instance : Finite InodeId := by
  have hnumber : Finite UInt32 := Finite.of_injective UInt32.toFin fun _ _ => UInt32.toFin_inj.1
  refine Finite.of_injective (fun i : InodeId => (i.index.slot, i.index.generation)) ?_
  rintro ⟨⟨slot, generation⟩⟩ ⟨⟨slot', generation'⟩⟩ heq
  cases heq
  rfl

namespace Tree

open Relation (TransGen ReflTransGen)

/-- The record `c` has a name in the record `p`. -/
def Inside (t : Tree) (p c : InodeId) : Prop := ∃ name, t.child? p name = some c

/-- Names lead from the root to the record. -/
def Attached (t : Tree) (i : InodeId) : Prop := ∃ r, t.root = some r ∧ ReflTransGen t.Inside r i

/-- The record is on a circle of names, or below one. -/
def Circled (t : Tree) (i : InodeId) : Prop :=
  ∃ j, TransGen t.Inside j j ∧ ReflTransGen t.Inside j i

variable {t : Tree} {i : InodeId}

theorem Idle.not_attached (h : t.Idle i) : ¬t.Attached i := by
  rintro ⟨r, hr, hway⟩
  rcases ReflTransGen.cases_tail hway with rfl | ⟨p, -, name, hc⟩
  · exact h.root_ne hr
  · exact h.child?_ne p name hc

theorem Idle.not_circled (h : t.Idle i) : ¬t.Circled i := by
  rintro ⟨j, hcircle, hway⟩
  rcases ReflTransGen.cases_tail hway with rfl | ⟨p, -, name, hc⟩
  · obtain ⟨p, -, name, hc⟩ := TransGen.tail'_iff.1 hcircle
    exact h.child?_ne p name hc
  · exact h.child?_ne p name hc

/-- If no circle is above a record, some record above it has nothing above. -/
theorem exists_top (h : ¬t.Circled i) : ∃ j, ReflTransGen t.Inside j i ∧ ∀ p, ¬t.Inside p j := by
  -- the records above `i` are finitely many, and being above is irreflexive among them
  let above (p c : InodeId) : Prop := TransGen t.Inside p c ∧ ReflTransGen t.Inside c i
  have hirrefl : Std.Irrefl above := ⟨fun j hj => h ⟨j, hj.1, hj.2⟩⟩
  have htrans : IsTrans InodeId above := ⟨fun _ _ _ hab hbc => ⟨hab.1.trans hbc.1, hbc.2⟩⟩
  have hwf : WellFounded above := Finite.wellFounded_of_trans_of_irrefl above
  obtain ⟨j, hj, hmin⟩ := hwf.has_min {j | ReflTransGen t.Inside j i} ⟨i, .refl⟩
  exact ⟨j, hj, fun p hp => hmin p (.head hp hj) ⟨.single hp, hj⟩⟩

/-- What is neither below the root nor below a circle is below a record that waits or is stray. -/
theorem Sound.attached_or_circled (h : t.Sound) (hlive : t.identity? i ≠ none) :
    t.Attached i ∨ t.Circled i ∨
      ∃ j, (t.isOrphan j ∨ t.Stray j) ∧ ReflTransGen t.Inside j i := by
  by_cases hcircled : t.Circled i
  · exact .inr (.inl hcircled)
  obtain ⟨j, hj, htop⟩ := exists_top hcircled
  by_cases hroot : t.root = some j
  · exact .inl ⟨j, hroot, hj⟩
  have hlive : t.identity? j ≠ none := by
    rcases ReflTransGen.cases_head hj with rfl | ⟨c, ⟨name, hc⟩, -⟩
    · exact hlive
    · exact (h.live_of_child?_eq_some hc).1
  refine .inr (.inr ⟨j, ?_, hj⟩)
  cases hwaits : t.isOrphan j with
  | true => exact .inl rfl
  | false =>
    refine .inr ⟨⟨hroot, fun p name hc => htop p ⟨name, hc⟩⟩, hlive, hwaits⟩

end Tree

end TreeWatch

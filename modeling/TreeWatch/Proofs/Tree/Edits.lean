import Mathlib.Logic.Relation
import TreeWatch.Proofs.Tree.View

/-!
# Sequences of changes

Everything that happens to a tree is a sequence of a few changes. What each of them keeps is kept by
all sequences.

## Main definitions

- `Tree.Edit` : one change
- `Tree.Edits` : any number of changes
- `Tree.Vouched` : every record says of its object what the filesystem once said

## Main results

- `Tree.Edits.grows` : slots are never given up
- `Tree.Edits.sound` : sound trees stay sound while they fit their slot numbers
- `Tree.Edits.keep` : what every change keeps is kept
- `Tree.Edits.vouched` : records say what the filesystem said

## Design notes

A record whose inode number has come to stand for another object is destroyed and replaced in one
change. In between the number would belong to no record, and nothing could be said about the names
that were bound to the object.
-/

namespace TreeWatch.Tree

/-- One change of a tree. New records are for objects of which the filesystem has said what the
record says. -/
inductive Edit (made : Attributes → IdentityToken → Prop) : Tree → Tree → Prop
  | insert {t : Tree} {attributes : Attributes} {token : IdentityToken} :
    made attributes token → t.lookupIno attributes.ino = none →
      Edit made t (t.insertRecord attributes token).2
  | replace {l : Ledger} (clock : Clock) {old : InodeId} {attributes : Attributes}
    {token : IdentityToken} :
    made attributes token → l.tree.lookupIno attributes.ino = some old →
      Edit made l.tree ((l.invalidate clock old).tree.insertRecord attributes token).2
  | refresh {t : Tree} {i : InodeId} {fingerprint : Fingerprint} :
    Edit made t (t.refreshFingerprint i fingerprint)
  | bind {t t' : Tree} {parent child : InodeId} {name : Bytes} {e : EntryId} {o : Observation} :
    t.addEntry parent name child = .ok (e, t', o) → Edit made t t'
  | unbind {t t' : Tree} {now : Instant} {e : EntryId} {o : Observation} :
    t.removeEntry now e = .ok (t', o) → Edit made t t'
  | destroy {l : Ledger} {clock : Clock} {i : InodeId} : Edit made l.tree (l.destroy clock i).2.tree
  | wait {t : Tree} {i : InodeId} {now : Instant} : Edit made t (t.orphanIfUnlinked i now).2
  | root {t : Tree} {i : InodeId} : Edit made t (t.setRoot i)

/-- Any number of changes. -/
abbrev Edits (made : Attributes → IdentityToken → Prop) : Tree → Tree → Prop :=
  Relation.ReflTransGen (Edit made)

variable {made : Attributes → IdentityToken → Prop} {t t' : Tree}

/-! ### Slots -/

theorem Edit.grows (h : Edit made t t') : t.Grows t' := by
  cases h with
  | insert => exact grows_insertRecord
  | @replace l clock old _ _ =>
    refine Grows.trans ?_ grows_insertRecord
    rw [Ledger.tree_invalidate]
    exact Ledger.grows_destroy clock old l
  | refresh => exact ⟨by simp [refreshFingerprint, modifyRecord], Nat.le_refl _⟩
  | bind hadd =>
    obtain ⟨-, -, -, rfl⟩ := addEntry_eq_ok hadd
    exact grows_withEntry
  | unbind hremove => exact grows_removeEntry hremove
  | destroy => exact Ledger.grows_destroy ..
  | @wait i now =>
    unfold orphanIfUnlinked
    split
    · split <;> exact ⟨Nat.le_refl _, Nat.le_refl _⟩
    · exact Grows.refl t
  | root => exact ⟨Nat.le_refl _, Nat.le_refl _⟩

theorem Edits.grows (h : Edits made t t') : t.Grows t' := by
  induction h with
  | refl => exact Grows.refl t
  | tail _ hlast ih => exact ih.trans hlast.grows

/-! ### Soundness -/

/-- What is left after a record has been destroyed because its inode number stands for another
object: the number is free. -/
theorem lookupIno_invalidate {l : Ledger} (clock : Clock) {old : InodeId} {ino : UInt64}
    (h : l.tree.Sound) (hold : l.tree.lookupIno ino = some old) :
    (l.invalidate clock old).tree.lookupIno ino = none := by
  obtain ⟨r, hr, hino⟩ := (h.ino_iff ino old).1 hold
  have hdestroyed := Ledger.destroyed_destroy clock old h hr
  rw [Ledger.tree_invalidate, Option.eq_none_iff_forall_ne_some]
  intro i hi
  rw [hdestroyed.sound.ino_iff, ← exists_ino_iff, hdestroyed.identity?_eq] at hi
  obtain ⟨x, hx, hxino⟩ := hi
  split at hx
  · cases hx
  · next hne =>
    obtain ⟨r', hr', hino'⟩ := exists_ino_iff.1 ⟨x, hx, hxino⟩
    exact hne (h.eq_of_ino_eq hr' hr (hino'.trans hino.symm))

theorem Edit.sound (h : Edit made t t') (hsound : t.Sound) (fits : t'.Fits) : t'.Sound := by
  cases h with
  | insert _ hino => exact hsound.insertRecord hino fits
  | replace clock _ hold =>
    refine Sound.insertRecord ?_ (lookupIno_invalidate clock hsound hold) fits
    rw [Ledger.tree_invalidate]
    exact Ledger.sound_destroy _ _ hsound
  | refresh => exact hsound.refreshFingerprint ..
  | bind hadd =>
    obtain ⟨⟨r, hchild⟩, ⟨r', hparent, hdir, hfree⟩, -, rfl⟩ := addEntry_eq_ok hadd
    exact hsound.withEntry hchild hparent hdir hfree fits
  | unbind hremove => exact (hsound.removeEntry hremove).sound
  | destroy => exact Ledger.sound_destroy _ _ hsound
  | wait => exact hsound.orphanIfUnlinked ..
  | root => exact hsound.setRoot _

/-- Sound trees stay sound. -/
theorem Edits.sound (h : Edits made t t') (hsound : t.Sound) (fits : t'.Fits) : t'.Sound := by
  induction h with
  | refl => exact hsound
  | tail _ hlast ih => exact hlast.sound (ih (hlast.grows.fits fits)) fits

/-- Whatever every change keeps while the tree is sound and fits its slot numbers is kept by any number
of changes. -/
theorem Edits.keep {P : Tree → Prop}
    (hstep : ∀ t t', Edit made t t' → t.Sound → t'.Fits → P t → P t') (h : Edits made t t')
    (hsound : t.Sound) (fits : t'.Fits) (ht : P t) : P t' := by
  induction h with
  | refl => exact ht
  | @tail u t' hfirst hlast ih =>
    have hmid : u.Fits := hlast.grows.fits fits
    exact hstep u t' hlast (Edits.sound hfirst hsound hmid) fits (ih hmid)

/-! ### What records say of their objects -/

/-- Every record says of its object what the filesystem once said, but for the fingerprint, which is
refreshed. -/
def Vouched (made : Attributes → IdentityToken → Prop) (t : Tree) : Prop :=
  ∀ i a token, t.identity? i = some (a, token) →
    ∃ fingerprint, made { a with fingerprint } token

theorem Vouched.insertRecord (h : Vouched made t) (hsound : t.Sound) {attributes : Attributes}
    {token : IdentityToken} (hmade : made attributes token)
    (hino : t.lookupIno attributes.ino = none)
    (fits : (t.insertRecord attributes token).2.Fits) :
    Vouched made (t.insertRecord attributes token).2 := by
  have hidentity := congrArg View.identity (hsound.view_insertRecord hino fits)
  intro i a token' hi
  rw [← view_identity, hidentity] at hi
  simp only [View.insert] at hi
  split at hi
  · cases hi
    exact ⟨_, hmade⟩
  · exact h i a token' hi

theorem Vouched.destroyed (h : Vouched made t) {x : InodeId} (hdestroyed : Destroyed x t t') :
    Vouched made t' := by
  intro i a token hi
  rw [hdestroyed.identity?_eq] at hi
  split at hi
  · cases hi
  · exact h i a token hi

theorem Vouched.destroy {l : Ledger} (h : Vouched made l.tree) (hsound : l.tree.Sound)
    (clock : Clock) (x : InodeId) : Vouched made (l.destroy clock x).2.tree := by
  cases hr : l.tree.record? x with
  | none =>
    rw [Ledger.destroy_of_none clock x hr]
    exact h
  | some r => exact h.destroyed (Ledger.destroyed_destroy clock x hsound hr)

theorem Edit.vouched (h : Edit made t t') (hsound : t.Sound) (fits : t'.Fits)
    (hv : Vouched made t) : Vouched made t' := by
  cases h with
  | insert hmade hino => exact hv.insertRecord hsound hmade hino fits
  | @replace l clock old attributes token hmade hold =>
    have hfree := lookupIno_invalidate clock hsound hold
    rw [Ledger.tree_invalidate] at hfree fits ⊢
    exact (hv.destroy hsound clock old).insertRecord (Ledger.sound_destroy _ _ hsound) hmade hfree fits
  | @refresh _ i fingerprint =>
    have hidentity := congrArg View.identity (hsound.view_refreshFingerprint i fingerprint)
    intro j a token hj
    rw [← view_identity, hidentity] at hj
    simp only [View.refresh, view_identity, Option.map_eq_some_iff] at hj
    obtain ⟨⟨a', token'⟩, hold, heq⟩ := hj
    obtain ⟨fp, hmade⟩ := hv j a' token' hold
    split at heq
    · cases heq
      exact ⟨fp, hmade⟩
    · cases heq
      exact ⟨fp, hmade⟩
  | bind hadd =>
    obtain ⟨-, -, -, rfl⟩ := addEntry_eq_ok hadd
    intro i a token hi
    rw [identity?_withEntry] at hi
    exact hv i a token hi
  | unbind hremove =>
    intro i a token hi
    rw [(hsound.removeEntry hremove).identity?_eq] at hi
    exact hv i a token hi
  | destroy => exact hv.destroy hsound _ _
  | @wait _ i now =>
    intro j a token hj
    rw [← view_identity, view_orphanIfUnlinked] at hj
    exact hv j a token hj
  | root => exact hv

/-- Records say what the filesystem said. -/
theorem Edits.vouched (h : Edits made t t') (hsound : t.Sound) (fits : t'.Fits)
    (hv : Vouched made t) : Vouched made t' :=
  h.keep (fun _ _ hedit hsound fits => hedit.vouched hsound fits) hsound fits hv

end TreeWatch.Tree

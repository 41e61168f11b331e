import TreeWatch.Proofs.Tree.Edits

/-!
# Sequences of changes of a ledger

All work on a tree is done on its ledger, which keeps a journal and a log besides. This module says what
one change of a ledger is, and on which answers of the filesystem it rests.

## Main definitions

- `Testimony` : what is known of the answers of a filesystem
- `Ledger.Edit` : one change
- `Ledger.Edits` : any number of changes

## Main results

- `Ledger.Edits.tree` : the tree of the ledger is changed as `Tree.Edits` says

## Design notes

A reclaim pass is one change here and many changes of the tree. What it destroys is told by the tree at
its beginning, which is lost when it is taken apart.
-/

namespace TreeWatch

/-- What is known of the answers of a filesystem. Unless told otherwise nothing is known. -/
structure Testimony where
  /-- Attributes and a token that were read from one handle. -/
  made : Attributes → IdentityToken → Prop := fun _ _ => True
  /-- Tokens that were said to be stale. -/
  stale : IdentityToken → Prop := fun _ => True
  /-- Names that were listed. -/
  listed : Bytes → Prop := fun _ => True
  /-- Records that were found for the root of the mount, each in the tree in which it was. -/
  root : Tree → InodeId → Prop := fun _ _ => True

namespace Ledger

/-- One change of a ledger. It reads the clock whenever an entry goes, a record begins to wait or a pass
begins. -/
inductive Edit (known : Testimony) (clock : Clock) : Ledger → Ledger → Prop
  | note {l : Ledger} (event : LogEvent) : Edit known clock l (l.note event)
  | insert {l : Ledger} {attributes : Attributes} {token : IdentityToken} :
    known.made attributes token → l.tree.lookupIno attributes.ino = none →
      Edit known clock l (l.insertRecord attributes token).2
  | replace {l : Ledger} {old : InodeId} {attributes : Attributes} {token : IdentityToken} :
    known.made attributes token → l.tree.lookupIno attributes.ino = some old →
      (∀ r, l.tree.record? old = some r → known.stale r.token) →
        Edit known clock l ((l.invalidate clock old).insertRecord attributes token).2
  | refresh {l : Ledger} {i : InodeId} {fingerprint : Fingerprint} :
    Edit known clock l { l with tree := l.tree.refreshFingerprint i fingerprint }
  | bind {l l' : Ledger} {parent child : InodeId} {name : Bytes} {e : EntryId} :
    known.listed name → l.addEntry parent name child = .ok (e, l') → Edit known clock l l'
  | unbind {l l' : Ledger} {e : EntryId} : l.removeEntry clock e = .ok l' → Edit known clock l l'
  | wait {l : Ledger} {i : InodeId} : Edit known clock l (l.orphanIfUnlinked i clock)
  | root {l : Ledger} {i : InodeId} :
    known.root l.tree i → Edit known clock l { l with tree := l.tree.setRoot i }
  | reclaim {l : Ledger} : Edit known clock l (l.reclaimNow clock).2

/-- Any number of changes of a ledger. -/
abbrev Edits (known : Testimony) (clock : Clock) : Ledger → Ledger → Prop :=
  Relation.ReflTransGen (Edit known clock)

variable {known : Testimony} {clock : Clock} {l l' : Ledger}

theorem addEntry_eq_ok {parent child : InodeId} {name : Bytes} {e : EntryId}
    (h : l.addEntry parent name child = .ok (e, l')) :
    ∃ t o, l.tree.addEntry parent name child = .ok (e, t, o) ∧
      l' = { l with tree := t, journal := l.journal ++ [o] } := by
  unfold addEntry at h
  cases hadd : l.tree.addEntry parent name child with
  | error x =>
    rw [hadd] at h
    cases h
  | ok p =>
    obtain ⟨e', t, o⟩ := p
    rw [hadd] at h
    cases h
    exact ⟨t, o, rfl, rfl⟩

theorem removeEntry_eq_ok {e : EntryId} (h : l.removeEntry clock e = .ok l') :
    ∃ t o, l.tree.removeEntry (clock l.reads) e = .ok (t, o) ∧
      l' = { l with tree := t, journal := l.journal ++ [o], reads := l.reads + 1 } := by
  unfold removeEntry at h
  cases hremove : l.tree.removeEntry (clock l.reads) e with
  | error x =>
    rw [hremove] at h
    cases h
  | ok p =>
    obtain ⟨t, o⟩ := p
    rw [hremove] at h
    cases h
    exact ⟨t, o, rfl, rfl⟩

/-! ### Destroying many records -/

section keep

variable {P : Ledger → Prop} (hdestroy : ∀ l inode, P l → P (l.destroy clock inode).2)
include hdestroy

theorem keep_destroyAll (inodes : List InodeId) (hl : P l) : P (l.destroyAll clock inodes).2 := by
  induction inodes generalizing l with
  | nil => exact hl
  | cons inode rest ih => exact ih (hdestroy l inode hl)

/-- What is kept when one record is destroyed is kept by a reclaim pass. -/
theorem keep_reclaim (deadline : Instant) (hl : P l) : P (l.reclaim clock deadline).2 := by
  induction l using Ledger.reclaim.induct clock deadline with
  | case1 l round hlast =>
    rw [Ledger.reclaim, dif_pos hlast]
    exact keep_destroyAll hdestroy _ hl
  | case2 l round hlast hless ih =>
    rw [Ledger.reclaim, dif_neg hlast]
    exact ih (keep_destroyAll hdestroy _ hl)

end keep

theorem edits_reclaim (made : Attributes → IdentityToken → Prop) (l : Ledger)
    (clock : Clock) (deadline : Instant) : Tree.Edits made l.tree (l.reclaim clock deadline).2.tree :=
  keep_reclaim (P := fun l' => Tree.Edits made l.tree l'.tree) (fun _ _ h => h.tail .destroy) deadline
    .refl

/-! ### Changes of the tree -/

theorem Edit.tree (h : Edit known clock l l') : Tree.Edits known.made l.tree l'.tree := by
  cases h with
  | note event => exact .refl
  | insert hmade hino =>
    rw [tree_insertRecord]
    exact .single (.insert hmade hino)
  | replace hmade hold _ =>
    rw [tree_insertRecord]
    exact .single (.replace clock hmade hold)
  | refresh => exact .single .refresh
  | bind _ hadd =>
    obtain ⟨t, o, htree, rfl⟩ := addEntry_eq_ok hadd
    exact .single (.bind htree)
  | unbind hremove =>
    obtain ⟨t, o, htree, rfl⟩ := removeEntry_eq_ok hremove
    exact .single (.unbind htree)
  | wait => exact .single .wait
  | root => exact .single .root
  | reclaim => exact edits_reclaim _ l.tick clock _

/-- The tree of the ledger is changed step by step as well. -/
theorem Edits.tree (h : Edits known clock l l') : Tree.Edits known.made l.tree l'.tree := by
  induction h with
  | refl => exact .refl
  | tail _ hlast ih => exact ih.trans hlast.tree

/-- Whatever every change keeps while the tree is sound and fits its slot numbers is kept by any number
of changes. -/
theorem Edits.keep {P : Ledger → Prop}
    (hstep : ∀ l l', Edit known clock l l' → l.tree.Sound → l'.tree.Fits → P l → P l')
    (h : Edits known clock l l') (hsound : l.tree.Sound) (fits : l'.tree.Fits) (hl : P l) : P l' := by
  induction h with
  | refl => exact hl
  | @tail m l' hfirst hlast ih =>
    have hmid : m.tree.Fits := hlast.tree.grows.fits fits
    exact hstep m l' hlast ((Edits.tree hfirst).sound hsound hmid) fits (ih hmid)

end Ledger

end TreeWatch

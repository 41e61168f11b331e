import TreeWatch.Log
import TreeWatch.Tree.Edit

/-!
# Trees with a journal

The tree together with what has been reported about it: the journal of all names bound and
unbound, and the log. All work on the tree is done through this type, so no change goes unreported.

## Main definitions

- `Ledger` : a tree, its journal and the log
- `Ledger.addEntry`, `Ledger.removeEntry`, `Ledger.insertRecord`
- `Ledger.destroy` : takes out a record with all entries into and out of it
- `Ledger.reclaim` : destroys the records that have waited long enough

## Design notes

Reclaiming a directory leaves its children without entries; with no grace window they are reclaimed
in the same call. Every round destroys a record or is the last, so the number of live records
bounds the rounds.
-/

namespace TreeWatch

namespace Arena

variable {α : Type}

/-- How many slots are occupied. -/
def live (a : Arena α) : Nat :=
  a.slots.toList.countP (·.value.isSome)

theorem slots_of_get? {a : Arena α} {i : Index} {value : α} (h : a.get? i = some value) :
    a.slots[i.slot.toNat]? = some ⟨i.generation, some value⟩ := by
  rw [get?, slot?] at h
  cases slot_eq : a.slots[i.slot.toNat]? with
  | none => simp [slot_eq] at h
  | some s =>
    rw [slot_eq] at h
    by_cases current : s.generation = i.generation
    · simp only [current, if_true, Option.bind_some] at h
      rw [← current, ← h]
    · simp [current] at h

theorem live_set (a : Arena α) (i : Index) (value : α) : (a.set i value).live = a.live := by
  unfold set
  split
  · next present =>
    obtain ⟨old, get_eq⟩ := Option.isSome_iff_exists.1 present
    obtain ⟨inside, slot_eq⟩ := Array.getElem?_eq_some_iff.1 (slots_of_get? get_eq)
    have pos : 0 < a.live := List.countP_pos_iff.2
      ⟨_, Array.getElem_mem_toList inside, by simp [slot_eq]⟩
    simp only [live, Array.toList_setIfInBounds] at pos ⊢
    rw [List.countP_set (by simpa using inside)]
    simp only [Array.getElem_toList, slot_eq, Option.isSome_some, if_true]
    omega
  · rfl

theorem live_modify (a : Arena α) (i : Index) (f : α → α) : (a.modify i f).live = a.live := by
  unfold modify
  split
  · exact live_set ..
  · rfl

theorem live_remove {a b : Arena α} {i : Index} {value : α} (h : a.remove i = some (value, b)) :
    b.live + 1 = a.live := by
  rw [remove, Option.map_eq_some_iff] at h
  obtain ⟨old, get_eq, pair_eq⟩ := h
  obtain ⟨inside, slot_eq⟩ := Array.getElem?_eq_some_iff.1 (slots_of_get? get_eq)
  have pos : 0 < a.live := List.countP_pos_iff.2
    ⟨_, Array.getElem_mem_toList inside, by simp [slot_eq]⟩
  cases pair_eq
  simp only [live, Array.toList_setIfInBounds] at pos ⊢
  rw [List.countP_set (by simpa using inside)]
  simp only [Array.getElem_toList, slot_eq, Option.isSome_some, Option.isSome_none, if_true,
    Bool.false_eq_true, if_false]
  omega

end Arena

namespace Tree

/-- How many records are live, counted in the arena. -/
def liveCount (t : Tree) : Nat := t.inodes.live

theorem liveCount_modifyRecord (t : Tree) (inode : InodeId) (f : InodeRecord → InodeRecord) :
    (t.modifyRecord inode f).liveCount = t.liveCount :=
  Arena.live_modify ..

theorem liveCount_waitIfUnlinked (t : Tree) (inode : InodeId) (now : Instant) :
    (t.waitIfUnlinked inode now).liveCount = t.liveCount := by
  unfold waitIfUnlinked
  split
  · split <;> rfl
  · rfl

theorem liveCount_removeEntry {t t' : Tree} {now : Instant} {entry : EntryId} {o : Observation}
    (h : t.removeEntry now entry = .ok (t', o)) : t'.liveCount = t.liveCount := by
  rw [removeEntry] at h
  split at h
  · cases h
  · cases h
    rw [liveCount_waitIfUnlinked, liveCount_modifyRecord, liveCount_modifyRecord]
    rfl

theorem liveCount_dropRecord (t : Tree) (inode : InodeId) :
    (t.dropRecord inode).2.liveCount + (if (t.dropRecord inode).1 then 1 else 0) =
      t.liveCount := by
  rw [dropRecord]
  simp only
  split
  · rfl
  · next r inodes remove_eq =>
    simpa [liveCount] using Arena.live_remove remove_eq

end Tree

/-- A tree with the journal of its changes and the log, both in the order of the events. -/
structure Ledger where
  tree : Tree
  journal : List Observation := []
  log : List LogEvent := []
  /-- How often the clock has been read. -/
  reads : Nat := 0
deriving DecidableEq

namespace Ledger

/-- Reports an event. -/
def note (l : Ledger) (event : LogEvent) : Ledger :=
  { l with log := l.log ++ [event] }

/-- Puts in a record for an object. It is an error of the caller, and reported as such, if the
inode number belongs to another record still. -/
def insertRecord (l : Ledger) (attributes : Attributes) (token : IdentityToken) :
    InodeId × Ledger :=
  let previous := l.tree.lookupIno attributes.ino
  let (inode, tree) := l.tree.insertRecord attributes token
  let l := { l with tree }
  match previous with
  | some previous => (inode, l.note (.stillMapped attributes.ino previous inode))
  | none => (inode, l)

/-- Binds `name` in the directory `parent` to `child`. -/
def addEntry (l : Ledger) (parent : InodeId) (name : Bytes) (child : InodeId) :
    Except TreeError (EntryId × Ledger) :=
  match l.tree.addEntry parent name child with
  | .ok (entry, tree, observation) =>
    .ok (entry, { l with tree, journal := l.journal ++ [observation] })
  | .error e => .error e

/-- Unbinds an entry. The clock is read, since the object may be left without entries; if it is not,
nothing depends on the reading. -/
def removeEntry (l : Ledger) (clock : Clock) (entry : EntryId) : Except TreeError Ledger :=
  match l.tree.removeEntry (clock l.reads) entry with
  | .ok (tree, observation) =>
    .ok { l with tree, journal := l.journal ++ [observation], reads := l.reads + 1 }
  | .error e => .error e

/-- Unbinds an entry of a record that is being destroyed. An entry that is both into and out of
the record is met a second time, which is reported. -/
def detach (clock : Clock) (inode : InodeId) (l : Ledger) (entry : EntryId) : Ledger :=
  match l.removeEntry clock entry with
  | .ok l => l
  | .error e => l.note (.detachFailed entry inode e)

/-- Destroys a record: first the entries into it, then those out of it, then the record itself.
Says whether there was such a record. -/
def destroy (l : Ledger) (clock : Clock) (inode : InodeId) : Bool × Ledger :=
  match l.tree.record? inode with
  | none => (false, { l with tree := { l.tree with orphans := l.tree.orphans.erase inode } })
  | some r =>
    let doomed := r.links.elements ++ r.childList.map Prod.snd
    let l := doomed.foldl (detach clock inode) l
    let (destroyed, tree) := l.tree.dropRecord inode
    (destroyed, { l with tree })

/-- Destroys a record at once, whether anything binds it or not. -/
def invalidate (l : Ledger) (clock : Clock) (inode : InodeId) : Ledger :=
  let (destroyed, l) := l.destroy clock inode
  if destroyed then l.note (.invalidated inode) else l

/-- Destroys records one after another; gives how many of them there were. -/
def destroyAll (l : Ledger) (clock : Clock) : List InodeId → Nat × Ledger
  | [] => (0, l)
  | inode :: rest =>
    let (destroyed, l) := l.destroy clock inode
    let (count, l) := l.destroyAll clock rest
    ((if destroyed then 1 else 0) + count, l)

theorem liveCount_detach (clock : Clock) (inode : InodeId) (l : Ledger) (entry : EntryId) :
    (detach clock inode l entry).tree.liveCount = l.tree.liveCount := by
  unfold detach removeEntry
  cases remove_eq : l.tree.removeEntry (clock l.reads) entry with
  | error e => rfl
  | ok p =>
    obtain ⟨tree, o⟩ := p
    exact Tree.liveCount_removeEntry remove_eq

theorem liveCount_foldl_detach (clock : Clock) (inode : InodeId) (entries : List EntryId)
    (l : Ledger) : (entries.foldl (detach clock inode) l).tree.liveCount = l.tree.liveCount := by
  induction entries generalizing l with
  | nil => rfl
  | cons entry rest ih => rw [List.foldl_cons, ih, liveCount_detach]

theorem liveCount_destroy (l : Ledger) (clock : Clock) (inode : InodeId) :
    (l.destroy clock inode).2.tree.liveCount + (if (l.destroy clock inode).1 then 1 else 0) =
      l.tree.liveCount := by
  unfold destroy
  split
  · rfl
  · rw [← liveCount_foldl_detach clock inode _ l]
    exact Tree.liveCount_dropRecord ..

/-- Destroying lowers the number of live records by the count that is given. -/
theorem liveCount_destroyAll (l : Ledger) (clock : Clock) (inodes : List InodeId) :
    (l.destroyAll clock inodes).2.tree.liveCount + (l.destroyAll clock inodes).1 =
      l.tree.liveCount := by
  induction inodes generalizing l with
  | nil => rfl
  | cons inode rest ih =>
    have step := liveCount_destroy l clock inode
    have later := ih (l.destroy clock inode).2
    simp only [destroyAll]
    omega

/-- The waiting records whose grace window has passed at `deadline`, longest waiting first. -/
def expired (t : Tree) (deadline : Instant) : List InodeId :=
  (t.orphans.toList.filter fun p => t.grace ≤ Instant.since deadline p.2).map Prod.fst

/-- Destroys the waiting records whose grace window has passed at `deadline`, also those that
begin to wait meanwhile; gives how many records were destroyed. -/
def reclaim (l : Ledger) (clock : Clock) (deadline : Instant) : Nat × Ledger :=
  let round := l.destroyAll clock (expired l.tree deadline)
  if last : round.1 = 0 then round
  else
    have : round.2.tree.liveCount < l.tree.liveCount := by
      have balance : round.2.tree.liveCount + round.1 = l.tree.liveCount :=
        liveCount_destroyAll ..
      omega
    let later := round.2.reclaim clock deadline
    (round.1 + later.1, later.2)
termination_by l.tree.liveCount

/-- The clock is read once. -/
def tick (l : Ledger) : Ledger := { l with reads := l.reads + 1 }

/-- Destroys the waiting records whose grace window has passed by now. The clock is read once for
that, and again each time that an entry goes. -/
def reclaimNow (l : Ledger) (clock : Clock) : Nat × Ledger :=
  l.tick.reclaim clock (clock l.reads)

/-- Lets a record wait if nothing binds it. The clock is read when its waiting begins. -/
def orphanIfUnlinked (l : Ledger) (inode : InodeId) (clock : Clock) : Ledger :=
  let waiting := l.tree.orphanIfUnlinked inode (clock l.reads)
  { l with tree := waiting.2, reads := if waiting.1 then l.reads + 1 else l.reads }

end Ledger

end TreeWatch

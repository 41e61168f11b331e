import TreeWatch.Map.Sorted
import TreeWatch.Tree.Basic

/-!
# The fingerprint store

Remembers the fingerprints of regular files and which of them have been looked at since they last
changed.

## Main definitions

- `StoreKey` : an inode number together with the token that was current when the row was written
- `StoreRow` : a fingerprint, and whether the content was looked at
- `Store.absorb` : takes notice of a record
- `Store.markScanned` : notes that the content was looked at
-/

namespace TreeWatch

/-- The key of a row. -/
structure StoreKey where
  ino : UInt64
  handleType : Int32
  handle : Bytes
deriving DecidableEq, Inhabited

namespace StoreKey

/-- Keys are ordered by inode number, then by type, then by handle. -/
instance : Ord StoreKey where
  compare := compareLex (compareOn StoreKey.ino)
    (compareLex (compareOn StoreKey.handleType) (compareOn StoreKey.handle))

instance : Std.TransOrd StoreKey :=
  inferInstanceAs (Std.TransCmp (compareLex (compareOn StoreKey.ino)
    (compareLex (compareOn StoreKey.handleType) (compareOn StoreKey.handle))))

instance : Std.LawfulEqOrd StoreKey where
  eq_of_compare {a b} h := by
    change compareLex (compareOn StoreKey.ino)
      (compareLex (compareOn StoreKey.handleType) (compareOn StoreKey.handle)) a b = .eq at h
    rw [compareLex_eq_eq, compareLex_eq_eq] at h
    obtain ⟨ino_eq, type_eq, handle_eq⟩ := h
    simp only [compareOn, Std.LawfulEqCmp.compare_eq_iff_eq] at ino_eq type_eq handle_eq
    cases a
    cases b
    simp_all

/-- The key of an object. -/
def ofToken (ino : UInt64) (token : IdentityToken) : StoreKey :=
  ⟨ino, token.type, token.bytes⟩

/-- The token in a key, unless it has too many bytes. -/
def token (k : StoreKey) : Except IdentityError IdentityToken :=
  IdentityToken.ofBytes k.handleType k.handle

end StoreKey

/-- Whether the content of a file was looked at. -/
inductive ScanState where
  /-- The content is to be looked at. -/
  | pending
  /-- The content was looked at and has not changed since. -/
  | scanned
deriving DecidableEq, Inhabited

/-- What is remembered about a file. -/
structure StoreRow where
  fingerprint : Fingerprint
  state : ScanState
deriving DecidableEq, Inhabited

/-- The remembered files. -/
structure Store where
  rows : SortedMap StoreKey StoreRow := .empty
deriving DecidableEq

namespace Store

/-- The store without rows. -/
def empty : Store := {}

instance : Inhabited Store := ⟨empty⟩

def size (s : Store) : Nat := s.rows.size

def get? (s : Store) (k : StoreKey) : Option StoreRow := s.rows.get? k

/-- The keys of the files that are to be looked at. -/
def pending (s : Store) : List StoreKey :=
  (s.rows.toList.filter fun p => p.2.state = .pending).map Prod.fst

/-- Takes notice of the fingerprint of a regular file. Says whether a row was put in or has to be
looked at again. -/
def absorb (s : Store) (r : InodeRecord) : Bool × Store :=
  if r.kind = .regular then
    let key := StoreKey.ofToken r.ino r.token
    match s.rows.get? key with
    | none => (true, ⟨s.rows.insert key ⟨r.fingerprint, .pending⟩⟩)
    | some row =>
      if row.fingerprint.divergesFrom r.fingerprint then
        (row.state ≠ .pending, ⟨s.rows.insert key ⟨r.fingerprint, .pending⟩⟩)
      else (false, s)
  else (false, s)

/-- Takes notice of records one after another; gives how many rows were put in or have to be looked
at again. -/
def absorbAll (s : Store) : List InodeRecord → Nat × Store
  | [] => (0, s)
  | r :: rest =>
    let (changed, s) := s.absorb r
    let (count, s) := s.absorbAll rest
    ((if changed then 1 else 0) + count, s)

/-- Notes that the content of a file was looked at when it had the given fingerprint. Says whether
there is a row of the file. -/
def markScanned (s : Store) (key : StoreKey) (fingerprint : Fingerprint) : Bool × Store :=
  match s.rows.get? key with
  | some _ => (true, ⟨s.rows.insert key ⟨fingerprint, .scanned⟩⟩)
  | none => (false, s)

end Store

end TreeWatch

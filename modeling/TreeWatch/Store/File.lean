import TreeWatch.Store.Codec
import TreeWatch.Store.Frame

/-!
# The file of the store

## Main definitions

- `StoreError` : why a file does not hold a store
- `Store.ofFile` : the store in a file
- `Store.load` : the store to start with, which has no rows if the file holds none
-/

namespace TreeWatch

/-- Why a file does not hold a store. -/
inductive StoreError where
  /-- The file is no sequence of frames. -/
  | compression
  | decode (error : Codec.DecodeError)
deriving DecidableEq

namespace StoreError

/-- What is reported about the failure. -/
def message : StoreError → String
  | .compression => "Failed to (de)compress the fingerprint store"
  | .decode _ => "Failed to decode the fingerprint store"

/-- What is reported about a failure after which there is no going on: more memory was asked for
than there can be. -/
def fatal? : StoreError → Option String
  | .decode .tooManyRows => some "Hash table capacity overflow"
  | .decode .handleTooLong => some "capacity overflow"
  | _ => none

end StoreError

namespace Store

def ofContent (content : Bytes) : Except StoreError Store :=
  (Codec.decode content).mapError .decode

def ofFile (file : Bytes) : Except StoreError Store :=
  match Frame.contents? file with
  | some content => ofContent content
  | none => .error .compression

/-- The store to start with: that of the file, or one without rows if there is nothing usable. The
failures after which there is no going on remain. -/
def load (read : Except StoreError Store) : Except String Store :=
  match read with
  | .ok s => .ok s
  | .error e =>
    match e.fatal? with
    | some text => .error text
    | none => .ok .empty

end Store

end TreeWatch

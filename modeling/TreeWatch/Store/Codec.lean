import TreeWatch.Store.Basic

/-!
# The written form of the store

Rows are written one after another behind their number. Integers take one byte if they are small,
and otherwise a marker byte and as many bytes as they need; signed ones are folded onto the unsigned
ones first. Timestamps take eight bytes. All numbers are written least significant byte first.

## Main definitions

- `Codec.encode` : the written form of a store
- `Codec.decode` : the store of a written form; what follows behind the last row is ignored
-/

namespace TreeWatch.Codec

/-- Why bytes are not the written form of a store. -/
inductive DecodeError where
  /-- The bytes end too early. -/
  | unexpectedEnd
  /-- A marker announces an integer of a width that does not fit here. -/
  | badMarker
  /-- The state of a row has another number than those known. -/
  | unknownState
  /-- There are said to be more rows than a table can be made for. -/
  | tooManyRows
  /-- A handle is said to be longer than memory can be. -/
  | handleTooLong
deriving DecidableEq

/-- Reads something off the front of a byte string and gives the rest. -/
abbrev Reader (α : Type) := Bytes → Except DecodeError (α × Bytes)

/-- Splits off as many bytes as asked for. -/
def take (n : Nat) : Reader Bytes := fun bytes =>
  let front := bytes.take n
  if front.length = n then .ok (front, bytes.drop n) else .error .unexpectedEnd

/-- Reads an unsigned number of a fixed width. -/
def fixed (width : Nat) : Reader Nat := fun bytes => do
  let (front, rest) ← take width bytes
  return (Bytes.ofLittleEndian front, rest)

/-- The marker of numbers that take two bytes. -/
def marker16 : UInt8 := 251

/-- The marker of numbers that take four bytes. -/
def marker32 : UInt8 := 252

/-- The marker of numbers that take eight bytes. -/
def marker64 : UInt8 := 253

/-- The written form of an unsigned number below 2^64. -/
def varint (n : Nat) : Bytes :=
  if n < 251 then [UInt8.ofNat n]
  else if n < 0x10000 then marker16 :: Bytes.littleEndian 2 n
  else if n < 0x100000000 then marker32 :: Bytes.littleEndian 4 n
  else marker64 :: Bytes.littleEndian 8 n

/-- Reads an unsigned number of at most `width` bytes. -/
def readVarint (width : Nat) : Reader Nat
  | [] => .error .unexpectedEnd
  | b :: rest =>
    if b < marker16 then .ok (b.toNat, rest)
    else if b = marker16 then fixed 2 rest
    else if b = marker32 then fixed 4 rest
    else if b = marker64 ∧ 8 ≤ width then fixed 8 rest
    else .error .badMarker

/-- Folds the integers onto the natural numbers: 0, -1, 1, -2, 2 and so on. -/
def zigzag (i : Int) : Nat :=
  if 0 ≤ i then (2 * i).toNat else (-2 * i - 1).toNat

/-- Unfolds a natural number. -/
def unzigzag (n : Nat) : Int :=
  if n % 2 = 0 then n / 2 else -(n / 2 : Int) - 1

def stateNumber : ScanState → Nat
  | .pending => 0
  | .scanned => 1

/-- The state with a number. -/
def stateOf? : Nat → Option ScanState
  | 0 => some .pending
  | 1 => some .scanned
  | _ => none

/-- The written form of a key. -/
def encodeKey (k : StoreKey) : Bytes :=
  varint k.ino.toNat ++ varint (zigzag k.handleType.toInt) ++ varint k.handle.length ++ k.handle

/-- The written form of a timestamp. -/
def encodeSeconds (t : Seconds) : Bytes :=
  Bytes.littleEndian 8 t.bits.toNat

/-- The written form of a row. -/
def encodeRow (r : StoreRow) : Bytes :=
  varint r.fingerprint.size.toNat ++ encodeSeconds r.fingerprint.mtime ++
    encodeSeconds r.fingerprint.ctime ++ varint (stateNumber r.state)

/-- The written form of pairs of keys and rows. -/
def encodePairs (pairs : List (StoreKey × StoreRow)) : Bytes :=
  pairs.flatMap fun p => encodeKey p.1 ++ encodeRow p.2

/-- The written form of rows in any order. -/
def encodeRows (pairs : List (StoreKey × StoreRow)) : Bytes :=
  varint pairs.length ++ encodePairs pairs

/-- The written form of a store. -/
def encode (s : Store) : Bytes :=
  encodeRows s.rows.toList

/-- The greatest length of a byte string in memory. -/
def maxLength : Nat := 0x7FFFFFFFFFFFFFFF

/-- Reads a byte string behind its length. -/
def readHandle : Reader Bytes := fun bytes => do
  let (length, rest) ← readVarint 8 bytes
  if length > maxLength then throw .handleTooLong
  take length rest

def readKey : Reader StoreKey := fun bytes => do
  let (ino, rest) ← readVarint 8 bytes
  let (type, rest) ← readVarint 4 rest
  let (handle, rest) ← readHandle rest
  return (⟨.ofNat ino, .ofInt (unzigzag type), handle⟩, rest)

/-- Reads a timestamp. -/
def readSeconds : Reader Seconds := fun bytes => do
  let (bits, rest) ← fixed 8 bytes
  return (⟨.ofNat bits⟩, rest)

def readRow : Reader StoreRow := fun bytes => do
  let (size, rest) ← readVarint 8 bytes
  let (mtime, rest) ← readSeconds rest
  let (ctime, rest) ← readSeconds rest
  let (number, rest) ← readVarint 4 rest
  match stateOf? number with
  | some state => return (⟨⟨.ofNat size, mtime, ctime⟩, state⟩, rest)
  | none => throw .unknownState

/-- Reads as many pairs of keys and rows as asked for. -/
def readPairs : Nat → Reader (List (StoreKey × StoreRow))
  | 0, bytes => .ok ([], bytes)
  | n + 1, bytes => do
    let (key, rest) ← readKey bytes
    let (row, rest) ← readRow rest
    let (pairs, rest) ← readPairs n rest
    return ((key, row) :: pairs, rest)

/-- The bytes that a row takes in the table of a loaded store. -/
def rowFootprint : Nat := 72

/-- The least power of two that is no less than `n`. -/
def powerAbove (n : Nat) : Nat :=
  if n ≤ 1 then 1 else 1 <<< (Nat.log2 (n - 1) + 1)

/-- Whether a table for this many rows would be larger than memory can be: tables have a power of
two of places, of which one in eight stays vacant. -/
def exceedsMemory (rows : Nat) : Bool :=
  powerAbove (rows * 8 / 7) * (rowFootprint + 1) > maxLength

/-- Reads a number of rows and then the rows. -/
def readRows : Reader (List (StoreKey × StoreRow)) := fun bytes => do
  let (count, rest) ← readVarint 8 bytes
  if exceedsMemory count then throw .tooManyRows
  readPairs count rest

/-- The store with the rows in a list; of two rows with one key the later counts. -/
def storeOf (pairs : List (StoreKey × StoreRow)) : Store :=
  ⟨pairs.foldl (fun m p => m.insert p.1 p.2) .empty⟩

/-- The store of a written form. -/
def decode (bytes : Bytes) : Except DecodeError Store :=
  (readRows bytes).map fun p => storeOf p.1

end TreeWatch.Codec

import TreeWatch.Bytes

/-!
# Checksums of frames

The 64-bit xxHash of a byte string, of which frames keep the lower half.

## Main definitions

- `Checksum.hash` : the hash of a byte string
-/

namespace TreeWatch.Checksum

/-- The five primes of the hash. -/
def prime1 : UInt64 := 11400714785074694791
@[inherit_doc prime1] def prime2 : UInt64 := 14029467366897019727
@[inherit_doc prime1] def prime3 : UInt64 := 1609587929392839161
@[inherit_doc prime1] def prime4 : UInt64 := 9650029242287828579
@[inherit_doc prime1] def prime5 : UInt64 := 2870177450012600261

/-- Rotates the bits to the left. -/
def rotate (x : UInt64) (n : UInt64) : UInt64 :=
  (x <<< n) ||| (x >>> (64 - n))

/-- Mixes eight bytes into an accumulator. -/
def round (acc lane : UInt64) : UInt64 :=
  rotate (acc + lane * prime2) 31 * prime1

/-- Joins two accumulators. -/
def merge (acc other : UInt64) : UInt64 :=
  (acc ^^^ round 0 other) * prime1 + prime4

/-- The number in the bytes, least significant first. -/
def lane (bytes : Bytes) : UInt64 := .ofNat (Bytes.ofLittleEndian bytes)

/-- Four accumulators, one for each quarter of a stripe. -/
structure Accumulators where
  a : UInt64 := prime1 + prime2
  b : UInt64 := prime2
  c : UInt64 := 0
  d : UInt64 := 0 - prime1

/-- Mixes stripes of 32 bytes into the accumulators; gives what is left. -/
def stripes (acc : Accumulators) : (count : Nat) → Bytes → Accumulators × Bytes
  | 0, bytes => (acc, bytes)
  | count + 1, bytes =>
    stripes
      { a := round acc.a (lane (bytes.take 8))
        b := round acc.b (lane ((bytes.drop 8).take 8))
        c := round acc.c (lane ((bytes.drop 16).take 8))
        d := round acc.d (lane ((bytes.drop 24).take 8)) }
      count (bytes.drop 32)

def Accumulators.join (acc : Accumulators) : UInt64 :=
  let sum := rotate acc.a 1 + rotate acc.b 7 + rotate acc.c 12 + rotate acc.d 18
  merge (merge (merge (merge sum acc.a) acc.b) acc.c) acc.d

/-- Mixes in single bytes. -/
def mixBytes (acc : UInt64) (bytes : Bytes) : UInt64 :=
  bytes.foldl (fun acc b => rotate (acc ^^^ (b.toUInt64 * prime5)) 11 * prime1) acc

/-- Mixes in four bytes if there are as many, and then single ones. -/
def mixFour (acc : UInt64) (bytes : Bytes) : UInt64 :=
  if 4 ≤ bytes.length then
    mixBytes (rotate (acc ^^^ (lane (bytes.take 4) * prime1)) 23 * prime2 + prime3) (bytes.drop 4)
  else mixBytes acc bytes

/-- Mixes in groups of eight bytes, and then the others. -/
def mixEights (acc : UInt64) : (count : Nat) → Bytes → UInt64
  | 0, bytes => mixFour acc bytes
  | count + 1, bytes =>
    mixEights (rotate (acc ^^^ round 0 (lane (bytes.take 8))) 27 * prime1 + prime4)
      count (bytes.drop 8)

/-- Spreads the bits. -/
def avalanche (x : UInt64) : UInt64 :=
  let x := (x ^^^ (x >>> 33)) * prime2
  let x := (x ^^^ (x >>> 29)) * prime3
  x ^^^ (x >>> 32)

/-- The hash of a byte string. -/
def hash (bytes : Bytes) : UInt64 :=
  let length := bytes.length
  let (start, rest) :=
    if 32 ≤ length then
      let (acc, rest) := stripes {} (length / 32) bytes
      (acc.join, rest)
    else (prime5, bytes)
  avalanche (mixEights (start + .ofNat length) (rest.length / 8) rest)

end TreeWatch.Checksum

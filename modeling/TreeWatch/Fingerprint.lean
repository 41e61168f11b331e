/-!
# Fingerprints

The size and the two timestamps of an object. Two fingerprints that diverge mean that the content
may have changed in between.

## Main definitions

- `Seconds` : a point in time as the bits of a double-precision number of seconds
- `Fingerprint` : size, modification time and change time
- `Fingerprint.divergesFrom` : whether the content may have changed

## Design notes

A timestamp is kept as its bits, so that a stored one is given back exactly, also when it is no
number. Timestamps are compared as floating-point numbers, and only up to a tolerance, because
filesystems round them differently.
-/

namespace TreeWatch

/-- A point in time: the bits of a double-precision number of seconds. -/
structure Seconds where
  bits : UInt64
deriving DecidableEq, Inhabited

namespace Seconds

/-- The point in time as a floating-point number. -/
def toFloat (t : Seconds) : Float := Float.ofBits t.bits

/-- The point in time that a floating-point number means. -/
def ofFloat (x : Float) : Seconds := ⟨x.toBits⟩

def zero : Seconds := ⟨0⟩

/-- A whole number of seconds. -/
def ofNat (n : Nat) : Seconds := ofFloat (Float.ofNat n)

/-- Whole seconds and nanoseconds, combined into fractional seconds. -/
def ofParts (seconds nanoseconds : Int64) : Seconds :=
  ofFloat (seconds.toFloat + nanoseconds.toFloat / 1e9)

/-- Timestamps that are closer than this count as equal. -/
def tolerance : Float := 1e-4

/-- Whether two timestamps are further apart than the tolerance. -/
def apart (a b : Seconds) : Bool :=
  (a.toFloat - b.toFloat).abs > tolerance

end Seconds

/-- Size and timestamps of an object. -/
structure Fingerprint where
  size : UInt64
  /-- When the content was modified. -/
  mtime : Seconds
  /-- When the object was changed. -/
  ctime : Seconds
deriving DecidableEq, Inhabited

namespace Fingerprint

/-- The fingerprint of an object of no size and no age. -/
def zero : Fingerprint := ⟨0, .zero, .zero⟩

/-- Whether the content may have changed between the two fingerprints. -/
def divergesFrom (a b : Fingerprint) : Bool :=
  a.size != b.size || a.mtime.apart b.mtime || a.ctime.apart b.ctime

end Fingerprint

end TreeWatch

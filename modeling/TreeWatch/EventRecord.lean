import TreeWatch.Bytes
import TreeWatch.Log

/-!
# Event records

The form in which the kernel delivers notifications: records one behind the other in a buffer. A
record begins with its length, and its head has a fixed size; what follows up to the length is
padding.

## Main definitions

- `EventRecord` : the head of a record
- `EventRecord.encode` : a record as it is delivered
- `EventRecord.parse`, `EventRecord.read` : the records in a buffer
-/

namespace TreeWatch

/-- The head of a record, as far as the tracker looks at it. -/
structure EventRecord where
  version : UInt8
  mask : UInt64
  /-- The descriptor of the object, or a negative number if there is none. -/
  fd : Int32
deriving DecidableEq

namespace EventRecord

def headSize : Nat := 24

/-- The fields of a head that nobody looks at: a reserved byte and the number of a process. -/
structure Unread where
  reserved : UInt8 := 0
  process : UInt32 := 0

/-- A record as it is delivered, with padding behind its head. -/
def encode (r : EventRecord) (padding : Bytes) (unread : Unread := {}) : Bytes :=
  Bytes.littleEndian 4 (headSize + padding.length) ++
    [r.version, unread.reserved] ++
    Bytes.littleEndian 2 headSize ++
    Bytes.littleEndian 8 r.mask.toNat ++
    Bytes.littleEndian 4 r.fd.toUInt32.toNat ++
    Bytes.littleEndian 4 unread.process.toNat ++
    padding

/-- The number in `width` bytes from the place `start` on. -/
def field (start width : Nat) (bytes : Bytes) : Nat :=
  Bytes.ofLittleEndian ((bytes.drop start).take width)

def claimedLength (bytes : Bytes) : Nat := field 0 4 bytes

/-- The head of the record at the front of a byte string. -/
def ofHead (bytes : Bytes) : EventRecord where
  version := .ofNat (field 4 1 bytes)
  mask := .ofNat (field 8 8 bytes)
  fd := (UInt32.ofNat (field 16 4 bytes)).toInt32

/-- The records in a buffer of which `offset` bytes have been read already, and how many bytes
follow behind the last one. -/
def parseFrom (offset : Nat) (bytes : Bytes) : Except NotificationError (List EventRecord × Nat) :=
  if bytes.length < headSize then .ok ([], bytes.length)
  else
    let length := claimedLength bytes
    if fits : headSize ≤ length ∧ length ≤ bytes.length then
      have : (bytes.drop length).length < bytes.length := by
        simp only [headSize, List.length_drop] at fits ⊢
        omega
      match parseFrom (offset + length) (bytes.drop length) with
      | .ok (records, trailing) => .ok (ofHead bytes :: records, trailing)
      | .error e => .error e
    else .error (.truncated offset length bytes.length)
termination_by bytes.length
decreasing_by exact this

/-- The records in a buffer, and how many bytes follow behind the last one. -/
def parse (buffer : Bytes) : Except NotificationError (List EventRecord × Nat) :=
  parseFrom 0 buffer

/-- What is reported about bytes behind the last record. -/
def trailingEvents (trailing : Nat) : List LogEvent :=
  if trailing = 0 then [] else [.trailingBytes trailing]

/-- The records in a buffer, with what is reported while reading them. -/
def read (buffer : Bytes) : Except NotificationError (List EventRecord) × List LogEvent :=
  match parse buffer with
  | .ok (records, trailing) => (.ok records, trailingEvents trailing)
  | .error e => (.error e, [])

/-- What the record reports. It has an object if its descriptor is not negative. -/
def toNotification (r : EventRecord) : Notification Int32 where
  version := r.version
  mask := r.mask
  object := if 0 ≤ r.fd then some r.fd else none

end EventRecord

end TreeWatch

import TreeWatch.Syscall

/-!
# Notifications

What the kernel reports about the watched mount, after decoding.

## Main definitions

- `Notification` : a report, with a handle of the object that it is about
- `NotificationKind` : what the report means for the tracker
- `NotificationError` : why no notifications could be had
-/

namespace TreeWatch

/-- The version of the record format that the tracker understands. -/
def recordVersion : UInt8 := 3

/-- The mask bit for names added to, removed from or renamed in a directory. -/
def modifyDirectoryBit : UInt64 := 0x00040000

/-- The mask bit for notifications lost because the queue was full. -/
def overflowBit : UInt64 := 0x00004000

/-- The mask bit for notifications about directories. -/
def onDirectoryBit : UInt64 := 0x40000000

/-- What a notification means for the tracker. -/
inductive NotificationKind where
  | directoryModified
  | overflow
  | other
deriving DecidableEq

def NotificationKind.word : NotificationKind → String
  | .directoryModified => "DirectoryModified"
  | .overflow => "Overflow"
  | .other => "Other"

/-- A notification with the handle of its object, if it has one. -/
structure Notification (H : Type) where
  version : UInt8
  mask : UInt64
  object : Option H

/-- What the notification means. A modified directory without a handle cannot be looked at. -/
def Notification.kind {H : Type} (n : Notification H) : NotificationKind :=
  if n.mask &&& modifyDirectoryBit ≠ 0 ∧ n.object.isSome then .directoryModified
  else if n.mask &&& overflowBit ≠ 0 then .overflow
  else .other

/-- Why notifications could not be had. -/
inductive NotificationError where
  /-- Reading failed. -/
  | read (error : SyscallError)
  /-- The record at `offset` claims a length that does not fit the bytes `available` there. -/
  | truncated (offset length available : Nat)
deriving DecidableEq

/-- What is reported about the failure. -/
def NotificationError.message : NotificationError → String
  | .read _ => "Failed to read notifications"
  | .truncated offset length available =>
    s!"Record at offset {offset} claims {length} bytes but only {available} are available"

end TreeWatch

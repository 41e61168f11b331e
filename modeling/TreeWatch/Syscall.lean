import TreeWatch.Errno

/-!
# Failed calls

A call to the operating system that failed, and the rule for trying such calls again.

## Main definitions

- `Operation` : the calls that the tracker makes
- `SyscallError` : a failed call
- `retryTransient` : makes a call again while it fails for a passing reason
-/

namespace TreeWatch

/-- The calls that the tracker makes. -/
inductive Operation where
  /-- Reads the attributes of an open object. -/
  | stat
  /-- Makes the identity token of an open object. -/
  | tokenOf
  /-- Lists an open directory. -/
  | list
  /-- Opens a name inside a directory. -/
  | openChild
  /-- Opens a directory once more. -/
  | openDirectory
  /-- Opens the object that an identity token names. -/
  | openByToken
  /-- Reads notifications. -/
  | read
deriving DecidableEq

/-- The system's name of the call. -/
def Operation.name : Operation → String
  | .stat => "fstat"
  | .tokenOf => "name_to_handle_at"
  | .list => "readdir"
  | .openChild => "openat"
  | .openDirectory => "openat(.)"
  | .openByToken => "open_by_handle_at"
  | .read => "read"

/-- A failed call. -/
structure SyscallError where
  operation : Operation
  errno : Errno
deriving DecidableEq

namespace SyscallError

/-- What is reported about the failure. -/
def message (e : SyscallError) : String :=
  s!"{e.operation.name} failed: {e.errno.message}"

/-- Whether the same call may succeed at once. -/
def isTransient (e : SyscallError) : Bool := e.errno.isTransient

/-- Whether the object was gone before the call. -/
def isVanished (e : SyscallError) : Bool := e.errno.isVanished

end SyscallError

/-- How often a call that fails for a passing reason is made again. -/
def maxRetries : Nat := 16

/-- A call that failed for a passing reason and is about to be made again. -/
structure Retry where
  operation : Operation
  errno : Errno
  /-- The number of the coming attempt after the first. -/
  attempt : Nat
deriving DecidableEq

/-- Makes a call, and makes it again while it fails for a passing reason and `left` allows; gives
the retries as well. -/
def retryFrom {σ α : Type} (operation : Operation) (call : StateM σ (Except Errno α)) :
    (attempt left : Nat) → StateM σ (Except SyscallError α × List Retry)
  | _, 0 => do
    match ← call with
    | .ok a => pure (.ok a, [])
    | .error errno => pure (.error ⟨operation, errno⟩, [])
  | attempt, left + 1 => do
    match ← call with
    | .ok a => pure (.ok a, [])
    | .error errno =>
      if errno.isTransient then
        let (result, retries) ← retryFrom operation call (attempt + 1) left
        pure (result, ⟨operation, errno, attempt⟩ :: retries)
      else
        pure (.error ⟨operation, errno⟩, [])

/-- Makes a call, at most `maxRetries` times more while it fails for a passing reason. -/
def retryTransient {σ α : Type} (operation : Operation) (call : StateM σ (Except Errno α)) :
    StateM σ (Except SyscallError α × List Retry) :=
  retryFrom operation call 1 maxRetries

end TreeWatch

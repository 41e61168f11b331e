import TreeWatch.Bytes
import TreeWatch.Syscall

/-!
# Identity tokens

Inode numbers are used again as soon as an object is deleted, so they only serve to look records
up. An identity token tells objects apart: it opens for exactly as long as its object exists.

## Main definitions

- `IdentityToken` : the bytes by which the filesystem names an object, with their type
- `IdentityError` : why an identity could not be found out
-/

namespace TreeWatch

/-- The most bytes that a token has. -/
def maxTokenSize : Nat := 128

/-- The name that the filesystem gives to an object for as long as it exists. -/
structure IdentityToken where
  /-- How the bytes are to be read; only the filesystem knows. -/
  type : Int32
  bytes : Bytes
  /-- No token is longer than the limit. -/
  fits : bytes.length ≤ maxTokenSize
deriving DecidableEq

/-- Why the identity of an object could not be found out. -/
inductive IdentityError where
  /-- The token would have this many bytes, which is more than the limit. -/
  | tooLarge (size : Nat)
  /-- The token names an object that is gone. -/
  | stale
  /-- A call failed. -/
  | call (error : SyscallError)
deriving DecidableEq

/-- What is reported about the failure. -/
def IdentityError.message : IdentityError → String
  | .tooLarge size => s!"Identity token of {size} bytes exceeds the {maxTokenSize} byte limit"
  | .stale => "Identity token no longer resolves to a live object"
  | .call _ => "Failed to read object identity"

/-- The token with the given bytes, if they are not too many. -/
def IdentityToken.ofBytes (type : Int32) (bytes : Bytes) : Except IdentityError IdentityToken :=
  if fits : bytes.length ≤ maxTokenSize then .ok ⟨type, bytes, fits⟩
  else .error (.tooLarge bytes.length)

end TreeWatch

import TreeWatch.Tracker.Basic

/-!
# Finding the record of an object

Inode numbers are used again, so a record found under the number of an object may be that of
another, deleted one. The token tells: equal tokens name one object, and so does a stored token
that still opens.

## Main definitions

- `Tracker.resolve` : the record of an open object, put in if there is none yet
-/

namespace TreeWatch.Tracker

variable {σ H : Type} (fs : Filesystem σ H)

/-- Whether the object of a token still exists, found out by opening it. -/
def tokenOpens (token : IdentityToken) : Track σ IdentityError Bool := do
  match ← attempt (openByToken fs token) with
  | .ok _ => do
    release
    pure true
  | .error .stale => pure false
  | .error e => throw e

/-- Whether a record belongs to the object with the given token. Equal objects may hand out unequal
tokens, but a number is used again only once the stored token has ceased to open. -/
def belongsTo (existing : InodeId) (token : IdentityToken) : Track σ IdentityError Bool := do
  match ← look fun w => w.tree.record? existing with
  | none => pure false
  | some r => if r.token = token then pure true else tokenOpens fs r.token

/-- The record of an open object. It is put in if the inode number is new, and in the place of the
old record if the number has come to stand for another object. -/
def resolve (object : H) : Track σ IdentityError InodeId := do
  let attributes ← wrapping .call (attributes fs object)
  let token ← identityToken fs object
  match ← look fun w => w.tree.lookupIno attributes.ino with
  | none => editGet fun _ l => l.insertRecord attributes token
  | some existing => do
    if ← belongsTo fs existing token then
      edit fun _ l =>
        { l with tree := l.tree.refreshFingerprint existing attributes.fingerprint }
      pure existing
    else
      note (.recycled attributes.ino (← look fun w => w.tree.resolvePath existing))
      edit fun clock l => l.invalidate clock existing
      let fresh ← editGet fun _ l => l.insertRecord attributes token
      note (.recreated fresh attributes.ino)
      pure fresh

end TreeWatch.Tracker

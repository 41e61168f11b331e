import TreeWatch.Tree.Ledger

/-!
# Trackers

The state in which everything happens that joins the tree to the filesystem: the state of the
filesystem, the handles that are open, the clock, and the tree with its journal and log.

## Main definitions

- `Leases` : how many handles are open
- `Tracker` : the state
- `Track` : computations on the state that may fail; what they did before failing stays done
- `Tracker.releasing` : gives a handle back after some work, whatever its outcome
- `Tracker.attributes`, `Tracker.openChild` and so on : the calls to the filesystem, with every
  handle counted
-/

namespace TreeWatch

/-- How many handles are open, and whether one was ever given back while none was. -/
structure Leases where
  count : Nat := 0
  overdrawn : Bool := false
deriving DecidableEq, Inhabited

namespace Leases

/-- One more handle is open. -/
def take (l : Leases) : Leases := { l with count := l.count + 1 }

/-- One handle less is open. -/
def giveBack (l : Leases) : Leases :=
  { count := l.count - 1, overdrawn := l.overdrawn || l.count = 0 }

end Leases

/-- The state of a tracker over a filesystem with states `σ`. -/
structure Tracker (σ : Type) where
  files : σ
  leases : Leases := {}
  /-- What the clock shows at each reading, also at those to come. -/
  clock : Clock := fun _ => 0
  ledger : Ledger

/-- A computation on a tracker that gives an `α` or fails with an `ε`. -/
abbrev Track (σ ε α : Type) := ExceptT ε (StateM (Tracker σ)) α

namespace Tracker

variable {σ H ε ε' α : Type}

def tree (w : Tracker σ) : Tree := w.ledger.tree

/-- A computation that cannot fail. -/
def perform (step : Tracker σ → α × Tracker σ) : Track σ ε α :=
  ExceptT.mk fun w => let (a, w) := step w; (.ok a, w)

/-- Something read off the state. -/
def look (f : Tracker σ → α) : Track σ ε α :=
  perform fun w => (f w, w)

/-- A change of the ledger, with the clock at hand. -/
def edit (f : Clock → Ledger → Ledger) : Track σ ε Unit :=
  perform fun w => ((), { w with ledger := f w.clock w.ledger })

/-- A change of the ledger that gives something. -/
def editGet (f : Clock → Ledger → α × Ledger) : Track σ ε α :=
  perform fun w => let (a, ledger) := f w.clock w.ledger; (a, { w with ledger })

/-- A change of the ledger that the tree may refuse. -/
def editTry (f : Clock → Ledger → Except TreeError Ledger) : Track σ TreeError Unit :=
  ExceptT.mk fun w =>
    match f w.clock w.ledger with
    | .ok ledger => (.ok (), { w with ledger })
    | .error e => (.error e, w)

/-- Reports an event. -/
def note (event : LogEvent) : Track σ ε Unit :=
  edit fun _ l => l.note event

/-- The outcome of a computation, also if it is a failure. -/
def attempt (x : Track σ ε α) : Track σ ε' (Except ε α) :=
  ExceptT.mk fun w => let (r, w) := x.run w; (.ok r, w)

/-- A computation whose failures are wrapped. -/
def wrapping (wrap : ε → ε') (x : Track σ ε α) : Track σ ε' α :=
  ExceptT.mk fun w =>
    match x.run w with
    | (.ok a, w) => (.ok a, w)
    | (.error e, w) => (.error (wrap e), w)

/-- Gives a handle back. -/
def release : Track σ ε Unit :=
  perform fun w => ((), { w with leases := w.leases.giveBack })

/-- Does some work and then gives a handle back, whatever the outcome of the work. -/
def releasing (work : Track σ ε α) : Track σ ε α :=
  ExceptT.mk fun w =>
    let (r, w) := work.run w
    (r, { w with leases := w.leases.giveBack })

/-- A call to the filesystem that opens no handle. -/
def ask (call : StateM σ (Except ε α)) : Track σ ε α :=
  ExceptT.mk fun w => let (r, files) := call.run w.files; (r, { w with files })

/-- A call to the filesystem that may open a handle; `opened` says whether it did. -/
def askOpen (opened : α → Bool) (call : StateM σ (Except ε α)) : Track σ ε α :=
  ExceptT.mk fun w =>
    let (r, files) := call.run w.files
    match r with
    | .ok a => (.ok a, { w with files, leases := if opened a then w.leases.take else w.leases })
    | .error e => (.error e, { w with files })

variable (fs : Filesystem σ H)

/-- Reads the attributes of an open object. -/
def attributes (object : H) : Track σ SyscallError Attributes :=
  ask (fs.attributes object)

/-- Makes the token of an open object. -/
def identityToken (object : H) : Track σ IdentityError IdentityToken :=
  ask (fs.identityToken object)

/-- Opens the object that a token names. -/
def openByToken (token : IdentityToken) : Track σ IdentityError H :=
  askOpen (fun _ => true) (fs.openByToken token)

/-- Lists an open directory. -/
def list (directory : H) : Track σ SyscallError (List ListedEntry) :=
  ask (fs.list directory)

/-- Opens a name inside a directory, unless it is gone. -/
def openChild (directory : H) (name : Bytes) : Track σ SyscallError (Option H) :=
  askOpen Option.isSome (fs.openChild directory name)

/-- Opens an open directory once more. -/
def openDirectory (object : H) : Track σ SyscallError H :=
  askOpen (fun _ => true) (fs.openDirectory object)

/-- Opens the root of the mount. -/
def openRoot : Track σ SyscallError H :=
  askOpen (fun _ => true) fs.openRoot

end Tracker

end TreeWatch

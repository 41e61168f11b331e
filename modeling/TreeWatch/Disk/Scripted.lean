import TreeWatch.Disk.Basic

/-!
# Scripted disks

A disk whose answers can be bent: calls can be made to fail, attributes and listings replaced, and
names made to open other objects.

## Main definitions

- `Fault` : a failure that is to happen at a call
- `ScriptedDisk` : a disk with what is to be answered differently
- `ScriptedDisk.filesystem` : how it answers the calls of the tracker
-/

namespace TreeWatch

/-- The calls at which a fault can happen. -/
inductive FaultPoint where
  | attributes
  | identityToken
  | list
  | openChild
  | openDirectory
  | openByToken
  | openRoot
deriving DecidableEq

/-- How a call fails. -/
inductive FaultAnswer where
  | errno (errno : Errno)
  /-- The token is said to name an object that is gone. -/
  | stale
  /-- The token is said to have this many bytes. -/
  | tooLarge (size : Nat)
  /-- The name is said to be gone. -/
  | vanish
deriving DecidableEq

/-- A failure that is to happen at some call. -/
structure Fault where
  point : FaultPoint
  answer : FaultAnswer
  /-- Only for the object or directory with this inode number. -/
  ino : Option UInt64 := none
  /-- Only for opening this name. -/
  name : Option Bytes := none
  /-- Only for the token of the object with this serial number. -/
  serial : Option Nat := none
  /-- How many calls succeed before. -/
  skip : Nat := 0
  /-- How many calls fail after those. -/
  times : Nat := 1
deriving DecidableEq

/-- A call as faults see it. -/
structure FaultSite where
  point : FaultPoint
  ino : Option UInt64 := none
  name : Option Bytes := none
  serial : Option Nat := none

/-- Whether a wanted value is there, if one is wanted. -/
def wants {α : Type} [DecidableEq α] (wanted actual : Option α) : Bool :=
  match wanted with
  | none => true
  | some _ => wanted = actual

/-- Whether a fault is meant for a call. -/
def Fault.meets (f : Fault) (site : FaultSite) : Bool :=
  f.point = site.point && wants f.ino site.ino && wants f.name site.name &&
    wants f.serial site.serial

/-- Lets the first fault that is meant for a call act: it either counts the call and lets it pass,
or fails it and is used up by one. -/
def strike (site : FaultSite) : List Fault → Option FaultAnswer × List Fault
  | [] => (none, [])
  | f :: rest =>
    if f.meets site then
      if 0 < f.skip then (none, { f with skip := f.skip - 1 } :: rest)
      else if f.times ≤ 1 then (some f.answer, rest)
      else (some f.answer, { f with times := f.times - 1 } :: rest)
    else
      let (answer, rest) := strike site rest
      (answer, f :: rest)

/-- What is read instead of the attributes of objects with an inode number. -/
structure Override where
  mode : Option UInt32 := none
  fingerprint : Option Fingerprint := none

/-- A disk with what is to be answered differently. -/
structure ScriptedDisk where
  disk : Disk := .empty
  /-- The armed faults, in the order in which they were armed. -/
  faults : List Fault := []
  /-- Replaced attributes, by inode number. -/
  overrides : SortedMap UInt64 Override := .empty
  /-- Replaced listings, by the inode number of the directory. -/
  listings : SortedMap UInt64 (List ListedEntry) := .empty
  /-- The paths opened for names, by the inode number of the directory; latest first. -/
  aliases : List (UInt64 × Bytes × Path) := []
  /-- The failure of opening a path for a name, after which no answer means anything. -/
  broken : Option DiskError := none

instance : Inhabited ScriptedDisk := ⟨{}⟩

namespace ScriptedDisk

/-- Lets faults act on a call, and answers it by `otherwise` if none fails it. -/
def withFaults {ε α : Type} (site : ScriptedDisk → FaultSite) (fail : FaultAnswer → Except ε α)
    (otherwise : StateM ScriptedDisk (Except ε α)) : StateM ScriptedDisk (Except ε α) := fun d =>
  match strike (site d) d.faults with
  | (some answer, faults) => (fail answer, { d with faults })
  | (none, faults) => otherwise { d with faults }

/-- An answer that leaves the disk as it is. -/
def answer {α : Type} (f : ScriptedDisk → α) : StateM ScriptedDisk α := fun d => (f d, d)

/-- The error number of a failure at a call that fails by numbers only. -/
def FaultAnswer.toErrno : FaultAnswer → Errno
  | .errno e => e
  | .vanish => .noEntry
  | .stale | .tooLarge _ => .stale

/-- A failure at a call that fails by error numbers. -/
def failCall {α : Type} (operation : Operation) (a : FaultAnswer) : Except SyscallError α :=
  .error ⟨operation, FaultAnswer.toErrno a⟩

/-- A failure at a call about tokens. -/
def failIdentity {α : Type} (operation : Operation) : FaultAnswer → Except IdentityError α
  | .stale => .error .stale
  | .tooLarge size => .error (.tooLarge size)
  | a => .error (.call ⟨operation, FaultAnswer.toErrno a⟩)

/-- The attributes of an object, with what replaces them. -/
def attributes (d : ScriptedDisk) (s : Serial) : Except SyscallError Attributes :=
  (d.disk.attributes s).map fun a =>
    match d.overrides.get? a.ino with
    | some o =>
      { a with mode := o.mode.getD a.mode, fingerprint := o.fingerprint.getD a.fingerprint }
    | none => a

/-- The listing of a directory, or what replaces it. -/
def list (d : ScriptedDisk) (s : Serial) : Except SyscallError (List ListedEntry) :=
  match d.listings.get? (d.disk.inoAt s) with
  | some entries => .ok entries
  | none => d.disk.list s

/-- The path that a name in a directory opens instead. -/
def alias? (d : ScriptedDisk) (s : Serial) (name : Bytes) : Option Path :=
  (d.aliases.find? fun a => a.1 = d.disk.inoAt s ∧ a.2.1 = name).map (·.2.2)

/-- Opens a name in a directory, or what it opens instead. -/
def openChild (s : Serial) (name : Bytes) :
    StateM ScriptedDisk (Except SyscallError (Option Serial)) := fun d =>
  match d.alias? s name with
  | none => (d.disk.openChild s name, d)
  | some path =>
    match d.disk.serialOf path with
    | .ok child => (.ok (some child), d)
    | .error e => (.error ⟨.openChild, .noEntry⟩, { d with broken := some e })

/-- How deep directories may be nested: a way down meets an object or an alias again only once some
fault has counted a call. -/
def nesting (d : ScriptedDisk) : Nat :=
  (d.disk.nodes.length + d.aliases.length + 1) *
    (Disk.total (fun f => f.skip + f.times) d.faults + 1)

/-- How a scripted disk answers the calls of the tracker. -/
def filesystem : Filesystem ScriptedDisk Serial where
  attributes s :=
    withFaults (fun d => { point := .attributes, ino := some (d.disk.inoAt s) })
      (failCall .stat) (answer (·.attributes s))
  identityToken s :=
    withFaults (fun d => { point := .identityToken, ino := some (d.disk.inoAt s) })
      (failIdentity .tokenOf) (answer fun d => d.disk.identityToken s)
  openByToken token :=
    withFaults (fun _ => { point := .openByToken, serial := Disk.serialIn? token })
      (failIdentity .openByToken) (answer fun d => d.disk.openByToken token)
  list s :=
    withFaults (fun d => { point := .list, ino := some (d.disk.inoAt s) })
      (failCall .list) (answer (·.list s))
  openChild s name :=
    withFaults
      (fun d => { point := .openChild, ino := some (d.disk.inoAt s), name := some name })
      (fun a => match a with
        | .vanish => .ok none
        | a => failCall .openChild a)
      (openChild s name)
  openDirectory s :=
    withFaults (fun d => { point := .openDirectory, ino := some (d.disk.inoAt s) })
      (failCall .openDirectory) (answer fun d => d.disk.openDirectory s)
  openRoot :=
    withFaults (fun _ => { point := .openRoot })
      (failCall .openDirectory) (answer fun _ => .ok Disk.rootSerial)
  nesting := nesting

end ScriptedDisk

end TreeWatch

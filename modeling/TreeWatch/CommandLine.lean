import TreeWatch.Log
import TreeWatch.Path

/-!
# The command line

One path, the root of the mount to watch, and options, each at most once: how much is logged, and
a file of settings.

The value of an option stands in the next argument, or in the same one: behind an equals sign, or
behind a single letter. `--` makes everything behind it paths. An argument is judged when the next
one that takes a value comes, or at the end; an argument that means nothing ends the reading at
once.

## Main definitions

- `Arguments` : what the command line says
- `UsageError` : why it says nothing
- `Arguments.ofList` : reads the arguments
-/

namespace TreeWatch

structure Arguments where
  mountpoint : Path
  config : Option Path := none
  /-- The least important level that is logged; nothing is logged without one. -/
  level : Option LogLevel := some .warn
deriving DecidableEq

/-- Why the command line says nothing. -/
inductive UsageError where
  /-- Help is asked for. -/
  | help
  /-- The version is asked for. -/
  | version
  /-- The path is missing. -/
  | missing
  | invalidValue
  /-- An option is given twice. -/
  | repeated
  | unknown
  /-- An option that takes no value has one. -/
  | unneededValue
deriving DecidableEq

namespace Arguments

/-- What takes a value. -/
inductive Parameter where
  | mountpoint
  | level
  | config
deriving DecidableEq

/-- What an option does. -/
inductive Action where
  /-- It gives a parameter its value. -/
  | takes (p : Parameter)
  /-- It ends the reading. -/
  | ends (e : UsageError)

/-- The options with two dashes. -/
def long? (name : Bytes) : Option Action :=
  if name = Bytes.ofString "log-level" then some (.takes .level)
  else if name = Bytes.ofString "config" then some (.takes .config)
  else if name = Bytes.ofString "help" then some (.ends .help)
  else if name = Bytes.ofString "version" then some (.ends .version)
  else none

/-- The options with one dash. -/
def short? (letter : UInt8) : Option Action :=
  if letter = 0x6C then some (.takes .level)
  else if letter = 0x63 then some (.takes .config)
  else if letter = 0x68 then some (.ends .help)
  else if letter = 0x56 then some (.ends .version)
  else none

/-- The level that a word names. -/
def level? (word : Bytes) : Option (Option LogLevel) :=
  if word = Bytes.ofString "debug" then some (some .debug)
  else if word = Bytes.ofString "info" then some (some .info)
  else if word = Bytes.ofString "warn" then some (some .warn)
  else if word = Bytes.ofString "error" then some (some .error)
  else if word = Bytes.ofString "silent" then some none
  else none

structure Reading where
  mountpoint : Option Path := none
  config : Option Path := none
  level : Option (Option LogLevel) := none
  /-- The last parameter that was named, with its value if that was there. It has not been judged
  yet. -/
  pending : Option (Parameter × Option Bytes) := none
  /-- Whether the path was there. -/
  positional : Bool := false
  /-- Whether all arguments are paths from here on. -/
  pathsOnly : Bool := false

namespace Reading

def assign (r : Reading) (p : Parameter) (value : Bytes) : Except UsageError Reading :=
  match p with
  | .mountpoint =>
    if value.isEmpty then throw .invalidValue else pure { r with mountpoint := some value }
  | .config =>
    if r.config.isSome then throw .repeated
    else if value.isEmpty then throw .invalidValue
    else pure { r with config := some value }
  | .level =>
    if r.level.isSome then throw .repeated
    else match level? value with
      | some level => pure { r with level := some level }
      | none => throw .invalidValue

/-- Judges the last parameter that was named. -/
def settle (r : Reading) : Except UsageError Reading :=
  match r.pending with
  | none => pure r
  | some (_, none) => throw .invalidValue
  | some (p, some value) => { r with pending := none }.assign p value

/-- An option comes next, with its value if that stands in the same argument. -/
def option (r : Reading) (o : Action) (value : Option Bytes) : Except UsageError Reading := do
  match o, value with
  | .takes p, some value => (← r.settle).assign p value
  | .takes p, none => return { ← r.settle with pending := some (p, none) }
  | .ends e, none => do
    let _ ← r.settle
    throw e
  | .ends _, some _ => throw .unneededValue

/-- A path comes next. There is only one. -/
def path (r : Reading) (arg : Bytes) : Except UsageError Reading := do
  if r.positional then throw .unknown
  return { ← r.settle with pending := some (.mountpoint, some arg), positional := true }

/-- An argument with two dashes comes next; `body` is what stands behind them. -/
def long (r : Reading) (body : Bytes) : Except UsageError Reading :=
  let equals : UInt8 := 0x3D
  let value := match body.dropWhile (· ≠ equals) with
    | [] => none
    | _ :: value => some value
  match long? (body.takeWhile (· ≠ equals)) with
  | some o => r.option o value
  | none => throw .unknown

/-- An argument with one dash comes next; `letter` is what stands behind it, and `rest` what stands
behind that. An option that ends the reading does so whatever follows. -/
def short (r : Reading) (letter : UInt8) (rest : Bytes) : Except UsageError Reading :=
  match short? letter with
  | some (.ends e) => r.option (.ends e) none
  | some o =>
    r.option o (match rest with
      | [] => none
      | b :: value => some (if b = 0x3D then value else rest))
  | none => throw .unknown

/-- A plain argument comes next: a value that is waited for, or a path. -/
def plain (r : Reading) (arg : Bytes) : Except UsageError Reading :=
  match r.pending with
  | some (p, none) => pure { r with pending := some (p, some arg) }
  | _ => r.path arg

/-- An argument comes next. A dash alone is plain. -/
def next (r : Reading) (arg : Bytes) : Except UsageError Reading :=
  if r.pathsOnly then r.path arg
  else
    match arg with
    | [0x2D, 0x2D] => pure { r with pathsOnly := true }
    | 0x2D :: 0x2D :: body => r.long body
    | 0x2D :: letter :: rest => r.short letter rest
    | _ => r.plain arg

end Reading

/-- Reads the arguments behind the program's name. -/
def ofList (args : List Bytes) : Except UsageError Arguments := do
  let r ← (← args.foldlM Reading.next ({} : Reading)).settle
  match r.mountpoint with
  | none => throw .missing
  | some mountpoint => pure { mountpoint, config := r.config, level := r.level.getD (some .warn) }

end Arguments

end TreeWatch

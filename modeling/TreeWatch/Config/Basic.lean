import TreeWatch.Host
import TreeWatch.Text.Quoted
import TreeWatch.Yaml.Cursor

/-!
# Settings

What can be set for watching, and what can be wrong with a file of settings.

## Main definitions

- `Config` : the settings
- `ConfigError` : why there are no settings
- `Config.describe` : the settings in words
-/

namespace TreeWatch

/-- The settings. -/
structure Config where
  /-- Whether every listed child is identified, even when its name and inode number are
  unchanged. -/
  strict : Bool := false
  /-- How many milliseconds a record without links survives. -/
  reclaimGrace : Nat := 0
  /-- Whether any number of notifications may wait. -/
  unlimitedQueue : Bool := false
  /-- How many bytes of notifications are read at once. -/
  readBufferSize : Nat := 4096
  /-- Where fingerprints are stored, if they are. -/
  store : Option Path := none
deriving DecidableEq

namespace Config

/-- A buffer that is smaller cannot hold a single notification. -/
def leastReadBufferSize : Nat := 256

/-- A time in milliseconds, in seconds from one second on. -/
def describeTime (ms : Nat) : String :=
  if ms = 0 then "0ns"
  else if ms < 1000 then s!"{ms}ms"
  else
    let digits := (Nat.toDigits 10 (1000 + ms % 1000)).drop 1
    let fraction := (digits.reverse.dropWhile (· = '0')).reverse
    let tail := if fraction.isEmpty then "" else "." ++ String.ofList fraction
    s!"{ms / 1000}{tail}s"

/-- The settings in words. -/
def describe (c : Config) : String :=
  let store := match c.store with
    | none => "None"
    | some p => s!"Some({Text.Quoted.quote p})"
  "TrackerConfig \x7b " ++ s!"strict: {c.strict}, reclaim_grace: {describeTime c.reclaimGrace}, " ++
    s!"unlimited_queue: {c.unlimitedQueue}, read_buffer_size: {c.readBufferSize}, " ++
    s!"store: {store}" ++ " \x7d"

end Config

/-- What the value of a key has to be. -/
inductive Expected where
  | boolean
  | natural
  | path
deriving DecidableEq

def Expected.words : Expected → String
  | .boolean => "a boolean"
  | .natural => "a non-negative integer"
  | .path => "a path"

/-- Why there are no settings. -/
inductive ConfigError where
  /-- The file could not be read. -/
  | unreadable (path : Path) (cause : FileError)
  /-- The file is not written in YAML. -/
  | syntactic (cause : Yaml.YamlError)
  /-- There is nothing in the file. -/
  | noDocument
  /-- The file holds something else than keys with values. -/
  | topLevelNotMap
  | invalidValue (key : String) (expected : Expected)
  | bufferTooSmall (size : Nat)
deriving DecidableEq

/-- What is reported about the failure. -/
def ConfigError.message : ConfigError → String
  | .unreadable path _ => "Failed to read the config file: " ++ path.display
  | .syntactic _ => "Failed to parse the config file"
  | .noDocument => "Improperly formatted config file"
  | .topLevelNotMap => "Top level of config should be a map"
  | .invalidValue key expected => s!"Config key '{key}' should be {expected.words}"
  | .bufferTooSmall size =>
    s!"Read buffer of {size} bytes is below the minimum of {Config.leastReadBufferSize}"

end TreeWatch

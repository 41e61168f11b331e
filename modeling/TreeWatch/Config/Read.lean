import TreeWatch.Config.Basic
import TreeWatch.Log
import TreeWatch.Yaml.Describe
import TreeWatch.Yaml.Document

/-!
# Reading settings

Settings are the keys and values of the first document of a YAML text. Unknown keys, and keys that
are no text, are passed over. The keys are taken in order, and the first wrong value ends the
reading.

## Main definitions

- `Config.set` : the settings with the value of one key
- `Config.ofText` : the settings of a text
- `Config.ofFile` : the settings of a file, or those without one
-/

namespace TreeWatch

/-- A computation that reads settings and reports what it does. -/
abbrev ConfigRead := ExceptT ConfigError (StateM (List LogEvent))

def ConfigRead.report (e : LogEvent) : ConfigRead Unit :=
  modify fun log => log ++ [e]

namespace Config

/-- A truth value, or the error that the value of `key` is none. -/
def booleanOf (key : String) : Yaml.Node → Except ConfigError Bool
  | .scalar (.boolean b) => .ok b
  | _ => .error (.invalidValue key .boolean)

/-- A natural number, or the error that the value of `key` is none. -/
def naturalOf (key : String) : Yaml.Node → Except ConfigError Nat
  | .scalar (.integer (.ofNat n)) => .ok n
  | _ => .error (.invalidValue key .natural)

/-- A path or its absence, or the error that the value of `key` is none. -/
def pathOf (key : String) : Yaml.Node → Except ConfigError (Option Path)
  | .scalar .null => .ok none
  | .scalar (.string text) => .ok (some (Bytes.ofString text))
  | _ => .error (.invalidValue key .path)

/-- The settings with the value of one key; nothing if the key is unknown. -/
def set (c : Config) (key : String) (value : Yaml.Node) : Option (Except ConfigError Config) :=
  match key with
  | "strict" => some <| do return { c with strict := ← booleanOf key value }
  | "unlimited_queue" => some <| do return { c with unlimitedQueue := ← booleanOf key value }
  | "reclaim_grace_ms" => some <| do return { c with reclaimGrace := ← naturalOf key value }
  | "read_buffer_size" => some <| do
    let size ← naturalOf key value
    if size < leastReadBufferSize then throw (.bufferTooSmall size)
    return { c with readBufferSize := size }
  | "store" => some <| do return { c with store := ← pathOf key value }
  | _ => none

/-- The settings with the values of the keys of a mapping. -/
def setAll (c : Config) : List (Yaml.Node × Yaml.Node) → ConfigRead Config
  | [] => pure c
  | (.scalar (.string key), value) :: rest =>
    match c.set key value with
    | some (.ok c) => setAll c rest
    | some (.error e) => throw e
    | none => do
      ConfigRead.report (.configKeyUnknown key)
      setAll c rest
  | (key, _) :: rest => do
    ConfigRead.report (.configKeySkipped key.describe)
    setAll c rest

/-- The settings of a text. -/
def ofText (text : String) : ConfigRead Config :=
  match Yaml.documents text with
  | .error e => throw (.syntactic e)
  | .ok [] => throw .noDocument
  | .ok (.mapping pairs :: _) => setAll {} pairs
  | .ok (_ :: _) => throw .topLevelNotMap

/-- The settings of the content of the file `path`, which is shown so in messages. -/
def ofContent (path : Path) : Except FileError Bytes → ConfigRead Config
  | .error cause => throw (.unreadable path cause)
  | .ok bytes =>
    match Text.Utf8.fault? bytes with
    | some fault => throw (.unreadable path (.notText fault))
    | none => do
      ConfigRead.report (.configRead bytes.length)
      ofText (Text.Utf8.lossy bytes)

/-- The settings of a file, or the ones without a file, and what is reported meanwhile. -/
def ofFile {m : Type → Type} [Monad m] (host : Host m) :
    Option Path → m (Except ConfigError Config × List LogEvent)
  | none => pure (.ok {}, [.configDefaulted])
  | some path => do
    let shown ← host.shownPath path
    let content ← host.read path
    pure (((do
      ConfigRead.report (.configOpening shown)
      ofContent shown content : ConfigRead Config)).run.run [])

end Config

end TreeWatch

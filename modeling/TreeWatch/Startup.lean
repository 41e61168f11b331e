import TreeWatch.Config.Read

/-!
# Before watching begins

Settings are read first. Then the path that is to be watched has to be the root of a mount: the
notifications are those of a whole mount, so below its root they would also tell of directories
that cannot be reached.

## Main definitions

- `StartupError` : why watching did not begin
- `prepare` : reads the settings and looks at the root
-/

namespace TreeWatch

/-- Why watching did not begin. -/
inductive StartupError where
  | openRoot (path : Path) (cause : FileError)
  | notMountRoot (path : Path)
deriving DecidableEq

/-- What is reported about the failure. -/
def StartupError.message : StartupError → String
  | .openRoot path _ => "Failed to open the mount root " ++ path.display
  | .notMountRoot path => path.display ++ " is not a mount point"

/-- Why the program ended. -/
inductive RunError where
  | config (cause : ConfigError)
  | startup (cause : StartupError)
deriving DecidableEq

/-- What is reported about the failure. -/
def RunError.message : RunError → String
  | .config _ => "Critical failure encountered during configuration stage"
  | .startup _ => "Critical failure encountered while starting the watcher"

/-- What is reported about the failure and about what led to it, the last cause at the end. -/
def RunError.causes : RunError → List String
  | .config (.unreadable path cause) =>
    [(ConfigError.unreadable path cause).message, cause.message]
  | .config cause => [cause.message]
  | .startup (.openRoot path cause) => [(StartupError.openRoot path cause).message, cause.message]
  | .startup cause => [cause.message]

def requireMountRoot {m : Type → Type} [Monad m] (host : Host m) (mountpoint : Path) :
    m (Except StartupError Unit) := do
  let shown ← host.shownPath mountpoint
  match ← host.isMountRoot mountpoint with
  | .error cause => pure (.error (.openRoot shown cause))
  | .ok false => pure (.error (.notMountRoot shown))
  | .ok true => pure (.ok ())

/-- Reads the settings, looks at the path that is to be watched, and tells what is reported
meanwhile. -/
def prepare {m : Type → Type} [Monad m] (host : Host m) (mountpoint : Path)
    (config : Option Path) : m (Except RunError Config × List LogEvent) := do
  match ← Config.ofFile host config with
  | (.error cause, log) => pure (.error (.config cause), log)
  | (.ok settings, log) => do
    let log := log ++ [.configLoaded settings]
    match ← requireMountRoot host mountpoint with
    | .error cause => pure (.error (.startup cause), log)
    | .ok _ => pure (.ok settings, log)

end TreeWatch

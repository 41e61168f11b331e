import TreeWatch.CommandLine
import TreeWatch.MountTable
import TreeWatch.Startup

/-!
# The program

Reads the command line and the settings, and looks at the mount that is to be watched. The
notifications themselves come from a subscription that the surrounding system has to hand over.

## Main definitions

- `Program.host` : the questions to the machine
- `main` : the program
-/

namespace TreeWatch.Program

/-- The error number that is reported as a word of 32 bits; some calls report it with its sign
turned around. -/
def errnoOf (code : UInt32) : Errno :=
  if code < 0x80000000 then ⟨code.toNat⟩ else ⟨(-code).toNat⟩

/-- The failure of a call as a reason not to use a file. -/
def fileError : IO.Error → FileError
  | .noFileOrDirectory _ code _ | .permissionDenied _ code _ | .inappropriateType _ code _
  | .invalidArgument _ code _ | .resourceExhausted _ code _ | .noSuchThing _ code _
  | .otherError code _ | .hardwareFault code _ => .call (errnoOf code)
  | _ => .call .inputOutput

/-- Asks for what a path names; paths that are no text name nothing. -/
def ask (p : Path) (question : String → IO α) : IO (Except FileError α) := do
  if p.contains 0 then return .error .nul
  match Text.Utf8.decode? p with
  | none => return .error .missing
  | some text =>
    try return .ok (← question text)
    catch e => return .error (fileError e)

/-- The path to the same place without links, `.` and `..`. -/
def canonical (p : Path) : IO (Except FileError Path) :=
  ask p fun text => return Bytes.ofString (← IO.FS.realPath text).toString

/-- The questions to the machine. -/
def host : Host IO where
  canonical p := return (← canonical p).toOption
  workingDirectory := return Bytes.ofString (← IO.currentDir).toString
  isMountRoot p := do
    match ← canonical p with
    | .error e => return .error e
    | .ok path => do
      let table ← IO.FS.readFile "/proc/self/mountinfo"
      return .ok ((MountTable.paths table).contains path)
  read p := ask p fun text => return (← IO.FS.readBinFile text).toList

/-- What the program is called with. -/
def usage : String := "\n".intercalate [
  "Keeps the tree of a mounted filesystem in memory, and current from kernel change notifications.",
  "",
  "Usage: treewatch [OPTIONS] <MOUNTPOINT>",
  "",
  "Arguments:",
  "  <MOUNTPOINT>  Root of the mount to watch",
  "",
  "Options:",
  "  -l, --log-level <LEVEL>  debug, info, warn, error or silent; warn unless given",
  "  -c, --config <FILE>      YAML file with tracker settings",
  "  -h, --help               Print help",
  "  -V, --version            Print version"]

/-- What is wrong with a command line. -/
def complaint : UsageError → String
  | .missing => "the path of the mount is missing"
  | .invalidValue => "an option or path has no valid value"
  | .repeated => "an option is given twice"
  | .unknown => "there is an unexpected argument"
  | .unneededValue => "an option has a value that takes none"
  | .help | .version => ""

/-- Prints the events of the level that is asked for, and of all that are more important. -/
def printLog (level : Option LogLevel) (log : List LogEvent) : IO Unit :=
  match level with
  | none => pure ()
  | some level =>
    (log.filter fun e => e.level.rank ≤ level.rank).forM fun e =>
      IO.println s!"{e.level.word} {e.text}"

/-- Runs the program on a command line that has been understood. -/
def run (args : Arguments) : IO UInt32 := do
  let (result, log) ← prepare host args.mountpoint args.config
  printLog args.level log
  match result with
  | .error e => do
    IO.eprintln s!"Error: {e.message}"
    e.causes.forM fun cause => IO.eprintln s!"  {cause}"
    return 1
  | .ok _ => do
    IO.eprintln "Error: there is no subscription to the notifications of the mount"
    return 1

end TreeWatch.Program

/-- The program. -/
def main (args : List String) : IO UInt32 := do
  match TreeWatch.Arguments.ofList (args.map TreeWatch.Bytes.ofString) with
  | .ok args => TreeWatch.Program.run args
  | .error .help => do
    IO.println TreeWatch.Program.usage
    return 0
  | .error .version => do
    IO.println "treewatch 0.1.0"
    return 0
  | .error e => do
    IO.eprintln s!"error: {TreeWatch.Program.complaint e}\n\n{TreeWatch.Program.usage}"
    return 2

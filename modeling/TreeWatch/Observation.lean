import TreeWatch.Path

/-!
# Observations

A name that appeared in the tree or went out of it, as it is reported for audit.

## Main definitions

- `Observation` : a name bound or unbound, with the inode numbers of the object and its directory
- `Observation.line` : the audit line of an observation
- `AuditPrinter.print` : everything that is printed for a list of observations
-/

namespace TreeWatch

/-- Whether a name came or went. -/
inductive ChangeKind where
  | linked
  | unlinked
deriving DecidableEq

/-- The word for the change in audit lines. -/
def ChangeKind.word : ChangeKind → String
  | .linked => "linked"
  | .unlinked => "unlinked"

/-- A name bound or unbound in the tree. -/
structure Observation where
  kind : ChangeKind
  path : Path
  /-- The inode number of the object under the name. -/
  ino : UInt64
  /-- The inode number of the directory. -/
  parentIno : UInt64
deriving DecidableEq

/-- The audit line: change, path, and the two inode numbers in parentheses. -/
def Observation.line (o : Observation) : String :=
  s!"{o.kind.word} {o.path.display} (ino {o.ino.toNat}, parent {o.parentIno.toNat})"

/-- Prints audit lines, in colour if the terminal has it. -/
structure AuditPrinter where
  colored : Bool

namespace AuditPrinter

/-- The character that begins a control sequence. -/
def escape : Char := '\x1b'

/-- The control sequence that sets the colour of a change: green for a name that came, red for one
that went. -/
def paint : ChangeKind → List Char
  | .linked => escape :: "[32m".toList
  | .unlinked => escape :: "[31m".toList

/-- The control sequence that ends a colour. -/
def reset : List Char := escape :: "[0m".toList

/-- The text with the colour set again after each control sequence in it that ends colours. -/
def repaint (paint : List Char) : List Char → List Char
  | '\x1b' :: '[' :: '0' :: 'm' :: rest => reset ++ paint ++ repaint paint rest
  | c :: rest => c :: repaint paint rest
  | [] => []

/-- The line of an observation as it is printed. -/
def render (p : AuditPrinter) (o : Observation) : String :=
  if p.colored then
    String.ofList (paint o.kind ++ repaint (paint o.kind) o.line.toList ++ reset)
  else
    o.line

/-- Everything that is printed for the observations. -/
def print (p : AuditPrinter) (observations : List Observation) : String :=
  String.join (observations.map fun o => p.render o ++ "\n")

end AuditPrinter

end TreeWatch

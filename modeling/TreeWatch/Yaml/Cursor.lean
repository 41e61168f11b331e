/-!
# Reading YAML text

A place in a YAML text, the classes of characters that matter there, and the readers that the
finer grammar is made of.

## Main definitions

- `YamlError` : what makes a text no YAML
- `Cursor` : a place in a text
- `Read` : a computation that moves through a text
- `Read.loop` : repetition, as long as there is something to read
- `Read.lineRest` : blanks and a comment up to the end of a line
-/

namespace TreeWatch.Yaml

/-- What makes a text no YAML. -/
inductive YamlError where
  | badAnchor
  | badBlockHeader
  | badCharacter
  | badDirective
  | badEscape
  | badTag
  | closedTooOften
  | contentAfterDocument
  | contentAfterQuoted
  | duplicateDirective
  | emptyPlain
  | entryNotAllowed
  | indentation
  | keyNotAllowed
  | keyWithoutValue
  | missingDocumentStart
  | nestedTooDeep
  | tabIndentation
  | unclosedCollection
  | unclosedQuoted
  | undeclaredHandle
  | unexpectedToken
  | unknownAnchor
  | unseparatedComment
  | valueNotAllowed
deriving DecidableEq

/-! ## Characters -/

/-- Whether a character ends a line. -/
def isBreak (c : Char) : Bool := c = '\n' || c = '\r'

/-- Whether a character separates words within a line. -/
def isBlank (c : Char) : Bool := c = ' ' || c = '\t'

/-- Whether a character has a meaning of its own between brackets. -/
def isFlow (c : Char) : Bool := c = ',' || c = '[' || c = ']' || c = '\x7b' || c = '\x7d'

/-- Whether a character may stand in the name of a directive or of a tag handle. -/
def isNameChar (c : Char) : Bool := c.isAlphanum || c = '_' || c = '-'

/-- Whether a character is a hexadecimal digit. -/
def isHex (c : Char) : Bool := c.isDigit || ('a' ≤ c && c ≤ 'f') || ('A' ≤ c && c ≤ 'F')

/-- The value of a hexadecimal digit. -/
def hexValue (c : Char) : Nat :=
  if c.isDigit then c.toNat - '0'.toNat
  else if 'a' ≤ c && c ≤ 'f' then c.toNat - 'a'.toNat + 10
  else c.toNat - 'A'.toNat + 10

/-- Whether a line ends here: at a break or at the end of the text. -/
def endsLine : Option Char → Bool
  | none => true
  | some c => isBreak c

/-- Whether a word ends here: at a blank, at a break or at the end of the text. -/
def endsWord : Option Char → Bool
  | none => true
  | some c => isBlank c || isBreak c

/-- Whether there is a character here, and in the class `p`. -/
def within (p : Char → Bool) : Option Char → Bool
  | none => false
  | some c => p c

/-! ## Places -/

/-- A place in a text. -/
structure Cursor where
  /-- What follows the place. -/
  rest : List Char
  /-- How many characters come before the place. -/
  index : Nat := 0
  /-- How many lines come before the line of the place. -/
  line : Nat := 0
  /-- How many characters of its line come before the place. -/
  column : Nat := 0
  /-- No word has been read on the line. -/
  fresh : Bool := true

namespace Cursor

def peek (c : Cursor) : Option Char := c.rest.head?

/-- The character `n` places further. -/
def peekAt (c : Cursor) (n : Nat) : Option Char := c.rest[n]?

/-- The place `n` characters further on the same line, behind blanks or comments. -/
def pass (c : Cursor) (n : Nat) : Cursor :=
  { c with rest := c.rest.drop n, index := c.index + n, column := c.column + n }

/-- The place `n` characters further on the same line, behind a word. -/
def passWord (c : Cursor) (n : Nat) : Cursor :=
  { c.pass n with fresh := false }

/-- The beginning of the next line, for a place at the end of a line. A carriage return with the
line feed behind it is one break. -/
def passBreak (c : Cursor) : Cursor :=
  let n := if c.peek = some '\r' && c.peekAt 1 = some '\n' then 2 else 1
  { rest := c.rest.drop n, index := c.index + n, line := c.line + 1, column := 0, fresh := true }

/-- Whether three characters `mark` stand here as a word. -/
def atMark (c : Cursor) (mark : Char) : Bool :=
  c.rest.take 3 = [mark, mark, mark] && endsWord (c.peekAt 3)

/-- Whether a line that begins or ends a document begins here. -/
def atDocumentMark (c : Cursor) : Bool := c.atMark '-' || c.atMark '.'

/-- Whether the place is left of the column `indent`. -/
def isLeftOf (c : Cursor) (indent : Int) : Bool := (c.column : Int) < indent

end Cursor

/-! ## Readers -/

/-- A computation that moves through a text. -/
abbrev Read := StateT Cursor (Except YamlError)

/-- What a step of a repetition leads to. -/
inductive Turn (σ α : Type) where
  | again (s : σ)
  | done (a : α)

namespace Read

def peek : Read (Option Char) := return (← get).peek

/-- Repeats a step at most `fuel` times. -/
def loopFor (step : σ → Read (Turn σ α)) : Nat → σ → Read α
  | 0, _ => throw .unexpectedToken
  | fuel + 1, s => do
    match ← step s with
    | .again s => loopFor step fuel s
    | .done a => pure a

/-- Repeats a step until it is done. Each step that is not the last one reads a character, so the
length of the text bounds their number. -/
def loop (step : σ → Read (Turn σ α)) (s : σ) : Read α := do
  loopFor step ((← get).rest.length + 1) s

/-- Reads the characters of the class `p`, which holds no break, as blanks. -/
def blanks (p : Char → Bool) : Read (List Char) := do
  let c ← get
  let seen := c.rest.takeWhile p
  set (c.pass seen.length)
  pure seen

/-- Reads the characters of the class `p`, which holds no break, as a word. -/
def word (p : Char → Bool) : Read (List Char) := do
  let c ← get
  let seen := c.rest.takeWhile p
  if !seen.isEmpty then set (c.passWord seen.length)
  pure seen

/-- Reads the rest of the line. -/
def toBreak : Read (List Char) := blanks (!isBreak ·)

/-- What kinds of blanks were met. -/
structure Blanks where
  space : Bool
  tab : Bool

/-- Reads spaces, tabs too if `tabs`, and a comment behind them. A comment needs a blank before
it. -/
def lineRest (tabs : Bool := true) : Read Blanks := do
  let seen ← blanks fun c => c = ' ' || (tabs && c = '\t')
  if (← peek) = some '#' then
    if seen.isEmpty then throw .unseparatedComment
    let _ ← toBreak
  pure ⟨seen.contains ' ', seen.contains '\t'⟩

end Read

end TreeWatch.Yaml

import TreeWatch.Yaml.Cursor

/-!
# Quoted YAML scalars

Reads a text between single or double quotes. A line break within the quotes is folded to a
space, and each further one stays. Between double quotes a backslash begins an escape; between
single quotes a quote is written twice.

## Main definitions

- `Folding` : white space that has been read and not yet been written
- `QuoteStyle` : which quotes stand around a text
- `Read.quoted` : the text between quotes
-/

namespace TreeWatch.Yaml

/-- White space between two words of a scalar: what it becomes is known when the second word
begins. -/
structure Folding where
  /-- The blanks, if no line break was met. -/
  blanks : List Char := []
  /-- Whether the first line break was met; an escaped one does not count. -/
  firstBreak : Bool := false
  /-- How many breaks were met after the first. -/
  laterBreaks : Nat := 0

namespace Folding

/-- The text that the white space stands for; `broken` tells whether it reaches over a line end. -/
def text (f : Folding) (broken : Bool) : List Char :=
  if broken then
    if f.firstBreak && f.laterBreaks = 0 then [' '] else List.replicate f.laterBreaks '\n'
  else f.blanks

/-- A line break comes next; `broken` tells whether the line had been left already. -/
def breakLine (f : Folding) (broken : Bool) : Folding :=
  if broken then { f with laterBreaks := f.laterBreaks + 1 }
  else { f with blanks := [], firstBreak := true }

end Folding

/-- Which quotes stand around a text. -/
inductive QuoteStyle where
  | single
  | double
deriving DecidableEq

def QuoteStyle.mark : QuoteStyle → Char
  | .single => '\''
  | .double => '"'

/-- What a character behind a backslash stands for. -/
inductive Escape where
  | char (c : Char)
  /-- The number of a character follows, in so many hexadecimal digits. -/
  | number (digits : Nat)

/-- What a character behind a backslash stands for. -/
def Escape.of? : Char → Option Escape
  | '0' => some (.char '\x00')
  | 'a' => some (.char '\x07')
  | 'b' => some (.char '\x08')
  | 't' | '\t' => some (.char '\t')
  | 'n' => some (.char '\n')
  | 'v' => some (.char '\x0b')
  | 'f' => some (.char '\x0c')
  | 'r' => some (.char '\r')
  | 'e' => some (.char '\x1b')
  | ' ' => some (.char ' ')
  | '"' => some (.char '"')
  | '/' => some (.char '/')
  | '\\' => some (.char '\\')
  | 'N' => some (.char '\u0085')
  | '_' => some (.char '\u00a0')
  | 'L' => some (.char '\u2028')
  | 'P' => some (.char '\u2029')
  | 'x' => some (.number 2)
  | 'u' => some (.number 4)
  | 'U' => some (.number 8)
  | _ => none

/-- The character with the number `n`, if there is one. -/
def charOf? (n : Nat) : Option Char :=
  if h : n.isValidChar then some (Char.ofNatAux n h) else none

namespace Read

/-- Reads an escape, backslash first. -/
def escape : Read Char := do
  match (← get).peekAt 1 |>.bind Escape.of? with
  | none => throw .badEscape
  | some (.char c) => do
    modify (·.passWord 2)
    pure c
  | some (.number digits) => do
    modify (·.passWord 2)
    let written := (← get).rest.take digits
    if written.length < digits || !written.all isHex then throw .badEscape
    modify (·.passWord digits)
    match charOf? (written.foldl (fun n c => n * 16 + hexValue c) 0) with
    | some c => pure c
    | none => throw .badEscape

/-- What stops the reading of words between quotes. -/
inductive WordEnd where
  /-- White space or the closing quote. -/
  | plain
  /-- A line break behind a backslash, which has been read. -/
  | escapedBreak

/-- Reads up to white space or the closing quote. The text is collected in reverse. -/
def quotedWord (style : QuoteStyle) (seen : List Char) : Read (List Char × WordEnd) :=
  loop (fun seen => do
    let c ← get
    match c.peek with
    | none => return .done (seen, .plain)
    | some x =>
      if endsWord (some x) then return .done (seen, .plain)
      else if x = style.mark then
        if style = .single && c.peekAt 1 = some '\'' then
          set (c.passWord 2)
          return .again ('\'' :: seen)
        else return .done (seen, .plain)
      else if style = .double && x = '\\' then
        if within isBreak (c.peekAt 1) then
          set (c.passWord 1).passBreak
          return .done (seen, .escapedBreak)
        else return .again ((← escape) :: seen)
      else
        set (c.passWord 1)
        return .again (x :: seen)) seen

/-- Reads the white space between two words; `broken` tells whether the line has been left
already. A tab may not stand left of `indent` on a later line. -/
def quotedSpace (indent : Int) (broken : Bool) : Read (List Char) :=
  loop (fun (f, broken) => do
    let c ← get
    match c.peek with
    | none => return .done (f.text broken)
    | some x =>
      if isBlank x then
        if broken && x = '\t' && c.isLeftOf indent then throw .tabIndentation
        set (c.pass 1)
        return .again (if broken then f else { f with blanks := f.blanks ++ [x] }, broken)
      else if isBreak x then
        set c.passBreak
        return .again (f.breakLine broken, true)
      else return .done (f.text broken)) (({} : Folding), broken)

/-- Reads a text between quotes that stands right of `indent`, opening quote first. Behind it may
stand what ends a line, what continues a collection between brackets, or the colon that makes the
text a key; outside brackets a key stands on one line. -/
def quoted (style : QuoteStyle) (indent : Int) (inFlow : Bool) : Read String := do
  let line := (← get).line
  modify (·.passWord 1)
  let seen ← loop (fun seen => do
    let c ← get
    if c.column = 0 && c.atDocumentMark then throw .unclosedQuoted
    if c.peek.isNone then throw .unclosedQuoted
    if c.isLeftOf indent then throw .indentation
    let (seen, stop) ← quotedWord style seen
    if (← peek) = some style.mark then
      return .done seen
    let space ← quotedSpace indent (match stop with | .plain => false | .escapedBreak => true)
    return .again (space.reverse ++ seen)) []
  modify (·.passWord 1)
  let _ ← lineRest
  let c ← get
  match c.peek with
  | none => pure ()
  | some ':' => if !inFlow && c.line ≠ line then throw .contentAfterQuoted
  | some x =>
    if !isBreak x && !(inFlow && (x = ',' || x = ']' || x = '\x7d')) then
      throw .contentAfterQuoted
  pure (String.ofList seen.reverse)

end Read

end TreeWatch.Yaml

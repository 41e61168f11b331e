import TreeWatch.Yaml.Cursor

/-!
# YAML block scalars

Reads a text whose lines stand indented below an indicator: `|` keeps the line breaks, `>` folds
them. A digit behind the indicator gives the indentation, which otherwise is that of the first
line; a sign tells what becomes of the line breaks at the end.

## Main definitions

- `Chomping` : what becomes of the line breaks at the end of a text
- `Read.block` : the text below an indicator
-/

namespace TreeWatch.Yaml

/-- What becomes of the line breaks at the end of a text. -/
inductive Chomping where
  /-- One stays. -/
  | clip
  /-- None stays. -/
  | strip
  /-- All stay. -/
  | keep
deriving DecidableEq

/-- The chomping that a sign stands for. -/
def Chomping.of? : Char → Option Chomping
  | '+' => some .keep
  | '-' => some .strip
  | _ => none

namespace Read

/-- Reads a sign, if one stands here. -/
def chomping : Read (Option Chomping) := do
  match (← peek).bind Chomping.of? with
  | some k => do
    modify (·.passWord 1)
    pure (some k)
  | none => pure none

/-- Reads a digit that gives an indentation, if one stands here. Zero gives none. -/
def increment : Read Nat := do
  match ← peek with
  | none => pure 0
  | some x =>
    if x = '0' then throw .badBlockHeader
    if !x.isDigit then return 0
    modify (·.passWord 1)
    pure (x.toNat - '0'.toNat)

/-- Reads what stands behind the indicator: a digit and a sign, in either order. -/
def blockHeader : Read (Chomping × Nat) := do
  match ← chomping with
  | some k => return (k, ← increment)
  | none => do
    let n ← increment
    if n = 0 then return (.clip, 0)
    return ((← chomping).getD .clip, n)

/-- Reads spaces left of the column `indent`, and empty lines; `breaks` counts those. -/
def blockIndent (indent breaks : Nat) : Read Nat :=
  loop (fun breaks => do
    let c ← get
    let c := c.pass (min (c.rest.takeWhile (· = ' ')).length (indent - c.column))
    if within isBreak c.peek then
      set c.passBreak
      return .again (breaks + 1)
    else
      set c
      return .done breaks) breaks

/-- Reads the spaces and empty lines before the first line of a text, and finds its indentation:
the greatest that was met, but right of `outer`. -/
def firstIndent (outer : Int) : Read (Nat × Nat) :=
  loop (fun (most, breaks) => do
    let c ← get
    let c := c.pass (c.rest.takeWhile (· = ' ')).length
    let most := max most c.column
    if within isBreak c.peek then
      set c.passBreak
      return .again (most, breaks + 1)
    else
      set c
      let least := (outer + 1).toNat
      return .done (max most least, breaks)) (0, 0)

/-- The lines of a text that have been read. -/
structure BlockLines where
  /-- The text, in reverse. -/
  seen : List Char := []
  /-- Whether a break follows the text. -/
  ended : Bool := false
  /-- How many empty lines follow the break. -/
  empty : Nat := 0
  /-- Whether the last line begins with a blank. -/
  blankStart : Bool := false

/-- Reads the lines of a text that are indented by `indent`. Folding joins two lines that both
begin with a word. -/
def blockLines (literal : Bool) (indent empty : Nat) : Read BlockLines :=
  loop (fun (l : BlockLines) => do
    let c ← get
    if c.column ≠ indent || c.peek.isNone || (indent = 0 && c.atMark '.') then return .done l
    let blank := within isBlank c.peek
    let joint :=
      if !literal && l.ended && !l.blankStart && !blank then
        if l.empty = 0 then [' '] else List.replicate l.empty '\n'
      else List.replicate ((if l.ended then 1 else 0) + l.empty) '\n'
    let line ← toBreak
    let seen := line.reverse ++ joint ++ l.seen
    let c ← get
    if c.peek.isNone then return .done { seen, blankStart := blank }
    set c.passBreak
    return .again { seen, ended := true, empty := ← blockIndent indent 0, blankStart := blank })
    { empty }

/-- Reads a text below an indicator, which stands here; `outer` is the indentation of the
collection that it belongs to. -/
def block (literal : Bool) (outer : Int) : Read String := do
  let line := (← get).line
  modify (·.passWord 1)
  let (chomping, increment) ← blockHeader
  let _ ← lineRest
  if !endsLine (← peek) then throw .badBlockHeader
  if within isBreak (← peek) then modify (·.passBreak)
  if (← peek) = some '\t' then throw .tabIndentation
  let given := if increment = 0 then 0 else (max outer 0).toNat + increment
  let (indent, empty) ←
    if given = 0 then firstIndent outer else do pure (given, ← blockIndent given 0)
  let c ← get
  if c.peek.isNone then
    let breaks :=
      if c.line = line then 0
      else match chomping with
        | .strip => 0
        | .clip => 1
        | .keep => max empty 1
    return String.ofList (List.replicate breaks '\n')
  if c.column < indent && outer < (c.column : Int) then throw .indentation
  let l ← blockLines literal indent empty
  let c ← get
  let last := if c.peek.isNone && max indent 1 ≤ c.column then 1 else 0
  let tail := match chomping with
    | .strip => 0
    | .clip => (if l.ended then 1 else 0) + last
    | .keep => (if l.ended then 1 else 0) + last + l.empty
  pure (String.ofList (l.seen.reverse ++ List.replicate tail '\n'))

end Read

end TreeWatch.Yaml

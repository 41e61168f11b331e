import TreeWatch.Yaml.Quoted

/-!
# Plain YAML scalars

Reads a text that stands without quotes. It ends before a colon or a comment that white space
sets off, between brackets also before a bracket, a brace or a comma, and before a line that is
indented too little. Line breaks are folded as between quotes.

## Main definitions

- `continuesPlain` : whether a plain text goes on here
- `Read.plain` : a plain text
-/

namespace TreeWatch.Yaml

/-- Whether the character here belongs to a plain word. -/
def continuesPlain (c : Cursor) (inFlow : Bool) : Bool :=
  match c.peek with
  | none => false
  | some x =>
    !endsWord (some x) && !(inFlow && isFlow x) &&
      !(x = ':' && (endsWord (c.peekAt 1) || (inFlow && within isFlow (c.peekAt 1))))

namespace Read

/-- Reads a plain word. The text is collected in reverse. -/
def plainWord (inFlow : Bool) (seen : List Char) : Read (List Char) :=
  loop (fun seen => do
    let c ← get
    match c.peek with
    | none => return .done seen
    | some x =>
      if continuesPlain c inFlow then
        set (c.passWord 1)
        return .again (x :: seen)
      else return .done seen) seen

/-- Reads the white space between two plain words. Left of `indent` a tab may only stand on a line
without a word. -/
def plainSpace (indent : Int) (f : Folding) : Read Folding :=
  loop (fun f => do
    let c ← get
    match c.peek with
    | none => return .done f
    | some x =>
      if isBlank x then
        if !c.fresh then
          set (c.pass 1)
          return .again { f with blanks := f.blanks ++ [x] }
        else if x = '\t' && c.isLeftOf indent then
          let _ ← lineRest
          if !endsLine (← peek) then throw .tabIndentation
          return .again f
        else
          set (c.pass 1)
          return .again f
      else if isBreak x then
        set c.passBreak
        return .again (f.breakLine c.fresh)
      else return .done f) f

/-- Reads a plain text whose lines are indented by `indent` at least. -/
def plain (indent : Int) (inFlow : Bool) : Read String := do
  if inFlow && (← get).isLeftOf indent then throw .indentation
  let seen ← loop (fun ((f : Folding), (seen : List Char)) => do
    let c ← get
    if (c.fresh && c.atDocumentMark) || c.peek = some '#' then return .done seen
    if inFlow && c.peek = some '-' && within isFlow (c.peekAt 1) then throw .badCharacter
    let (f, seen) ←
      if continuesPlain c inFlow then do
        let seen := (f.text c.fresh).reverse ++ seen
        pure (({} : Folding), ← plainWord inFlow seen)
      else pure (f, seen)
    match ← peek with
    | none => return .done seen
    | some x =>
      if !(isBlank x || isBreak x) then return .done seen
      let f ← plainSpace indent f
      if !inFlow && (← get).isLeftOf indent then return .done seen
      return .again (f, seen)) (({} : Folding), [])
  if seen.isEmpty then throw .emptyPlain
  pure (String.ofList seen.reverse)

end Read

end TreeWatch.Yaml

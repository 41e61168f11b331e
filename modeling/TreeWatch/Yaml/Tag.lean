import TreeWatch.Yaml.Quoted

/-!
# YAML tags and directives

Reads what says of which type a node is: a tag written in full, or a handle and a suffix, where a
directive can say what the handle stands for.

## Main definitions

- `Tag` : a tag as it is written
- `Tag.isHandle` : whether a text is a handle that has to be declared
- `Read.tag` : a tag
- `Directive`, `Read.directive` : a line of directions to the reader
-/

namespace TreeWatch.Yaml

/-- A tag: a handle, or what it stands for, and a suffix. -/
structure Tag where
  handle : String
  suffix : String
deriving DecidableEq

namespace Tag

/-- Whether a text is a handle with a name of its own, such as `!e!`, or the handle `!!`. -/
def isHandle (s : List Char) : Bool :=
  2 ≤ s.length && s.head? = some '!' && s.getLast? = some '!'

/-- What the handle `!!` stands for unless a directive says otherwise. -/
def core : String := "tag:yaml.org,2002:"

/-- Whether the tag is one of the types that every reader knows. -/
def isCore (t : Tag) : Bool := t.handle = core

end Tag

/-- Whether a character may stand in an address. -/
def isAddressChar (c : Char) : Bool :=
  (isNameChar c && c ≠ '_') || "#;/?:@&=+$,_.!~*'()[]%".toList.contains c

/-- Whether a character may stand in the suffix of a tag. -/
def isTagChar (c : Char) : Bool := isAddressChar c && !isFlow c && c ≠ '!'

/-- A line of directions to the reader. -/
inductive Directive where
  /-- The version of YAML. -/
  | version
  /-- What a tag handle stands for. An unknown direction declares the empty handle. -/
  | handle (handle meaning : String)

namespace Read

/-- Reads one byte that is written by number. -/
def addressByte : Read Nat := do
  match (← get).rest with
  | '%' :: a :: b :: _ => do
    if !(isHex a && isHex b) then throw .badTag
    modify (·.passWord 3)
    pure (hexValue a * 16 + hexValue b)
  | _ => throw .badTag

/-- Reads so many bytes that follow the first byte of a character. -/
def addressBytes : Nat → Nat → Read Nat
  | 0, code => pure code
  | n + 1, code => do
    let b ← addressByte
    if b / 64 ≠ 2 then throw .badTag
    addressBytes n (code * 256 + b)

/-- Reads a character that is written by the numbers of its bytes. The bytes together are the
number of the character. -/
def addressEscape : Read Char := do
  let b ← addressByte
  let more ←
    if b < 0x80 then pure 0
    else if b / 32 = 6 then pure 1
    else if b / 16 = 14 then pure 2
    else if b / 8 = 30 then pure 3
    else throw .badTag
  match charOf? (← addressBytes more b) with
  | some c => pure c
  | none => throw .badTag

/-- Reads the characters of the class `p`, some of which may be written by number. -/
def address (p : Char → Bool) (seen : List Char) : Read (List Char) := do
  let all ← loop (fun seen => do
    match ← peek with
    | none => return .done seen
    | some c =>
      if !p c then return .done seen
      if c = '%' then return .again ((← addressEscape) :: seen)
      modify (·.passWord 1)
      return .again (c :: seen)) seen.reverse
  pure all.reverse

/-- Reads an exclamation mark, the name behind it, and the mark that ends a handle. -/
def tagHandle (declared : Bool) : Read (List Char) := do
  if (← peek) ≠ some '!' then throw .badTag
  modify (·.passWord 1)
  let seen := '!' :: (← word isNameChar)
  if (← peek) = some '!' then
    modify (·.passWord 1)
    return seen ++ ['!']
  if declared && seen.length ≠ 1 then throw .badDirective
  pure seen

/-- Reads a tag that is written in full. -/
def fullTag : Read Tag := do
  modify (·.passWord 2)
  let seen ← address isAddressChar []
  if (← peek) ≠ some '>' then throw .badTag
  modify (·.passWord 1)
  pure ⟨"", String.ofList seen⟩

/-- Reads a tag that is written as a handle and a suffix. A mark alone is the suffix of no
handle. -/
def shortTag : Read Tag := do
  let handle ← tagHandle false
  if Tag.isHandle handle then
    let suffix ← address isTagChar []
    if suffix.isEmpty then throw .badTag
    return ⟨String.ofList handle, String.ofList suffix⟩
  let suffix ← address isTagChar (handle.drop 1)
  if suffix.isEmpty then return ⟨"", "!"⟩
  return ⟨"!", String.ofList suffix⟩

def tag (inFlow : Bool) : Read Tag := do
  let t ← if (← get).peekAt 1 = some '<' then fullTag else shortTag
  let next ← peek
  if !(endsWord next || (inFlow && within isFlow next)) then throw .badTag
  pure t

/-- Reads a number of at most nine digits. -/
def versionNumber : Read Unit := do
  let digits ← word Char.isDigit
  if digits.isEmpty || 9 < digits.length then throw .badDirective

/-- Reads what a tag handle stands for. -/
def tagMeaning : Read (List Char) := do
  match ← peek with
  | some c => do
    if c = '!' then
      modify (·.passWord 1)
      address isAddressChar ['!']
    else if !isTagChar c then throw .badDirective
    else address isAddressChar []
  | none => throw .badDirective

/-- Reads a line of directions, percent sign first. -/
def directive : Read Directive := do
  modify (·.passWord 1)
  let name ← word isNameChar
  if name.isEmpty || !endsWord (← peek) then throw .badDirective
  let d ←
    match String.ofList name with
    | "YAML" => do
      let _ ← blanks isBlank
      versionNumber
      if (← peek) ≠ some '.' then throw .badDirective
      modify (·.passWord 1)
      versionNumber
      pure Directive.version
    | "TAG" => do
      let _ ← blanks isBlank
      let handle ← tagHandle true
      let _ ← blanks isBlank
      let meaning ← tagMeaning
      if !endsWord (← peek) then throw .badDirective
      pure (.handle (String.ofList handle) (String.ofList meaning))
    | _ => do
      let _ ← toBreak
      pure (.handle "" "")
  let _ ← lineRest
  match ← peek with
  | none => pure ()
  | some c => do
    if !isBreak c then throw .badDirective
    modify (·.passBreak)
  pure d

end Read

end TreeWatch.Yaml

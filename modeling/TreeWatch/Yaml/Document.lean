import TreeWatch.Yaml.Node
import TreeWatch.Yaml.Token

/-!
# YAML documents

Builds the values of a text from its tokens. A text holds any number of documents. The first one
may begin without a mark, and so may one that follows the end mark of another.

A value can be given a name and then stand again wherever its name is used. A name is known from
the place where it is given on, but its value only from its end on.

## Main definitions

- `Builder`, `Build` : a computation that takes tokens
- `Build.node`, `Build.document` : a value, a document
- `documents` : the documents of a text
-/

namespace TreeWatch.Yaml

/-- The state in which values are built. -/
structure Builder where
  /-- The tokens that have not been taken. -/
  tokens : List Token
  /-- What tag handles stand for in the document. -/
  handles : List (String × String) := []
  /-- The names given in the document, each with a number of its own, latest first. -/
  names : List (List Char × Nat) := []
  /-- The values of the names that have one. -/
  values : List (Nat × Node) := []
  /-- How many names have been given. -/
  count : Nat := 0

/-- A computation that takes tokens. -/
abbrev Build := StateT Builder (Except YamlError)

/-- What stands before a value: the number of its name, and its tag. -/
structure Properties where
  name : Option Nat := none
  tag : Option Tag := none

/-- The value that is left out. -/
def Node.null : Node := .scalar .null

/-- Whether a value is left out where this token stands in a block mapping. -/
def Token.endsBlockEntry : Option Token → Bool
  | some .key | some .value | some .blockEnd => true
  | _ => false

/-- Whether a value is left out where this token stands in a block sequence. -/
def Token.endsBlockItem : Option Token → Bool
  | some .dash | some .blockEnd => true
  | _ => false

/-- Whether a value is left out where this token stands in a sequence that is indented as the
mapping around it. -/
def Token.endsBareItem : Option Token → Bool
  | some .dash => true
  | t => endsBlockEntry t

/-- Whether a value is left out where this token stands between braces. -/
def Token.endsFlowEntry : Option Token → Bool
  | some .comma | some .flowMappingEnd => true
  | _ => false

/-- Whether a value is left out where this token stands between brackets. -/
def Token.endsFlowItem : Option Token → Bool
  | some .comma | some .flowSequenceEnd => true
  | _ => false

namespace Build

/-- The next token. -/
def peek : Build (Option Token) := return (← get).tokens.head?

/-- Takes the next token. -/
def skip : Build Unit := modify fun b => { b with tokens := b.tokens.tail }

def giveName (name : List Char) : Build Nat := do
  let b ← get
  set { b with names := (name, b.count) :: b.names, count := b.count + 1 }
  pure b.count

/-- The value that a name stands for; invalid within that value. -/
def named (name : List Char) : Build Node := do
  let b ← get
  match b.names.lookup name with
  | none => throw .unknownAnchor
  | some n => pure ((b.values.lookup n).getD .invalid)

/-- A tag with its handle replaced by what that stands for. A handle with a name of its own has to
be declared. -/
def resolve (t : Tag) : Build Tag := do
  match (← get).handles.lookup t.handle with
  | some meaning => pure { t with handle := meaning }
  | none =>
    if t.handle = "!!" then pure { t with handle := Tag.core }
    else if Tag.isHandle t.handle.toList then throw .undeclaredHandle
    else pure t

/-- Takes a name, if one stands here. -/
def nameHere : Build (Option Nat) := do
  match ← peek with
  | some (.anchor name) => do
    skip
    some <$> giveName name
  | _ => pure none

/-- Takes a tag, if one stands here. -/
def tagHere : Build (Option Tag) := do
  match ← peek with
  | some (.tag t) => do
    skip
    some <$> resolve t
  | _ => pure none

/-- Takes a name and a tag, in either order, as far as they stand here. -/
def properties : Build Properties := do
  match ← nameHere with
  | some name => return { name, tag := ← tagHere }
  | none => do
    match ← tagHere with
    | some tag => return { name := ← nameHere, tag }
    | none => return {}

/-- Keeps a value under its name. -/
def keep (p : Properties) (n : Node) : Build Node := do
  match p.name with
  | some number => modify fun b => { b with values := (number, n) :: b.values }
  | none => pure ()
  pure n

/-- Takes a comma, unless the first element comes next. -/
def separator (first : Bool) : Build Unit := do
  if !first then
    match ← peek with
    | some .comma => skip
    | _ => throw .unexpectedToken

mutual

/-- Takes a value. Only `block` allows a block collection; with `bare`, a block sequence may stand
in the column of the mapping around it. -/
def node (fuel : Nat) (block bare : Bool) : Build Node := do
  match fuel with
  | 0 => throw .unexpectedToken
  | fuel + 1 =>
    match ← peek with
    | some (.alias name) => do
      skip
      named name
    | _ => do
      let p ← properties
      let n ←
        match ← peek, block, bare with
        | some .dash, _, true => do pure ((Node.sequence (← bareItems fuel)).tagWith p.tag)
        | some (.scalar plain text), _, _ => do
          skip
          pure (.ofScalar plain text p.tag)
        | some .flowSequence, _, _ => do
          skip
          pure ((Node.sequence (← flowItems fuel true)).tagWith p.tag)
        | some .flowMapping, _, _ => do
          skip
          pure ((Node.ofEntries (← flowEntries fuel true)).tagWith p.tag)
        | some .blockSequence, true, _ => do
          skip
          pure ((Node.sequence (← blockItems fuel)).tagWith p.tag)
        | some .blockMapping, true, _ => do
          skip
          pure ((Node.ofEntries (← blockEntries fuel)).tagWith p.tag)
        | _, _, _ =>
          if p.name.isSome || p.tag.isSome then pure (.ofScalar true "" p.tag)
          else throw .unexpectedToken
      keep p n

/-- Takes the elements of a block sequence and its end. -/
def blockItems (fuel : Nat) : Build (List Node) := do
  match fuel with
  | 0 => throw .unexpectedToken
  | fuel + 1 =>
    match ← peek with
    | some .blockEnd => do
      skip
      pure []
    | some .dash => do
      skip
      let n ← if Token.endsBlockItem (← peek) then pure .null else node fuel true false
      return n :: (← blockItems fuel)
    | _ => throw .unexpectedToken

/-- Takes the elements of a block sequence that is indented as the mapping around it. -/
def bareItems (fuel : Nat) : Build (List Node) := do
  match fuel with
  | 0 => throw .unexpectedToken
  | fuel + 1 =>
    match ← peek with
    | some .dash => do
      skip
      let n ← if Token.endsBareItem (← peek) then pure .null else node fuel true false
      return n :: (← bareItems fuel)
    | _ => pure []

/-- Takes the keys and values of a block mapping and its end. -/
def blockEntries (fuel : Nat) : Build (List Node) := do
  match fuel with
  | 0 => throw .unexpectedToken
  | fuel + 1 =>
    let entry (left : Bool) : Build Node :=
      if left then pure .null else node fuel true true
    match ← peek with
    | some .blockEnd => do
      skip
      pure []
    | some .key => do
      skip
      let k ← entry (Token.endsBlockEntry (← peek))
      let v ← match ← peek with
        | some .value => do
          skip
          entry (Token.endsBlockEntry (← peek))
        | _ => pure .null
      return k :: v :: (← blockEntries fuel)
    | some .value => do
      skip
      let v ← entry (Token.endsBlockEntry (← peek))
      return .null :: v :: (← blockEntries fuel)
    | _ => throw .unexpectedToken

/-- Takes the elements between brackets and the closing bracket. -/
def flowItems (fuel : Nat) (first : Bool) : Build (List Node) := do
  match fuel with
  | 0 => throw .unexpectedToken
  | fuel + 1 =>
    match ← peek with
    | some .flowSequenceEnd => do
      skip
      pure []
    | _ => do
      separator first
      match ← peek with
      | some .flowSequenceEnd => do
        skip
        pure []
      | some .key => do
        skip
        let n ← flowPair fuel
        return n :: (← flowItems fuel false)
      | _ => do
        let n ← node fuel false false
        return n :: (← flowItems fuel false)

/-- Takes the key and the value of a pair that stands between brackets without braces. An empty
key takes the token behind it along. -/
def flowPair (fuel : Nat) : Build Node := do
  match fuel with
  | 0 => throw .unexpectedToken
  | fuel + 1 =>
    let next ← peek
    let empty := match next with
      | some .value => true
      | _ => Token.endsFlowItem next
    let k ←
      if empty then do
        skip
        pure .null
      else node fuel false false
    let v ← match ← peek with
      | some .value => do
        skip
        if Token.endsFlowItem (← peek) then pure .null else node fuel false false
      | _ => pure .null
    pure (.ofEntries [k, v])

/-- Takes the keys and values between braces and the closing brace. -/
def flowEntries (fuel : Nat) (first : Bool) : Build (List Node) := do
  match fuel with
  | 0 => throw .unexpectedToken
  | fuel + 1 =>
    let value : Build Node := do
      match ← peek with
      | some .value => do
        skip
        if Token.endsFlowEntry (← peek) then pure .null else node fuel false false
      | _ => pure .null
    match ← peek with
    | some .flowMappingEnd => do
      skip
      pure []
    | _ => do
      separator first
      match ← peek with
      | some .flowMappingEnd => do
        skip
        pure []
      | some .value => do
        let v ← value
        return .null :: v :: (← flowEntries fuel false)
      | some .key => do
        skip
        let next ← peek
        let k ← match next with
          | some .value => pure .null
          | _ => if Token.endsFlowEntry next then pure .null else node fuel false false
        let v ← value
        return k :: v :: (← flowEntries fuel false)
      | _ => do
        let k ← node fuel false false
        return k :: .null :: (← flowEntries fuel false)

end

/-- Takes directives; `version` tells whether one gave the version. Each may be given once. -/
def directives (version : Bool) : List Token → Build Unit
  | .directive .version :: rest => do
    if version then throw .duplicateDirective
    skip
    directives true rest
  | .directive (.handle handle meaning) :: rest => do
    let b ← get
    if (b.handles.lookup handle).isSome then throw .duplicateDirective
    set { b with handles := (handle, meaning) :: b.handles }
    skip
    directives version rest
  | _ => pure ()

/-- Takes what stands between the beginning of a document and its end. -/
def content (explicit : Bool) : Build Node := do
  let b ← get
  let all := 3 * b.tokens.length + 3
  if !explicit then return ← node all true false
  match b.tokens.head? with
  | none | some (.directive _) | some .documentStart | some .documentEnd => pure .null
  | _ => node all true false

/-- Takes a document; `implicit` tells whether it may begin without a mark. Answers whether the
next one may. -/
def document (implicit : Bool) : Build (Node × Bool) := do
  modify fun b => { b with names := [], handles := [] }
  let explicit := match ← peek with
    | some (.directive _) | some .documentStart => true
    | _ => !implicit
  if explicit then
    directives false (← get).tokens
    match ← peek with
    | some .documentStart => skip
    | _ => throw .missingDocumentStart
  let n ← content explicit
  match ← peek with
  | some .documentEnd => do
    skip
    pure (n, true)
  | some (.directive _) => throw .missingDocumentStart
  | _ => pure (n, false)

/-- Takes at most `fuel` documents. -/
def documents (implicit : Bool) : Nat → Build (List Node)
  | 0 => throw .unexpectedToken
  | fuel + 1 => do
    modify fun b => { b with tokens := b.tokens.dropWhile fun
      | .documentEnd => true
      | _ => false }
    if (← peek).isNone then return []
    let (n, implicit) ← document implicit
    return n :: (← documents implicit fuel)

end Build

def documents (text : String) : Except YamlError (List Node) := do
  let tokens ← Token.ofText text
  (Build.documents true (tokens.length + 1)).run' { tokens }

end TreeWatch.Yaml

import TreeWatch.Yaml.Block
import TreeWatch.Yaml.Plain
import TreeWatch.Yaml.Tag

/-!
# YAML tokens

Splits a YAML text into tokens. Indentation becomes tokens too: a block collection begins where a
line is indented further than the one before it, and ends where one is indented less.

That a node is the key of a mapping is known only at the colon behind it. So the place of every
node that may be a key is kept, and the colon puts the tokens of a key there.

## Main definitions

- `Token` : a token
- `Lexer` : what is known while tokens are read
- `Token.ofText` : the tokens of a text
-/

namespace TreeWatch.Yaml

inductive Token where
  | directive (d : Directive)
  | documentStart
  | documentEnd
  | blockSequence
  | blockMapping
  | blockEnd
  | flowSequence
  | flowSequenceEnd
  | flowMapping
  | flowMappingEnd
  /-- The dash before an element of a block sequence. -/
  | dash
  | comma
  | key
  | value
  | alias (name : List Char)
  | anchor (name : List Char)
  | tag (t : Tag)
  /-- A scalar, and whether it is plain. -/
  | scalar (plain : Bool) (text : String)

/-- A node that may turn out to be a key. -/
structure KeyPlace where
  /-- Whether a colon can still make it a key. -/
  possible : Bool := false
  /-- Whether the text is wrong unless it is a key. -/
  required : Bool := false
  /-- How many tokens come before the node. -/
  tokens : Nat := 0
  index : Nat := 0
  line : Nat := 0
  column : Nat := 0

/-- An indentation that has been left for a greater one. -/
structure OuterIndent where
  indent : Int
  /-- Whether the greater one is that of a block collection; otherwise it only keeps words from
  standing too far left. -/
  collection : Bool

/-- What is known while tokens are read. -/
structure Lexer where
  cursor : Cursor
  tokens : Array Token := #[]
  /-- Whether a key may begin here. -/
  keyAllowed : Bool := true
  /-- The last node between the innermost brackets that may be a key. -/
  key : KeyPlace := {}
  /-- The same for the brackets around them, innermost first. -/
  outerKeys : List KeyPlace := []
  /-- The column of the innermost block collection; -1 outside of all. -/
  indent : Int := -1
  outerIndents : List OuterIndent := []
  /-- Behind this place a colon needs no blank, as a quoted text or a collection ends there. -/
  afterKey : Nat := 0
  /-- Whether the innermost mapping between brackets was begun by a brace or a question mark. -/
  inMapping : Bool := false
  /-- For each open bracket, innermost first: the depth at which a pair that stands in it without
  braces was begun. -/
  pairs : List (Option Nat) := []

namespace Lexer

/-- How many brackets and braces are open. -/
def depth (l : Lexer) : Nat := l.outerKeys.length

/-- Whether the place is between brackets or braces. -/
def inFlow (l : Lexer) : Bool := l.depth ≠ 0

/-- The lexer with one more token. -/
def emit (l : Lexer) (t : Token) : Lexer := { l with tokens := l.tokens.push t }

/-- The lexer with a token put in at place `n`. -/
def emitAt (l : Lexer) (n : Nat) (t : Token) : Lexer :=
  { l with tokens := l.tokens.insertIdxIfInBounds n t }

/-- Ends the block collections that are indented further than `column`. -/
def leave (l : Lexer) (column : Int) : Lexer :=
  if l.inFlow then l
  else go { l with outerIndents := [] } l.outerIndents
where
  /-- Ends collections from the innermost on. -/
  go (l : Lexer) : List OuterIndent → Lexer
    | [] => l
    | o :: rest =>
      if column < l.indent then
        let l := { l with indent := o.indent }
        go (if o.collection then l.emit .blockEnd else l) rest
      else { l with outerIndents := o :: rest }

/-- Leaves the indentations that belong to no collection. -/
def leaveBare (l : Lexer) : Lexer :=
  go { l with outerIndents := [] } l.outerIndents
where
  /-- Leaves indentations from the innermost on. -/
  go (l : Lexer) : List OuterIndent → Lexer
    | [] => l
    | o :: rest =>
      if o.collection then { l with outerIndents := o :: rest }
      else go { l with indent := o.indent } rest

/-- Begins a block collection at `column`, unless one has begun there. Its token `t` comes behind
the first `place` tokens. -/
def enter (l : Lexer) (column : Nat) (place : Nat) (t : Token) : Lexer :=
  if l.inFlow then l
  else
    let l := match l.outerIndents with
      | ⟨indent, false⟩ :: rest =>
        if l.indent ≤ (column : Int) then { l with indent, outerIndents := rest } else l
      | _ => l
    if l.indent < (column : Int) then
      { l with
        indent := column
        outerIndents := ⟨l.indent, true⟩ :: l.outerIndents }.emitAt place t
    else l

/-- Requires what follows in a block collection to stand right of its column. -/
def enterBare (l : Lexer) : Lexer :=
  match l.inFlow, l.outerIndents with
  | false, ⟨_, true⟩ :: _ =>
    { l with indent := l.indent + 1, outerIndents := ⟨l.indent, false⟩ :: l.outerIndents }
  | _, _ => l

/-- Keeps the place of a node that begins here, if it may be a key. In the column of a block
mapping it has to be one. -/
def markKey (l : Lexer) : Lexer :=
  if l.keyAllowed then
    let c := l.cursor
    let collection := match l.outerIndents with
      | o :: _ => o.collection
      | [] => false
    { l with key :=
        { possible := true
          required := !l.inFlow && l.indent = c.column && collection
          tokens := l.tokens.size
          index := c.index
          line := c.line
          column := c.column } }
  else l

end Lexer

/-- A computation that reads tokens. -/
abbrev Lex := StateT Lexer (Except YamlError)

namespace Lex

/-- Moves through the text. -/
def read (r : Read α) : Lex α := do
  let l ← get
  let (a, cursor) ← r.run l.cursor
  set { l with cursor }
  pure a

def peek : Lex (Option Char) := return (← get).cursor.peek

/-- Adds a token. -/
def emit (t : Token) : Lex Unit := modify (·.emit t)

/-- Says whether a key may begin here. -/
def allowKey (allowed : Bool) : Lex Unit := modify ({ · with keyAllowed := allowed })

/-- The last node is no key. -/
def dropKey : Lex Unit := do
  let k := (← get).key
  if k.possible && k.required then throw .keyWithoutValue
  modify fun l => { l with key := { k with possible := false } }

/-- Outside brackets a key and its colon stand on one line, at most 1024 characters apart: behind
that the last node is no key. -/
def dropStaleKey : Lex Unit := do
  let l ← get
  if !l.inFlow && (l.key.line < l.cursor.line || l.key.index + 1024 < l.cursor.index) then dropKey

/-- Reads white space and comments up to the next token. Outside brackets a key may begin on a new
line. A tab may not stand left of the column of a block collection, before a word. -/
def skipSpace : Lex Unit := do
  let l ← get
  let broken ← read <| Read.loop (fun broken => do
    let c ← get
    match c.peek with
    | none => return .done broken
    | some x =>
      if x = '\t' && !l.outerIndents.isEmpty && c.fresh && c.isLeftOf l.indent then
        let _ ← Read.lineRest
        if !endsLine (← Read.peek) then throw .tabIndentation
        return .again broken
      else if isBlank x then
        set (c.pass 1)
        return .again broken
      else if isBreak x then
        set c.passBreak
        return .again true
      else if x = '#' then
        let _ ← Read.toBreak
        return .again broken
      else return .done broken) false
  if broken && !l.inFlow then allowKey true

/-- Ends all block collections, before something that stands outside of all documents. -/
def leaveDocument : Lex Unit := do
  modify (·.leave (-1))
  dropKey
  allowKey false

def directive : Lex Unit := do
  leaveDocument
  emit (.directive (← read Read.directive))

/-- Reads a line that begins or ends a document. -/
def documentMark (t : Token) : Lex Unit := do
  leaveDocument
  read (modify (·.passWord 3))
  emit t

/-- The pair that stands without braces at depth `depth`, in the innermost bracket, ends here. -/
def endPair (depth : Nat) : Lex Unit := do
  match (← get).pairs with
  | some d :: rest =>
    if d = depth then
      modify fun l => { l with inMapping := false, pairs := none :: rest }
      emit .flowMappingEnd
  | _ => pure ()

/-- Reads an opening bracket or brace. At most 255 may be open. -/
def openFlow (t : Token) (mapping : Bool) : Lex Unit := do
  modify fun l => l.markKey.enterBare
  if (← get).depth = 255 then throw .nestedTooDeep
  modify fun l => { l with
    outerKeys := l.key :: l.outerKeys
    key := {}
    keyAllowed := true
    inMapping := l.inMapping || mapping
    pairs := if mapping then l.pairs else none :: l.pairs }
  read do
    modify (·.passWord 1)
    let _ ← Read.lineRest
  emit t

/-- Reads a closing bracket or brace. -/
def closeFlow (t : Token) (mapping : Bool) : Lex Unit := do
  let depth := (← get).depth
  dropKey
  match (← get).outerKeys with
  | [] => throw .closedTooOften
  | key :: outerKeys => modify fun l => { l with key, outerKeys, keyAllowed := false }
  if !mapping then
    endPair depth
    modify fun l => { l with pairs := l.pairs.tail }
  read do
    modify (·.passWord 1)
    let _ ← Read.lineRest
  modify fun l => if l.inFlow then { l with afterKey := l.cursor.index } else l
  emit t

def comma : Lex Unit := do
  dropKey
  allowKey true
  endPair (← get).depth
  read do
    modify (·.passWord 1)
    let _ ← Read.lineRest
  emit .comma

/-- Reads the dash before an element of a block sequence. -/
def dash : Lex Unit := do
  let l ← get
  if l.inFlow || !l.keyAllowed then throw .entryNotAllowed
  modify fun l => l.enter l.cursor.column l.tokens.size .blockSequence
  read do
    modify (·.passWord 1)
    let blanks ← Read.lineRest
    let c ← get
    if blanks.tab && c.peek = some '-' && endsWord (c.peekAt 1) then throw .tabIndentation
  let next ← peek
  if within isBreak next || within isFlow next then modify (·.enterBare)
  dropKey
  allowKey true
  emit .dash

/-- Reads the question mark before a key. White space has to follow, and no tab may stand before
the key. -/
def keyMark : Lex Unit := do
  let l ← get
  if l.inFlow then modify ({ · with inMapping := true })
  else
    if !l.keyAllowed then throw .keyNotAllowed
    modify fun l => l.enter l.cursor.column l.tokens.size .blockMapping
  dropKey
  allowKey (!l.inFlow)
  read do
    modify (·.passWord 1)
    let seen ← Read.loop (fun seen => do
      let c ← get
      match c.peek with
      | none => return .done seen
      | some x =>
        if x = ' ' then
          set (c.pass 1)
          return .again true
        else if isBreak x then
          set c.passBreak
          return .again true
        else if x = '#' then
          let _ ← Read.toBreak
          return .again seen
        else return .done seen) false
    if !seen then throw .keyNotAllowed
    if (← Read.peek) = some '\t' then throw .tabIndentation
  emit .key

/-- Reads the colon behind a key. The tokens that begin the key and its mapping are put in before
the key; without a key before it, the colon begins a value whose key is empty. -/
def colon : Lex Unit := do
  let l ← get
  let k := l.key
  let line := l.cursor.line
  let column := l.cursor.column
  let pair := !l.pairs.isEmpty && !l.inMapping
  if pair then modify fun l => { l with pairs := some l.depth :: l.pairs.tail }
  read do
    modify (·.passWord 1)
    if (← Read.peek) = some '\t' then
      let blanks ← Read.lineRest
      if !blanks.space && within isNameChar (← Read.peek) then throw .tabIndentation
  if k.possible then
    modify (·.emitAt k.tokens .key)
    if pair then
      if k.line < line then throw .valueNotAllowed
      modify (·.emitAt k.tokens .flowMapping)
    modify fun l => { (l.enter k.column k.tokens .blockMapping).enterBare with
      key := { k with possible := false }
      keyAllowed := false }
  else
    if pair then emit .flowMapping
    if !l.inFlow then
      if !l.keyAllowed then throw .valueNotAllowed
      modify fun l => l.enter column l.tokens.size .blockMapping
    modify (·.enterBare)
    allowKey (!l.inFlow)
  emit .value

/-- Reads the name behind an ampersand or an asterisk. -/
def name (t : List Char → Token) : Lex Unit := do
  modify (·.markKey)
  allowKey false
  let seen ← read do
    modify (·.passWord 1)
    Read.word fun c => !isBreak c && !isBlank c && !isFlow c && c ≠ '\uFEFF'
  if seen.isEmpty then throw .badAnchor
  emit (t seen)

def tag : Lex Unit := do
  modify (·.markKey)
  allowKey false
  emit (.tag (← read (Read.tag (← get).inFlow)))

/-- Reads a block scalar. -/
def block (literal : Bool) : Lex Unit := do
  modify fun l => l.markKey.leaveBare
  allowKey true
  emit (.scalar false (← read (Read.block literal (← get).indent)))

/-- Reads a quoted scalar. -/
def quoted (style : QuoteStyle) : Lex Unit := do
  modify (·.markKey)
  allowKey false
  let l ← get
  let text ← read (Read.quoted style l.indent l.inFlow)
  skipSpace
  modify fun l => { l with afterKey := l.cursor.index }
  emit (.scalar false text)

/-- Reads a plain scalar. If it ends on a new line, a key may begin there. -/
def plain : Lex Unit := do
  modify fun l => l.markKey.leaveBare
  allowKey false
  let l ← get
  let text ← read (Read.plain (l.indent + 1) l.inFlow)
  if (← get).cursor.fresh then allowKey true
  emit (.scalar true text)

/-- Reads the end of the text. -/
def finish : Lex Unit := do
  if (← get).inFlow then throw .unclosedCollection
  dropKey
  modify (·.leave (-1))

/-- Reads the token that begins with the character `c`, which stands here. -/
def tokenFrom (c : Char) : Lex Unit := do
  let l ← get
  let next := l.cursor.peekAt 1
  match c with
  | '[' => openFlow .flowSequence false
  | '\x7b' => openFlow .flowMapping true
  | ']' => closeFlow .flowSequenceEnd false
  | '\x7d' => closeFlow .flowMappingEnd true
  | ',' => comma
  | '*' => name .alias
  | '&' => name .anchor
  | '!' => tag
  | '\'' => quoted .single
  | '"' => quoted .double
  | '-' => if endsWord next then dash else plain
  | '?' => if endsWord next then keyMark else plain
  | ':' =>
    if endsWord next then colon
    else if l.inFlow && (within isFlow next || l.cursor.index = l.afterKey) then
      if l.cursor.index ≠ l.afterKey && (next = some '[' || next = some '\x7b') then
        throw .valueNotAllowed
      colon
    else plain
  | '|' => if l.inFlow then plain else block true
  | '>' => if l.inFlow then plain else block false
  | '%' | '@' | '\x60' => throw .badCharacter
  | _ => plain

/-- Reads the next token; false at the end of the text. -/
def token : Lex Bool := do
  skipSpace
  dropStaleKey
  modify fun l => l.leave l.cursor.column
  let c := (← get).cursor
  match c.peek with
  | none => do
    finish
    pure false
  | some x => do
    if c.column = 0 && x = '%' then directive
    else if c.column = 0 && c.atMark '-' then documentMark .documentStart
    else if c.column = 0 && c.atMark '.' then
      documentMark .documentEnd
      let _ ← read Read.lineRest
      if !endsLine (← peek) then throw .contentAfterDocument
    else
      if c.isLeftOf (← get).indent then throw .indentation
      tokenFrom x
    pure true

/-- Reads at most `fuel` tokens. -/
def tokens : Nat → Lex Unit
  | 0 => throw .unexpectedToken
  | fuel + 1 => do
    if ← token then tokens fuel

end Lex

/-- The tokens of a text, which ends at a NUL character if it holds one. Each token but those that
indentation stands for reads a character, so the length of the text bounds their number. -/
def Token.ofText (text : String) : Except YamlError (List Token) := do
  let rest := text.toList.takeWhile (· ≠ '\x00')
  let (_, l) ← (Lex.tokens (rest.length + 1)).run { cursor := { rest } }
  pure l.tokens.toList

end TreeWatch.Yaml

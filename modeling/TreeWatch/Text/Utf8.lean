import TreeWatch.Bytes

/-!
# Reading UTF-8

Splits a byte string into characters and the stretches that belong to no character. A malformed
stretch is as long as possible: it ends at the first byte that cannot continue the character begun.

## Main definitions

- `Utf8.pieces` : the characters and malformed stretches of a byte string, in order
- `Utf8.decode?` : the text of a byte string without malformed stretches
- `Utf8.lossy` : the text with U+FFFD in the place of every malformed stretch
- `Utf8.fault?` : where the first malformed stretch begins, and how long it is
-/

namespace TreeWatch.Text.Utf8

/-- A part of a byte string: one character, or bytes that belong to none. -/
inductive Piece where
  | char (c : Char)
  | malformed (bytes : Bytes)
deriving DecidableEq

/-- A character that has been read in part. -/
structure Partial where
  /-- The bytes read, in order. -/
  seen : Bytes
  /-- The bits read. -/
  code : Nat
  /-- How many more bytes follow the next one. -/
  later : Nat
  /-- The least value of the next byte. -/
  low : UInt8 := 0x80
  /-- The greatest value of the next byte. -/
  high : UInt8 := 0xBF

/-- What a byte means at the beginning of a character. -/
inductive Start where
  | whole (c : Char)
  | more (p : Partial)
  | bad

/-- Reads the first byte of a character. Overlong forms, surrogates and numbers past U+10FFFF are
excluded by the range of the second byte. -/
def start (b : UInt8) : Start :=
  let n := b.toNat
  if n < 0x80 then .whole (Char.ofNat n)
  else if n < 0xC2 then .bad
  else if n < 0xE0 then .more ⟨[b], n - 0xC0, 0, 0x80, 0xBF⟩
  else if n < 0xF0 then
    .more ⟨[b], n - 0xE0, 1, if n = 0xE0 then 0xA0 else 0x80, if n = 0xED then 0x9F else 0xBF⟩
  else if n < 0xF5 then
    .more ⟨[b], n - 0xF0, 2, if n = 0xF0 then 0x90 else 0x80, if n = 0xF4 then 0x8F else 0xBF⟩
  else .bad

/-- The pieces of `bytes`, where the character `p` has been begun already. -/
def piecesFrom : Option Partial → Bytes → List Piece
  | none, [] => []
  | some p, [] => [.malformed p.seen]
  | none, b :: rest =>
    match start b with
    | .whole c => .char c :: piecesFrom none rest
    | .more p => piecesFrom (some p) rest
    | .bad => .malformed [b] :: piecesFrom none rest
  | some p, b :: rest =>
    if p.low ≤ b ∧ b ≤ p.high then
      let code := p.code * 64 + (b.toNat - 0x80)
      match p.later with
      | 0 => .char (Char.ofNat code) :: piecesFrom none rest
      | later + 1 => piecesFrom (some { seen := p.seen ++ [b], code, later }) rest
    else
      .malformed p.seen ::
        match start b with
        | .whole c => .char c :: piecesFrom none rest
        | .more p => piecesFrom (some p) rest
        | .bad => .malformed [b] :: piecesFrom none rest

/-- The characters and malformed stretches of a byte string, in order. -/
def pieces (bytes : Bytes) : List Piece :=
  piecesFrom none bytes

/-- The character that stands for a piece in lossy text. -/
def Piece.shown : Piece → Char
  | .char c => c
  | .malformed _ => '\uFFFD'

/-- The text of a byte string, with U+FFFD for every malformed stretch. -/
def lossy (bytes : Bytes) : String :=
  String.ofList ((pieces bytes).map Piece.shown)

/-- The characters of pieces without malformed stretches. -/
def allChars? : List Piece → Option (List Char)
  | [] => some []
  | .char c :: rest => (allChars? rest).map (c :: ·)
  | .malformed _ :: _ => none

/-- The text of a byte string, if it is UTF-8 throughout. -/
def decode? (bytes : Bytes) : Option String :=
  (allChars? (pieces bytes)).map String.ofList

/-- A malformed stretch: where it begins, and its length, which is absent if it is the beginning of
a character cut off by the end. -/
structure Fault where
  index : Nat
  length : Option Nat
deriving DecidableEq

/-- Whether the bytes begin a character without ending it. -/
def unfinished (bytes : Bytes) : Bool :=
  match bytes with
  | [] => false
  | b :: rest =>
    match start b with
    | .more p => go p rest
    | _ => false
where
  /-- Whether the bytes continue the character begun without ending it. -/
  go (p : Partial) : Bytes → Bool
    | [] => true
    | b :: rest =>
      if p.low ≤ b ∧ b ≤ p.high then
        match p.later with
        | 0 => false
        | later + 1 => go { seen := p.seen ++ [b], code := 0, later } rest
      else false

/-- The first malformed stretch of pieces that begin at `index`. -/
def faultFrom (index : Nat) : List Piece → Option Fault
  | [] => none
  | .char c :: rest => faultFrom (index + c.utf8Size) rest
  | .malformed bytes :: rest =>
    some ⟨index, if rest.isEmpty && unfinished bytes then none else some bytes.length⟩

/-- The first malformed stretch of a byte string. -/
def fault? (bytes : Bytes) : Option Fault :=
  faultFrom 0 (pieces bytes)

end TreeWatch.Text.Utf8

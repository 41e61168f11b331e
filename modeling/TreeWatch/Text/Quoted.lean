import TreeWatch.Text.GraphemeExtend
import TreeWatch.Text.Printable
import TreeWatch.Text.Utf8

/-!
# Quoted names

Writes a byte string between double quotes so that it can be read in a message whatever its bytes
are: characters that would not be seen are written by number, and so are malformed bytes.

## Main definitions

- `Quoted.escape` : the written form of one character
- `Quoted.quote` : the written form of a byte string
- `Quoted.quoteText` : the written form of a text
-/

namespace TreeWatch.Text.Quoted

/-- The hexadecimal digits of a number, in lower case and without leading zeros. -/
def hex (n : Nat) : String :=
  String.ofList (Nat.toDigits 16 n)

/-- A byte as two hexadecimal digits in upper case. -/
def byteHex (b : UInt8) : String :=
  let digit (n : Nat) : Char := (Nat.digitChar n).toUpper
  String.ofList [digit (b.toNat / 16), digit (b.toNat % 16)]

def byNumber (c : Char) : String :=
  "\\u\x7b" ++ hex c.toNat ++ "\x7d"

/-- A character as it stands in quoted text; the quotes in `escaped` get a backslash. -/
def escapeWith (escaped : Char → Bool) (c : Char) : String :=
  if c = '\x00' then "\\0"
  else if c = '\t' then "\\t"
  else if c = '\r' then "\\r"
  else if c = '\n' then "\\n"
  else if c = '\\' || escaped c then String.ofList ['\\', c]
  else if 0x20 ≤ c.toNat && c.toNat < 0x7F then String.singleton c
  else if GraphemeExtend.holds c || !Printable.holds c then byNumber c
  else String.singleton c

/-- A character as it stands in a quoted byte string, where both quotes get a backslash. -/
def escape (c : Char) : String :=
  escapeWith (fun c => c = '"' || c = '\'') c

/-- A piece of a byte string as it stands in a quoted byte string. -/
def escapePiece : Utf8.Piece → String
  | .char c => escape c
  | .malformed bytes => String.join (bytes.map fun b => "\\x" ++ byteHex b)

/-- A byte string between double quotes. -/
def quote (bytes : Bytes) : String :=
  "\"" ++ String.join ((Utf8.pieces bytes).map escapePiece) ++ "\""

/-- A text between double quotes, where only the double quote gets a backslash. -/
def quoteText (s : String) : String :=
  "\"" ++ String.join (s.toList.map (escapeWith (· = '"'))) ++ "\""

end TreeWatch.Text.Quoted

/-!
# YAML scalars

The value of a scalar: what a plain text stands for, and what a tag makes of a text.

## Main definitions

- `Scalar` : a value
- `Scalar.ofPlain` : the value of a plain text
- `Scalar.ofTyped?` : the value of a plain text whose type is given
-/

namespace TreeWatch.Yaml

/-- The value of a scalar. -/
inductive Scalar where
  | null
  | boolean (b : Bool)
  /-- A number from -2^63 to 2^63 - 1. -/
  | integer (n : Int)
  /-- A number that is no such integer, as it is written. -/
  | float (text : String)
  | string (text : String)
deriving DecidableEq

namespace Scalar

/-- The value of a digit. -/
def digit? (radix : Nat) (c : Char) : Option Nat :=
  let n :=
    if c.isDigit then c.toNat - '0'.toNat
    else if 'a' ≤ c && c ≤ 'z' then c.toNat - 'a'.toNat + 10
    else if 'A' ≤ c && c ≤ 'Z' then c.toNat - 'A'.toNat + 10
    else radix
  if n < radix then some n else none

/-- The number that digits stand for; there has to be one at least. -/
def natural? (radix : Nat) (digits : List Char) : Option Nat :=
  if digits.isEmpty then none
  else digits.foldlM (fun n c => (digit? radix c).map (n * radix + ·)) 0

/-- A number, if 64 bits can hold it with its sign. -/
def bounded? (n : Int) : Option Int :=
  if -0x8000000000000000 ≤ n ∧ n ≤ 0x7FFFFFFFFFFFFFFF then some n else none

/-- The number that digits, with or without a sign before them, stand for. -/
def integer? (radix : Nat) : List Char → Option Int
  | '+' :: digits => (natural? radix digits).bind fun n => bounded? n
  | '-' :: digits => (natural? radix digits).bind fun n => bounded? (-n)
  | digits => (natural? radix digits).bind fun n => bounded? n

/-- A text without the sign before it. -/
def unsigned : List Char → List Char
  | '+' :: rest => rest
  | '-' :: rest => rest
  | text => text

/-- Whether a text is empty or an exponent. -/
def isExponent : List Char → Bool
  | [] => true
  | c :: rest =>
    (c = 'e' || c = 'E') && !(unsigned rest).isEmpty && (unsigned rest).all Char.isDigit

/-- Whether a text is a decimal number: digits with at most one point among, before or behind
them, and at most one exponent. -/
def isDecimal (text : List Char) : Bool :=
  let text := unsigned text
  let whole := text.takeWhile Char.isDigit
  match text.dropWhile Char.isDigit with
  | '.' :: rest =>
    let fraction := rest.takeWhile Char.isDigit
    !(whole.isEmpty && fraction.isEmpty) && isExponent (rest.dropWhile Char.isDigit)
  | rest => !whole.isEmpty && isExponent rest

/-- Whether a text is a number with a fraction or an exponent, infinite, or no number at all. -/
def isFloat (text : String) : Bool :=
  [".inf", ".Inf", ".INF", "+.inf", "+.Inf", "+.INF", "-.inf", "-.Inf", "-.INF",
    ".nan", ".NaN", ".NAN"].contains text || isDecimal text.toList

/-- The number that a plain text stands for, if it is an integer: in decimal digits, or behind
`0x` in hexadecimal and behind `0o` in octal ones. -/
def plainInteger? (text : List Char) : Option Int :=
  let marked := match text with
    | '0' :: 'x' :: digits => integer? 16 digits
    | '0' :: 'o' :: digits => integer? 8 digits
    | '+' :: digits => integer? 10 digits
    | _ => none
  marked <|> integer? 10 text

/-- What a plain text stands for. -/
def ofPlain (text : String) : Scalar :=
  if ["~", "null", "NULL"].contains text then .null
  else if text = "true" then .boolean true
  else if text = "false" then .boolean false
  else match plainInteger? text.toList with
    | some n => .integer n
    | none => if isFloat text then .float text else .string text

/-- What a plain text stands for as a value of the type `type`. -/
def ofTyped? (type text : String) : Option Scalar :=
  match type with
  | "bool" =>
    if text = "true" then some (.boolean true)
    else if text = "false" then some (.boolean false)
    else none
  | "int" => (integer? 10 text.toList).map .integer
  | "float" => if isFloat text then some (.float text) else none
  | "null" => if text = "~" || text = "null" then some .null else none
  | "str" => some (.string text)
  | _ => none

end Scalar

end TreeWatch.Yaml

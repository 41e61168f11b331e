import TreeWatch.Text.Quoted
import TreeWatch.Yaml.Node

/-!
# YAML nodes in messages

Writes a value the way messages show it.

## Main definitions

- `Scalar.describe`, `Node.describe` : the written form
-/

namespace TreeWatch.Yaml

namespace Scalar

/-- Digits without the zeros at their end. -/
def dropZeros (digits : List Char) : List Char :=
  (digits.reverse.dropWhile (· = '0')).reverse

/-- A decimal number without a sign, as shortly as it can be written. Numbers from a ten-thousandth
to below ten million billions have a point, all others an exponent. -/
def describeDecimal (text : List Char) : String :=
  let whole := text.takeWhile Char.isDigit
  let rest := text.dropWhile Char.isDigit
  let fraction := if rest.head? = some '.' then (rest.drop 1).takeWhile Char.isDigit else []
  let exponent := ((rest.dropWhile fun c => c = '.' || c.isDigit).drop 1)
  let exponent : Int := (integer? 10 exponent).getD 0
  let zeros := ((whole ++ fraction).takeWhile (· = '0')).length
  let digits := dropZeros ((whole ++ fraction).drop zeros)
  -- The number is 0.digits times ten to the power `point`.
  let point : Int := whole.length - zeros + exponent
  if digits.isEmpty then "0.0"
  else if -3 ≤ point ∧ point ≤ 0 then
    "0." ++ String.ofList (List.replicate (-point).toNat '0' ++ digits)
  else if 0 < point ∧ point ≤ 16 then
    let n := point.toNat
    let before := digits.take n ++ List.replicate (n - digits.length) '0'
    let after := digits.drop n
    String.ofList before ++ "." ++ (if after.isEmpty then "0" else String.ofList after)
  else
    let after := digits.drop 1
    String.ofList (digits.take 1) ++ (if after.isEmpty then "" else "." ++ String.ofList after) ++
      "e" ++ toString (point - 1)

/-- A number with a fraction or an exponent. -/
def describeFloat (text : String) : String :=
  let sign := if text.toList.head? = some '-' then "-" else ""
  let rest := unsigned text.toList
  match rest.drop 1 with
  | 'i' :: _ | 'I' :: _ => sign ++ "inf"
  | 'n' :: _ | 'N' :: _ => "NaN"
  | _ => sign ++ describeDecimal rest

/-- A scalar as messages show it. -/
def describe : Scalar → String
  | .null => "Null"
  | .boolean b => s!"Boolean({b})"
  | .integer n => s!"Integer({n})"
  | .float text => s!"FloatingPoint({describeFloat text})"
  | .string text => s!"String({Text.Quoted.quoteText text})"

end Scalar

/-- A tag as messages show it. -/
def Tag.describe (t : Tag) : String :=
  "Tag \x7b handle: " ++ Text.Quoted.quoteText t.handle ++ ", suffix: " ++
    Text.Quoted.quoteText t.suffix ++ " \x7d"

namespace Node

mutual

/-- A value as messages show it. -/
def describe : Node → String
  | .scalar s => "Value(" ++ s.describe ++ ")"
  | .sequence items => "Sequence([" ++ ", ".intercalate (describeItems items) ++ "])"
  | .mapping pairs => "Mapping(\x7b" ++ ", ".intercalate (describePairs pairs) ++ "\x7d)"
  | .tagged t n => "Tagged(" ++ t.describe ++ ", " ++ describe n ++ ")"
  | .invalid => "BadValue"

/-- The elements of a sequence as messages show them. -/
def describeItems : List Node → List String
  | [] => []
  | n :: rest => describe n :: describeItems rest

/-- The pairs of a mapping as messages show them. -/
def describePairs : List (Node × Node) → List String
  | [] => []
  | (k, v) :: rest => (describe k ++ ": " ++ describe v) :: describePairs rest

end

end Node

end TreeWatch.Yaml

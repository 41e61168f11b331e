import TreeWatch.Map.Ordered
import TreeWatch.Yaml.Scalar
import TreeWatch.Yaml.Tag

/-!
# YAML nodes

The values that a YAML document is made of.

## Main definitions

- `Node` : a value
- `Node.ofScalar` : the value of a scalar with its tag
- `Node.ofEntries` : the mapping of keys and values in turn
- `Node.tagWith` : a value with a tag
-/

namespace TreeWatch.Yaml

/-- A value. -/
inductive Node where
  | scalar (s : Scalar)
  | sequence (items : List Node)
  /-- Keys with their values; no key occurs twice. -/
  | mapping (pairs : List (Node × Node))
  /-- A value of a type of its own. -/
  | tagged (t : Tag) (n : Node)
  /-- A scalar that is not of the type its tag asks for, or a name for a value within that
  value. -/
  | invalid

namespace Node

mutual

/-- Whether two values are the same. -/
def same : Node → Node → Bool
  | .scalar s, .scalar t => s = t
  | .sequence xs, .sequence ys => sameItems xs ys
  | .mapping xs, .mapping ys => samePairs xs ys
  | .tagged s m, .tagged t n => s = t && same m n
  | .invalid, .invalid => true
  | _, _ => false

/-- Whether two lists hold the same values. -/
def sameItems : List Node → List Node → Bool
  | [], [] => true
  | x :: xs, y :: ys => same x y && sameItems xs ys
  | _, _ => false

/-- Whether two lists hold the same keys and values. -/
def samePairs : List (Node × Node) → List (Node × Node) → Bool
  | [], [] => true
  | (k, x) :: xs, (l, y) :: ys => same k l && same x y && samePairs xs ys
  | _, _ => false

end

/-- Whether the value is of no use. -/
def isInvalid : Node → Bool
  | .invalid => true
  | _ => false

/-- Pairs with a pair put in at their end; an older pair with its key is taken away. -/
def putPair (pairs : List (Node × Node)) (key value : Node) : List (Node × Node) :=
  pairs.filter (fun p => !same p.1 key) ++ [(key, value)]

/-- Puts in keys and values in turn, where `key` is a key whose value comes next. An invalid value
in the place of a key is passed over, so that what comes behind it is the key. -/
def putEntries (pairs : List (Node × Node)) (key : Option Node) :
    List Node → List (Node × Node)
  | [] => pairs
  | n :: rest =>
    match key with
    | some k => putEntries (putPair pairs k n) none rest
    | none => putEntries pairs (if n.isInvalid then none else some n) rest

/-- The mapping of keys and values in turn. -/
def ofEntries (entries : List Node) : Node :=
  .mapping (putEntries [] none entries)

/-- A value with a tag. The types that every reader knows have been taken care of. -/
def tagWith (n : Node) : Option Tag → Node
  | none => n
  | some t => if t.isCore then n else .tagged t n

/-- The value of a scalar with its tag. Only a plain text can be something else than a text. -/
def ofScalar (plain : Bool) (text : String) (t : Option Tag) : Node :=
  match plain, t with
  | false, _ => (Node.scalar (.string text)).tagWith t
  | true, none => .scalar (.ofPlain text)
  | true, some t =>
    if t.isCore then
      match Scalar.ofTyped? t.suffix text with
      | some s => .scalar s
      | none => .invalid
    else .tagged t (.scalar (.string text))

end Node

end TreeWatch.Yaml

import TreeWatch.Store.Checksum

/-!
# Frames

The file of the store is a sequence of Zstandard frames. A frame says how it is laid out and then
holds blocks. Blocks that hold their bytes as they are, or one byte repeated, can be read here;
compressed ones cannot.

## Main definitions

- `Frame.Layout` : what the head of a frame says
- `Frame.contents?` : what the frames of a file hold
-/

namespace TreeWatch.Frame

/-- The first bytes of a frame. -/
def magic : Bytes := [0x28, 0xB5, 0x2F, 0xFD]

/-- The greatest size of a block. -/
def maxBlock : Nat := 128 * 1024

/-- The greatest distance over which a frame may look back. -/
def maxWindow : Nat := 0x8000001

/-- Splits off as many bytes as asked for. -/
def take? (n : Nat) (bytes : Bytes) : Option (Bytes × Bytes) :=
  let front := bytes.take n
  if front.length = n then some (front, bytes.drop n) else none

/-- Reads a number of as many bytes as asked for. -/
def number? (n : Nat) (bytes : Bytes) : Option (Nat × Bytes) :=
  (take? n bytes).map fun p => (Bytes.ofLittleEndian p.1, p.2)

/-- What the head of a frame says. -/
structure Layout where
  /-- How far back the frame looks. -/
  window : Nat
  /-- How many bytes the frame holds, if it says so. -/
  size : Option Nat
  /-- Whether a checksum follows the blocks. -/
  checked : Bool

/-- The window that a byte describes. -/
def windowOf (b : Nat) : Nat :=
  let base := 1 <<< (b / 8 + 10)
  base + base / 8 * (b % 8)

/-- Reads the head of a frame behind the first bytes. A frame that needs a dictionary is refused. -/
def layout? (bytes : Bytes) : Option (Layout × Bytes) := do
  let (head, rest) ← number? 1 bytes
  let whole := head / 32 % 2 = 1
  if head / 8 % 2 = 1 then none
  let (described, rest) ← if whole then some (0, rest) else number? 1 rest
  let dictionaryWidth := match head % 4 with
    | 0 => 0
    | 1 => 1
    | 2 => 2
    | _ => 4
  let (dictionary, rest) ← number? dictionaryWidth rest
  if dictionary ≠ 0 then none
  let (size, rest) ← match head / 64 with
    | 0 => if whole then (number? 1 rest).map fun p => (some p.1, p.2) else some (none, rest)
    | 1 => (number? 2 rest).map fun p => (some (p.1 + 256), p.2)
    | 2 => (number? 4 rest).map fun p => (some p.1, p.2)
    | _ => (number? 8 rest).map fun p => (some p.1, p.2)
  let window := if whole then size.getD 0 else windowOf described
  if window > maxWindow then none
  some (⟨window, size, head / 4 % 2 = 1⟩, rest)

/-- Reads blocks until the last one; gives what they hold. Every block takes bytes, so there are
fewer blocks than bytes. -/
def blocks? (limit : Nat) : (fuel : Nat) → Bytes → Option (Bytes × Bytes)
  | 0, _ => none
  | fuel + 1, bytes => do
    let (head, rest) ← number? 3 bytes
    let size := head / 8
    if size > limit then none
    let (content, rest) ← match head / 2 % 4 with
      | 0 => take? size rest
      | 1 => (take? 1 rest).map fun p => (p.1.flatMap fun b => List.replicate size b, p.2)
      | _ => none
    if head % 2 = 1 then some (content, rest)
    else do
      let (others, rest) ← blocks? limit fuel rest
      some (content ++ others, rest)

/-- Reads a frame behind its first bytes; gives what it holds. -/
def frame? (bytes : Bytes) : Option (Bytes × Bytes) := do
  let (layout, rest) ← layout? bytes
  let (content, rest) ← blocks? (min layout.window maxBlock) (rest.length + 1) rest
  if layout.size.any (· ≠ content.length) then none
  if layout.checked then
    let (sum, rest) ← number? 4 rest
    if sum = (Checksum.hash content).toNat % 0x100000000 then some (content, rest) else none
  else some (content, rest)

/-- Whether the bytes begin a frame that is to be passed over. -/
def beginsSkippable (head : Bytes) : Bool :=
  match head with
  | [b, 0x2A, 0x4D, 0x18] => b.toNat / 16 = 5
  | _ => false

/-- Reads frames until the end; gives what they hold. Every frame takes bytes, so there are fewer
frames than bytes. -/
def frames? : (fuel : Nat) → Bytes → Option Bytes
  | 0, _ => none
  | _ + 1, [] => some []
  | fuel + 1, bytes => do
    let (head, rest) ← take? 4 bytes
    if head = magic then
      let (content, rest) ← frame? rest
      (frames? fuel rest).map (content ++ ·)
    else if beginsSkippable head then
      let (size, rest) ← number? 4 rest
      let (_, rest) ← take? size rest
      frames? fuel rest
    else none

/-- What the frames of a file hold; nothing if it is no sequence of frames. -/
def contents? (bytes : Bytes) : Option Bytes :=
  frames? (bytes.length + 1) bytes

end TreeWatch.Frame

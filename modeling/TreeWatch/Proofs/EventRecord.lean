import Mathlib
import TreeWatch.EventRecord

/-!
# Reading event records

A buffer can be read if it consists of blocks that are as long as they say, with less than a head behind the
last one. Otherwise reading stops at the first block that is not.

## Main definitions

- `EventRecord.IsBlock` : bytes that are as long as they say
- `EventRecord.Heads` : a block begins with the fields of a record
- `EventRecord.walk?` : reading by places in the buffer, each of them checked

## Main results

- `EventRecord.parseFrom_flatten` : reading goes through blocks one by one
- `EventRecord.walk?_eq` : no place outside of the buffer is read
- `EventRecord.read_exact` : what is read, and where reading stops
-/

namespace TreeWatch

namespace Bytes

/-- Writing down a number that was read gives its bytes back. -/
theorem littleEndian_ofLittleEndian (bytes : Bytes) :
    littleEndian bytes.length (ofLittleEndian bytes) = bytes := by
  induction bytes with
  | nil => rfl
  | cons b rest ih =>
    have hb : b.toNat < 256 := b.toNat_lt
    have hlow : (b.toNat + 256 * ofLittleEndian rest) % 256 = b.toNat := by omega
    have hhigh : (b.toNat + 256 * ofLittleEndian rest) / 256 = ofLittleEndian rest := by omega
    rw [List.length_cons, ofLittleEndian, littleEndian, hlow, hhigh, ih, UInt8.ofNat_toNat]

theorem ofLittleEndian_lt (bytes : Bytes) : ofLittleEndian bytes < 256 ^ bytes.length := by
  induction bytes with
  | nil => exact Nat.one_pos
  | cons b rest ih =>
    have hb : b.toNat < 256 := b.toNat_lt
    rw [ofLittleEndian, List.length_cons, Nat.pow_succ]
    omega

/-- Bytes are those of a number just when they read as that number. -/
theorem eq_littleEndian_iff {bytes : Bytes} {n : Nat} (h : n < 256 ^ bytes.length) :
    bytes = littleEndian bytes.length n ↔ ofLittleEndian bytes = n := by
  constructor
  · intro heq
    rw [heq, ofLittleEndian_littleEndian]
    exact Nat.mod_eq_of_lt h
  · rintro rfl
    exact (littleEndian_ofLittleEndian bytes).symm

end Bytes

namespace EventRecord

variable {r : EventRecord} {block rest bytes buffer : Bytes} {blocks : List Bytes} {offset : Nat}

/-! ### Blocks -/

/-- The bytes are at least as long as a head, and just as long as they say. -/
structure IsBlock (block : Bytes) : Prop where
  headSize_le : headSize ≤ block.length
  length_eq : claimedLength block = block.length

/-- The head of the block holds the fields of the record. What else is in the block does not matter. -/
structure Heads (r : EventRecord) (block : Bytes) : Prop where
  version : (block.drop 4).take 1 = [r.version]
  mask : (block.drop 8).take 8 = Bytes.littleEndian 8 r.mask.toNat
  fd : (block.drop 16).take 4 = Bytes.littleEndian 4 r.fd.toUInt32.toNat

/-- The buffer is made of blocks and of what is left behind them. -/
structure Splits (buffer : Bytes) (blocks : List Bytes) (rest : Bytes) : Prop where
  eq : buffer = blocks.flatten ++ rest
  isBlock : ∀ block ∈ blocks, IsBlock block

/-- The length that the bytes claim is that of a block at their front. -/
def Claims (bytes : Bytes) : Prop :=
  headSize ≤ claimedLength bytes ∧ claimedLength bytes ≤ bytes.length

theorem field_append {start width : Nat} (h : start + width ≤ block.length) :
    field start width (block ++ rest) = field start width block := by
  rw [field, field, List.drop_append_of_le_length (by omega),
    List.take_append_of_le_length (by rw [List.length_drop]; omega)]

theorem field_take {start width n : Nat} (h : start + width ≤ n) :
    field start width (bytes.take n) = field start width bytes := by
  rw [field, field, List.drop_take, List.take_take, Nat.min_eq_left (by omega)]

theorem claimedLength_append (h : headSize ≤ block.length) :
    claimedLength (block ++ rest) = claimedLength block :=
  field_append (by simp only [headSize] at h; omega)

theorem ofHead_append (h : headSize ≤ block.length) : ofHead (block ++ rest) = ofHead block := by
  simp only [headSize] at h
  simp only [ofHead, field_append (show 4 + 1 ≤ block.length by omega),
    field_append (show 8 + 8 ≤ block.length by omega),
    field_append (show 16 + 4 ≤ block.length by omega)]

/-- A field reads as a number just when its bytes are those of the number. -/
theorem bytes_eq_iff {start width n : Nat} (h : start + width ≤ block.length) (hn : n < 256 ^ width) :
    (block.drop start).take width = Bytes.littleEndian width n ↔ field start width block = n := by
  have hlength : ((block.drop start).take width).length = width := by
    rw [List.length_take, List.length_drop]
    omega
  have hn' : n < 256 ^ ((block.drop start).take width).length := hlength.symm ▸ hn
  have hiff := Bytes.eq_littleEndian_iff hn'
  rwa [hlength] at hiff

theorem field_lt {start width : Nat} (h : start + width ≤ block.length) :
    field start width block < 256 ^ width := by
  have hlength : ((block.drop start).take width).length = width := by
    rw [List.length_take, List.length_drop]
    omega
  exact Nat.lt_of_lt_of_eq (Bytes.ofLittleEndian_lt _) (congrArg _ hlength)

/-- The record of a block is the only one whose fields its head holds. -/
theorem heads_iff (h : headSize ≤ block.length) : Heads r block ↔ ofHead block = r := by
  simp only [headSize] at h
  have hversion : (block.drop 4).take 1 = [r.version] ↔ UInt8.ofNat (field 4 1 block) = r.version := by
    have hone : [r.version] = Bytes.littleEndian 1 r.version.toNat := by
      simp [Bytes.littleEndian, Nat.mod_eq_of_lt r.version.toNat_lt]
    have hlt : field 4 1 block < 2 ^ 8 := field_lt (by omega)
    rw [hone, bytes_eq_iff (by omega) r.version.toNat_lt, ← UInt8.toNat_inj, UInt8.toNat_ofNat',
      Nat.mod_eq_of_lt hlt]
  have hmask : (block.drop 8).take 8 = Bytes.littleEndian 8 r.mask.toNat ↔
      UInt64.ofNat (field 8 8 block) = r.mask := by
    have hlt : field 8 8 block < 2 ^ 64 := field_lt (by omega)
    rw [bytes_eq_iff (by omega) r.mask.toNat_lt, ← UInt64.toNat_inj, UInt64.toNat_ofNat',
      Nat.mod_eq_of_lt hlt]
  have hfd : (block.drop 16).take 4 = Bytes.littleEndian 4 r.fd.toUInt32.toNat ↔
      (UInt32.ofNat (field 16 4 block)).toInt32 = r.fd := by
    have hlt : field 16 4 block < 2 ^ 32 := field_lt (by omega)
    have hsigned : ∀ n : UInt32, n.toInt32 = r.fd ↔ n = r.fd.toUInt32 := fun n =>
      ⟨fun heq => by rw [← heq, UInt32.toUInt32_toInt32], fun heq => by rw [heq, Int32.toInt32_toUInt32]⟩
    rw [bytes_eq_iff (by omega) r.fd.toUInt32.toNat_lt, hsigned, ← UInt32.toNat_inj,
      UInt32.toNat_ofNat', Nat.mod_eq_of_lt hlt]
  constructor
  · rintro ⟨h₁, h₂, h₃⟩
    rw [ofHead, hversion.1 h₁, hmask.1 h₂, hfd.1 h₃]
  · rintro rfl
    exact ⟨hversion.2 rfl, hmask.2 rfl, hfd.2 rfl⟩

/-! ### Records as they are delivered -/

theorem length_encode (padding : Bytes) (unread : Unread) :
    (r.encode padding unread).length = headSize + padding.length := by
  simp [encode, headSize]
  omega

/-- A record is delivered as a block, if the block is not too long to say how long it is. -/
theorem isBlock_encode {padding : Bytes} (unread : Unread) (h : headSize + padding.length < UInt32.size) :
    IsBlock (r.encode padding unread) := by
  refine ⟨by rw [length_encode]; exact Nat.le_add_right _ _, ?_⟩
  have hfront : (r.encode padding unread).take 4 =
      Bytes.littleEndian 4 (headSize + padding.length) := by
    simp [encode]
  rw [claimedLength, field, List.drop_zero, hfront, Bytes.ofLittleEndian_littleEndian, length_encode]
  exact Nat.mod_eq_of_lt h

theorem heads_encode (padding : Bytes) (unread : Unread) : Heads r (r.encode padding unread) := by
  constructor <;> simp [encode, Bytes.littleEndian]

/-! ### Reading on -/

theorem parseFrom_of_short (h : bytes.length < headSize) :
    parseFrom offset bytes = .ok ([], bytes.length) := by
  rw [parseFrom, if_pos h]

theorem parseFrom_of_not_claims (hlong : headSize ≤ bytes.length) (h : ¬Claims bytes) :
    parseFrom offset bytes = .error (.truncated offset (claimedLength bytes) bytes.length) := by
  rw [parseFrom, if_neg (Nat.not_lt.2 hlong)]
  exact dif_neg h

theorem parseFrom_of_claims (h : Claims bytes) :
    parseFrom offset bytes = (parseFrom (offset + claimedLength bytes)
      (bytes.drop (claimedLength bytes))).map fun p => (ofHead bytes :: p.1, p.2) := by
  rw [parseFrom, if_neg (Nat.not_lt.2 (Nat.le_trans h.1 h.2))]
  simp only [Claims] at h
  rw [dif_pos h]
  cases parseFrom (offset + claimedLength bytes) (bytes.drop (claimedLength bytes)) <;> rfl

theorem parseFrom_block_append (h : IsBlock block) :
    parseFrom offset (block ++ rest) =
      (parseFrom (offset + block.length) rest).map fun p => (ofHead block :: p.1, p.2) := by
  have hclaimed : claimedLength (block ++ rest) = block.length := by
    rw [claimedLength_append h.headSize_le, h.length_eq]
  have hclaims : Claims (block ++ rest) := by
    rw [Claims, hclaimed, List.length_append]
    exact ⟨h.headSize_le, Nat.le_add_right _ _⟩
  rw [parseFrom_of_claims hclaims, hclaimed, List.drop_left, ofHead_append h.headSize_le]

/-- Blocks are read one by one. -/
theorem parseFrom_flatten (h : ∀ block ∈ blocks, IsBlock block) :
    parseFrom offset (blocks.flatten ++ rest) =
      (parseFrom (offset + blocks.flatten.length) rest).map fun p =>
        (blocks.map ofHead ++ p.1, p.2) := by
  induction blocks generalizing offset with
  | nil =>
    rw [List.flatten_nil, List.nil_append, List.length_nil, Nat.add_zero]
    cases parseFrom offset rest <;> rfl
  | cons block later ih =>
    rw [List.flatten_cons, List.append_assoc, parseFrom_block_append (h block List.mem_cons_self),
      ih fun b hb => h b (List.mem_cons_of_mem block hb), List.length_append, Nat.add_assoc]
    cases parseFrom (offset + (block.length + later.flatten.length)) rest <;> rfl

/-- What claims a length that it has begins with a block. -/
theorem Claims.splits (h : Claims bytes) : Splits bytes [bytes.take (claimedLength bytes)]
    (bytes.drop (claimedLength bytes)) := by
  have hlength : (bytes.take (claimedLength bytes)).length = claimedLength bytes :=
    List.length_take_of_le h.2
  refine ⟨by simp, fun block hblock => ?_⟩
  rw [List.mem_singleton.1 hblock]
  refine ⟨hlength.symm ▸ h.1, ?_⟩
  rw [hlength]
  exact field_take (Nat.le_trans (by decide) h.1)

/-- Behind the last block there is less than a head, or a length that does not fit. -/
theorem exists_splits (buffer : Bytes) :
    ∃ blocks rest, Splits buffer blocks rest ∧ (headSize ≤ rest.length → ¬Claims rest) := by
  induction hn : buffer.length using Nat.strongRecOn generalizing buffer with
  | ind n ih =>
    by_cases hfirst : headSize ≤ buffer.length ∧ Claims buffer
    · obtain ⟨hlong, hclaims⟩ := hfirst
      have hsplit := hclaims.splits
      have hshorter : (buffer.drop (claimedLength buffer)).length < n := by
        have hpos := hclaims.1
        rw [List.length_drop, ← hn]
        simp only [headSize] at hpos hlong
        omega
      obtain ⟨blocks, rest, hrest, hlast⟩ := ih _ hshorter _ rfl
      refine ⟨buffer.take (claimedLength buffer) :: blocks, rest, ⟨?_, ?_⟩, hlast⟩
      · rw [List.flatten_cons, List.append_assoc, ← hrest.eq, List.take_append_drop]
      · exact List.forall_mem_cons.2 ⟨hsplit.isBlock _ (List.mem_singleton_self _), hrest.isBlock⟩
    · exact ⟨[], buffer, ⟨rfl, by simp⟩, fun hlong hclaims => hfirst ⟨hlong, hclaims⟩⟩

/-- The records in whose fields the heads of blocks hold are those of the blocks. -/
theorem forall₂_heads_iff {records : List EventRecord} (h : ∀ block ∈ blocks, IsBlock block) :
    List.Forall₂ Heads records blocks ↔ records = blocks.map ofHead := by
  induction blocks generalizing records with
  | nil => simp
  | cons block later ih =>
    obtain ⟨hfirst, hlater⟩ := List.forall_mem_cons.1 h
    cases records with
    | nil => simp
    | cons r records =>
      rw [List.forall₂_cons, heads_iff hfirst.headSize_le, ih hlater, List.map_cons, List.cons.injEq,
        eq_comm]

theorem parse_of_splits (h : Splits buffer blocks rest) (hshort : rest.length < headSize) :
    parse buffer = .ok (blocks.map ofHead, rest.length) := by
  rw [parse, h.eq, parseFrom_flatten h.isBlock, parseFrom_of_short hshort]
  simp [Except.map]

theorem parse_of_not_claims (h : Splits buffer blocks rest) (hlong : headSize ≤ rest.length)
    (hbad : ¬Claims rest) :
    parse buffer = .error (.truncated blocks.flatten.length (claimedLength rest) rest.length) := by
  rw [parse, h.eq, parseFrom_flatten h.isBlock, parseFrom_of_not_claims hlong hbad, Nat.zero_add]
  rfl

/-- There are records to be read just where the buffer is made of blocks, but for less than a head. -/
theorem parse_eq_ok_iff {records : List EventRecord} {trailing : Nat} :
    parse buffer = .ok (records, trailing) ↔ ∃ blocks tail, Splits buffer blocks tail ∧
      List.Forall₂ Heads records blocks ∧ tail.length < headSize ∧ trailing = tail.length := by
  constructor
  · intro hparse
    obtain ⟨blocks, rest, hsplits, hlast⟩ := exists_splits buffer
    by_cases hshort : rest.length < headSize
    · rw [parse_of_splits hsplits hshort] at hparse
      cases hparse
      exact ⟨blocks, rest, hsplits, (forall₂_heads_iff hsplits.isBlock).2 rfl, hshort, rfl⟩
    · have hlong := Nat.not_lt.1 hshort
      rw [parse_of_not_claims hsplits hlong (hlast hlong)] at hparse
      cases hparse
  · rintro ⟨blocks, tail, hsplits, hheads, hshort, rfl⟩
    rw [parse_of_splits hsplits hshort, (forall₂_heads_iff hsplits.isBlock).1 hheads]

/-- Otherwise reading stops behind the last of some blocks, at a length that does not fit. -/
theorem parse_eq_error_iff {e : NotificationError} :
    parse buffer = .error e ↔ ∃ blocks rest, Splits buffer blocks rest ∧ headSize ≤ rest.length ∧
      ¬Claims rest ∧ e = .truncated blocks.flatten.length (claimedLength rest) rest.length := by
  constructor
  · intro hparse
    obtain ⟨blocks, rest, hsplits, hlast⟩ := exists_splits buffer
    by_cases hshort : rest.length < headSize
    · rw [parse_of_splits hsplits hshort] at hparse
      cases hparse
    · have hlong := Nat.not_lt.1 hshort
      rw [parse_of_not_claims hsplits hlong (hlast hlong)] at hparse
      cases hparse
      exact ⟨blocks, rest, hsplits, hlong, hlast hlong, rfl⟩
  · rintro ⟨blocks, rest, hsplits, hlong, hbad, rfl⟩
    exact parse_of_not_claims hsplits hlong hbad

/-! ### Reading by places -/

/-- The bytes from one place to another, if the buffer has them all. -/
def slice? (buffer : Bytes) (start stop : Nat) : Option Bytes :=
  if start ≤ stop ∧ stop ≤ buffer.length then some ((buffer.drop start).take (stop - start)) else none

/-- The number in some bytes of a head, if the head has them all. -/
def number? (head : Bytes) (start width : Nat) : Option Nat :=
  (slice? head start (start + width)).map Bytes.ofLittleEndian

/-- The record whose fields are in a head, if the head has them all. -/
def fields? (head : Bytes) : Option EventRecord := do
  let version ← number? head 4 1
  let mask ← number? head 8 8
  let fd ← number? head 16 4
  pure ⟨.ofNat version, .ofNat mask, (UInt32.ofNat fd).toInt32⟩

/-- Reading from a place in the buffer on. There is no result if a place outside of the buffer were read, or
if the place were already behind its end. -/
def walk? (buffer : Bytes) (offset : Nat) :
    Option (Except NotificationError (List EventRecord × Nat)) :=
  if within : offset ≤ buffer.length then
    let available := buffer.length - offset
    if available < headSize then some (.ok ([], available))
    else
      (slice? buffer offset (offset + headSize)).bind fun head =>
        (number? head 0 4).bind fun length =>
          if fits : headSize ≤ length ∧ length ≤ available then
            have : buffer.length - (offset + length) < buffer.length - offset := by
              simp only [headSize, available] at fits
              omega
            (fields? head).bind fun r =>
              (walk? buffer (offset + length)).map fun result =>
                result.map fun p => (r :: p.1, p.2)
          else some (.error (.truncated offset length available))
  else none
termination_by buffer.length - offset
decreasing_by exact this

theorem number?_take {start width : Nat} (hstart : start + width ≤ headSize)
    (hlong : headSize ≤ bytes.length) :
    number? (bytes.take headSize) start width = some (field start width bytes) := by
  have hwithin : start ≤ start + width ∧ start + width ≤ (bytes.take headSize).length := by
    rw [List.length_take_of_le hlong]
    exact ⟨Nat.le_add_right _ _, hstart⟩
  rw [number?, slice?, if_pos hwithin, Nat.add_sub_cancel_left, ← field_take hstart]
  rfl

theorem fields?_take (hlong : headSize ≤ bytes.length) :
    fields? (bytes.take headSize) = some (ofHead bytes) := by
  rw [fields?, number?_take (by decide) hlong, number?_take (by decide) hlong,
    number?_take (by decide) hlong]
  rfl

/-- Reading by places stays within the buffer, and is reading what is left of it. -/
theorem walk?_eq (hwithin : offset ≤ buffer.length) :
    walk? buffer offset = some (parseFrom offset (buffer.drop offset)) := by
  induction hn : buffer.length - offset using Nat.strongRecOn generalizing offset with
  | ind n ih =>
    have havailable : (buffer.drop offset).length = buffer.length - offset := List.length_drop
    rw [walk?, dif_pos hwithin]
    by_cases hshort : buffer.length - offset < headSize
    · rw [parseFrom_of_short (havailable ▸ hshort), havailable]
      exact if_pos hshort
    have hlong : headSize ≤ (buffer.drop offset).length := havailable ▸ Nat.not_lt.1 hshort
    have hhead : slice? buffer offset (offset + headSize) = some ((buffer.drop offset).take headSize) := by
      rw [slice?, if_pos (by omega), Nat.add_sub_cancel_left]
    have hnumber : number? ((buffer.drop offset).take headSize) 0 4 =
        some (claimedLength (buffer.drop offset)) := number?_take (by decide) hlong
    simp only [if_neg hshort, hhead, hnumber, Option.bind_some, fields?_take hlong]
    by_cases hclaims : Claims (buffer.drop offset)
    · have hfits := hclaims
      rw [Claims, havailable] at hfits
      have hnext := ih _ (by have := hfits.1; simp only [headSize] at this; omega)
        (show offset + claimedLength (buffer.drop offset) ≤ buffer.length by omega) rfl
      rw [dif_pos hfits, hnext, parseFrom_of_claims hclaims, List.drop_drop]
      rfl
    · rw [parseFrom_of_not_claims hlong hclaims, havailable]
      rw [Claims, havailable] at hclaims
      exact dif_neg hclaims

/-! ### What is read -/

/-- Records that are delivered one behind the other are read as they were. -/
theorem parse_flatMap_encode {items : List (EventRecord × Bytes × Unread)} {tail : Bytes}
    (hfit : ∀ i ∈ items, headSize + i.2.1.length < UInt32.size) (hshort : tail.length < headSize) :
    parse (items.flatMap (fun i => i.1.encode i.2.1 i.2.2) ++ tail) =
      .ok (items.map Prod.fst, tail.length) := by
  refine parse_eq_ok_iff.2 ⟨items.map fun i => i.1.encode i.2.1 i.2.2, tail, ⟨?_, ?_⟩, ?_, hshort, rfl⟩
  · rw [List.flatMap_def]
  · exact List.forall_mem_map.2 fun i hi => isBlock_encode i.2.2 (hfit i hi)
  · rw [List.forall₂_map_left_iff, List.forall₂_map_right_iff, List.forall₂_same]
    exact fun i _ => heads_encode i.2.1 i.2.2

theorem read_eq_ok_iff {records : List EventRecord} {log : List LogEvent} :
    read buffer = (.ok records, log) ↔
      ∃ trailing, parse buffer = .ok (records, trailing) ∧ log = trailingEvents trailing := by
  cases hparse : parse buffer with
  | ok result => simp [read, hparse, Prod.ext_iff, eq_comm]
  | error e => simp [read, hparse]

theorem read_eq_error_iff {e : NotificationError} {log : List LogEvent} :
    read buffer = (.error e, log) ↔ parse buffer = .error e ∧ log = [] := by
  cases hparse : parse buffer with
  | ok result => simp [read, hparse]
  | error e' => simp [read, hparse, eq_comm]

/-- A buffer is read within its bounds. There are records in it just where it is made of blocks with less than
a head behind them, one for each block and as its head says. Otherwise the error names the place behind some
blocks where the length that is claimed does not fit. Records that are delivered one behind the other, with
whatever padding, are the ones that are read. -/
theorem read_exact (buffer : Bytes) :
    walk? buffer 0 = some (parse buffer) ∧
    (∀ records log, read buffer = (.ok records, log) ↔ ∃ blocks tail, Splits buffer blocks tail ∧
      List.Forall₂ Heads records blocks ∧ tail.length < headSize ∧ log = trailingEvents tail.length) ∧
    (∀ e log, read buffer = (.error e, log) ↔ ∃ blocks rest, Splits buffer blocks rest ∧
      headSize ≤ rest.length ∧ ¬(headSize ≤ claimedLength rest ∧ claimedLength rest ≤ rest.length) ∧
      e = .truncated blocks.flatten.length (claimedLength rest) rest.length ∧ log = []) ∧
    ∀ (items : List (EventRecord × Bytes × Unread)) (tail : Bytes),
      (∀ i ∈ items, headSize + i.2.1.length < UInt32.size) → tail.length < headSize →
      buffer = items.flatMap (fun i => i.1.encode i.2.1 i.2.2) ++ tail →
      read buffer = (.ok (items.map Prod.fst), trailingEvents tail.length) := by
  refine ⟨walk?_eq (Nat.zero_le _), fun records log => ?_, fun e log => ?_, ?_⟩
  · rw [read_eq_ok_iff]
    constructor
    · rintro ⟨trailing, hparse, rfl⟩
      obtain ⟨blocks, tail, hsplits, hheads, hshort, rfl⟩ := parse_eq_ok_iff.1 hparse
      exact ⟨blocks, tail, hsplits, hheads, hshort, rfl⟩
    · rintro ⟨blocks, tail, hsplits, hheads, hshort, rfl⟩
      exact ⟨tail.length, parse_eq_ok_iff.2 ⟨blocks, tail, hsplits, hheads, hshort, rfl⟩, rfl⟩
  · rw [read_eq_error_iff, parse_eq_error_iff]
    constructor
    · rintro ⟨⟨blocks, rest, hsplits, hlong, hbad, rfl⟩, rfl⟩
      exact ⟨blocks, rest, hsplits, hlong, hbad, rfl, rfl⟩
    · rintro ⟨blocks, rest, hsplits, hlong, hbad, rfl, rfl⟩
      exact ⟨⟨blocks, rest, hsplits, hlong, hbad, rfl⟩, rfl⟩
  · rintro items tail hfit hshort rfl
    exact read_eq_ok_iff.2 ⟨tail.length, parse_flatMap_encode hfit hshort, rfl⟩

/-- Two records with padding and three bytes behind them. -/
theorem read_exact_padded :
    read ([(⟨3, 2, 7⟩, [9, 9], {}), (⟨3, 0x4000, -1⟩, [], ⟨1, 5⟩)].flatMap
        (fun i : EventRecord × Bytes × Unread => i.1.encode i.2.1 i.2.2) ++ [1, 2, 3]) =
      (.ok [⟨3, 2, 7⟩, ⟨3, 0x4000, -1⟩], [.trailingBytes 3]) :=
  (read_exact _).2.2.2 _ _ (by decide) (by decide) rfl

end EventRecord

end TreeWatch

import Mathlib.Data.List.Nodup
import Mathlib.Data.List.Perm.Subperm
import Mathlib.Data.Nat.Log
import TreeWatch.Store.Codec

/-!
# Reading back the written form of the store

Every reader takes exactly the bytes that were written, whatever follows them, and gives what was
written. What it gives on any bytes fits into memory, and so can be written and read once more.

## Main definitions

- `Codec.Reads` : a reader takes exactly these bytes
- `Codec.Fits` : rows that memory can hold

## Main results

- `Codec.reads_rows` : rows are read back as they were written
- `Codec.storeOf_eq` : the order of the rows makes no difference
- `Codec.fits_of_decode` : memory can hold what is read
- `Codec.decode_encodeRows` : the written form of a store loses nothing
-/

namespace TreeWatch.Codec

/-- The reader takes exactly these bytes, whatever follows them, and gives `a`. -/
def Reads {α : Type} (read : Reader α) (written : Bytes) (a : α) : Prop :=
  ∀ rest, read (written ++ rest) = .ok (a, rest)

section Failing

variable {ε α β : Type} {x : Except ε α} {f : α → Except ε β} {a : α} {b : β}

@[simp] theorem ok_bind : (Except.ok a >>= f) = f a := rfl

theorem bind_eq_ok : (x >>= f) = .ok b ↔ ∃ a, x = .ok a ∧ f a = .ok b := by
  cases x with
  | error e => exact ⟨nofun, fun ⟨_, h, _⟩ => nomatch h⟩
  | ok a => simp

end Failing

/-! ### Numbers -/

variable {n width : Nat}

theorem reads_take (front : Bytes) : Reads (take front.length) front front := by
  intro rest
  simp [take]

theorem reads_fixed (h : n < Nat.pow 256 width) :
    Reads (fixed width) (Bytes.littleEndian width n) n := by
  intro rest
  have hread := reads_take (Bytes.littleEndian width n) rest
  rw [Bytes.length_littleEndian] at hread
  have hnumber : Bytes.ofLittleEndian (Bytes.littleEndian width n) = n := by
    rw [Bytes.ofLittleEndian_littleEndian, Nat.mod_eq_of_lt h]
  simp only [fixed, hread, ok_bind, hnumber]
  rfl

/-- The width of a number is chosen so that it is read back: the number is kept in one byte up to 250,
and a marker tells of the widths beyond. -/
theorem reads_varint (h : n < 0x10000000000000000) (hwidth : 0x100000000 ≤ n → 8 ≤ width) :
    Reads (readVarint width) (varint n) n := by
  intro rest
  unfold varint
  split_ifs with h1 h2 h4
  · -- the number is its own marker
    have hbyte : (UInt8.ofNat n).toNat = n := by
      rw [UInt8.toNat_ofNat']
      omega
    have hsmall : UInt8.ofNat n < marker16 := by
      rw [UInt8.lt_iff_toNat_lt, hbyte]
      exact h1
    simp only [List.cons_append, List.nil_append, readVarint, if_pos hsmall, hbyte]
  · exact reads_fixed (show n < Nat.pow 256 2 from h2) rest
  · exact reads_fixed (show n < Nat.pow 256 4 from h4) rest
  · have hwide : 8 ≤ width := hwidth (by omega)
    have hread := reads_fixed (show n < Nat.pow 256 8 from h) rest
    simpa [readVarint, marker16, marker32, marker64, hwide] using hread

theorem reads_uint64 (n : UInt64) : Reads (readVarint 8) (varint n.toNat) n.toNat :=
  reads_varint n.toNat_lt fun _ => le_rfl

theorem reads_uint32 (h : n < 0x100000000) : Reads (readVarint 4) (varint n) n :=
  reads_varint (Nat.lt_trans h (by decide)) fun hwide => absurd hwide (Nat.not_le.2 h)

/-- Every length in memory is read back. -/
theorem reads_length (h : n ≤ maxLength) : Reads (readVarint 8) (varint n) n :=
  reads_varint (Nat.lt_of_le_of_lt h (by decide)) fun _ => le_rfl

theorem zigzag_lt (i : Int32) : zigzag i.toInt < 0x100000000 := by
  have hlt := i.toInt_lt
  have hle := i.le_toInt
  unfold zigzag
  split <;> omega

@[simp] theorem unzigzag_zigzag (i : Int) : unzigzag (zigzag i) = i := by
  unfold unzigzag zigzag
  split <;> split <;> omega

theorem stateNumber_lt (state : ScanState) : stateNumber state < 0x100000000 := by
  cases state <;> decide

@[simp] theorem stateOf?_stateNumber (state : ScanState) :
    stateOf? (stateNumber state) = some state := by
  cases state <;> rfl

/-! ### Rows -/

theorem reads_handle {handle : Bytes} (h : handle.length ≤ maxLength) :
    Reads readHandle (varint handle.length ++ handle) handle := by
  intro rest
  rw [readHandle, List.append_assoc, reads_length h, ok_bind]
  show (if handle.length > maxLength then _ else take handle.length (handle ++ rest)) = _
  rw [if_neg (Nat.not_lt.2 h), reads_take]

theorem reads_key {k : StoreKey} (h : k.handle.length ≤ maxLength) :
    Reads readKey (encodeKey k) k := by
  intro rest
  have hhandle := reads_handle h rest
  rw [List.append_assoc] at hhandle
  simp only [encodeKey, readKey, List.append_assoc, reads_uint64 k.ino _,
    reads_uint32 (zigzag_lt k.handleType) _, hhandle, ok_bind, unzigzag_zigzag, Int32.ofInt_toInt,
    UInt64.ofNat_toNat]
  rfl

theorem reads_seconds (t : Seconds) : Reads readSeconds (encodeSeconds t) t := by
  intro rest
  have hbits : t.bits.toNat < Nat.pow 256 8 := t.bits.toNat_lt
  simp only [readSeconds, encodeSeconds, reads_fixed hbits _, ok_bind, UInt64.ofNat_toNat]
  rfl

theorem reads_row (r : StoreRow) : Reads readRow (encodeRow r) r := by
  intro rest
  simp only [encodeRow, readRow, List.append_assoc, reads_uint64 r.fingerprint.size _,
    reads_seconds r.fingerprint.mtime _, reads_seconds r.fingerprint.ctime _,
    reads_uint32 (stateNumber_lt r.state) _, ok_bind, stateOf?_stateNumber, UInt64.ofNat_toNat]
  rfl

theorem reads_pairs {pairs : List (StoreKey × StoreRow)}
    (h : ∀ p ∈ pairs, p.1.handle.length ≤ maxLength) :
    Reads (readPairs pairs.length) (encodePairs pairs) pairs := by
  induction pairs with
  | nil => exact fun rest => rfl
  | cons p pairs ih =>
    intro rest
    have hrest : encodePairs (p :: pairs) = encodeKey p.1 ++ (encodeRow p.2 ++ encodePairs pairs) := by
      simp [encodePairs]
    have hkey := reads_key (h p List.mem_cons_self)
    have hpairs := ih fun q hq => h q (List.mem_cons_of_mem p hq)
    simp only [hrest, List.length_cons, readPairs, List.append_assoc, hkey _, reads_row p.2 _,
      hpairs _, ok_bind]
    rfl

/-! ### What memory can hold -/

/-- Memory can hold the rows: a table of that size and handles of these lengths, as every table that is
in memory has them. -/
structure Fits (pairs : List (StoreKey × StoreRow)) : Prop where
  table : exceedsMemory pairs.length = false
  handles : ∀ p ∈ pairs, p.1.handle.length ≤ maxLength

theorem powerAbove_mono {m : Nat} (h : m ≤ n) : powerAbove m ≤ powerAbove n := by
  unfold powerAbove
  split_ifs with hm hn
  · rfl
  · rw [Nat.one_shiftLeft]
    exact Nat.one_le_two_pow
  · omega
  · rw [Nat.one_shiftLeft, Nat.one_shiftLeft, Nat.log2_eq_log_two, Nat.log2_eq_log_two]
    have hlog : Nat.log 2 (m - 1) ≤ Nat.log 2 (n - 1) := Nat.log_mono_right (by omega)
    exact Nat.pow_le_pow_right (by decide) (by omega)

theorem le_powerAbove (n : Nat) : n ≤ powerAbove n := by
  unfold powerAbove
  split_ifs with h
  · exact h
  · rw [Nat.one_shiftLeft]
    have hlt : n - 1 < 2 ^ ((n - 1).log2 + 1) := Nat.lt_log2_self
    omega

/-- Fewer rows need no more memory. -/
theorem exceedsMemory_mono {m : Nat} (h : m ≤ n) (hn : exceedsMemory n = false) :
    exceedsMemory m = false := by
  have hpower : powerAbove (m * 8 / 7) ≤ powerAbove (n * 8 / 7) := powerAbove_mono (by omega)
  simp only [exceedsMemory, decide_eq_false_iff_not, Nat.not_lt, gt_iff_lt] at hn ⊢
  exact Nat.le_trans (Nat.mul_le_mul_right _ hpower) hn

theorem le_maxLength_of_exceedsMemory (h : exceedsMemory n = false) : n ≤ maxLength := by
  have hpower : n * 8 / 7 ≤ powerAbove (n * 8 / 7) := le_powerAbove _
  simp only [exceedsMemory, decide_eq_false_iff_not, Nat.not_lt, gt_iff_lt] at h
  simp only [rowFootprint] at h
  omega

theorem Fits.perm {pairs pairs' : List (StoreKey × StoreRow)} (h : Fits pairs)
    (hperm : pairs'.Perm pairs) : Fits pairs' where
  table := hperm.length_eq ▸ h.table
  handles p hp := h.handles p (hperm.mem_iff.1 hp)

theorem reads_rows {pairs : List (StoreKey × StoreRow)} (h : Fits pairs) :
    Reads readRows (encodeRows pairs) pairs := by
  intro rest
  have hlength := reads_length (le_maxLength_of_exceedsMemory h.table)
  rw [readRows, encodeRows, List.append_assoc, hlength, ok_bind]
  show (if exceedsMemory pairs.length then _ else readPairs pairs.length (encodePairs pairs ++ rest)) = _
  rw [h.table, if_neg Bool.false_ne_true, reads_pairs h.handles]

section Sound

variable {bytes rest : Bytes}

theorem length_of_readHandle {handle : Bytes} (h : readHandle bytes = .ok (handle, rest)) :
    handle.length ≤ maxLength := by
  obtain ⟨⟨length, more⟩, -, h⟩ := bind_eq_ok.1 h
  dsimp only at h
  split at h
  · nomatch h
  · next hle =>
    dsimp only [take] at h
    split at h
    · next hlength =>
      cases h
      omega
    · nomatch h

theorem length_of_readKey {k : StoreKey} (h : readKey bytes = .ok (k, rest)) :
    k.handle.length ≤ maxLength := by
  obtain ⟨⟨ino, more⟩, -, h⟩ := bind_eq_ok.1 h
  obtain ⟨⟨type, more⟩, -, h⟩ := bind_eq_ok.1 h
  obtain ⟨⟨handle, more⟩, hhandle, h⟩ := bind_eq_ok.1 h
  cases h
  exact length_of_readHandle hhandle

theorem of_readPairs {pairs : List (StoreKey × StoreRow)}
    (h : readPairs n bytes = .ok (pairs, rest)) :
    pairs.length = n ∧ ∀ p ∈ pairs, p.1.handle.length ≤ maxLength := by
  induction n generalizing bytes pairs with
  | zero =>
    cases h
    simp
  | succ n ih =>
    obtain ⟨⟨key, more⟩, hkey, h⟩ := bind_eq_ok.1 h
    obtain ⟨⟨row, more⟩, -, h⟩ := bind_eq_ok.1 h
    obtain ⟨⟨others, more⟩, hothers, h⟩ := bind_eq_ok.1 h
    cases h
    obtain ⟨hlength, hhandles⟩ := ih hothers
    refine ⟨congrArg (· + 1) hlength, fun p hp => ?_⟩
    rcases List.mem_cons.1 hp with rfl | hp
    · exact length_of_readKey hkey
    · exact hhandles p hp

theorem fits_of_readRows {pairs : List (StoreKey × StoreRow)}
    (h : readRows bytes = .ok (pairs, rest)) : Fits pairs := by
  obtain ⟨⟨count, more⟩, -, h⟩ := bind_eq_ok.1 h
  dsimp only at h
  split at h
  · nomatch h
  · next hcount =>
    obtain ⟨hlength, hhandles⟩ := of_readPairs h
    exact ⟨by simpa [hlength] using hcount, hhandles⟩

end Sound

/-! ### Rows in any order -/

variable {pairs : List (StoreKey × StoreRow)} {s : Store}

theorem get?_insertAll (m : SortedMap StoreKey StoreRow) (k : StoreKey) :
    (pairs.foldl (fun m p => m.insert p.1 p.2) m).get? k =
      (Assoc.get? k pairs.reverse).or (m.get? k) := by
  induction pairs generalizing m with
  | nil => rfl
  | cons p pairs ih =>
    rw [List.foldl_cons, ih, SortedMap.get?_insert, List.reverse_cons, Assoc.get?_append,
      Option.or_assoc, Assoc.get?_cons, Assoc.get?_nil]
    by_cases h : p.1 = k
    · simp [h]
    · simp [h, Ne.symm h]

/-- What is in the store was in the list. -/
theorem mem_of_mem_storeOf {p : StoreKey × StoreRow} (h : p ∈ (storeOf pairs).rows.toList) :
    p ∈ pairs := by
  obtain ⟨k, row⟩ := p
  have hget := SortedMap.get?_eq_some_iff.2 h
  rw [storeOf, get?_insertAll, SortedMap.get?_empty, Option.or_none] at hget
  exact List.mem_reverse.1 (Assoc.mem_of_get? hget)

/-- Rows with one key in a list make one row of the store. -/
theorem size_storeOf_le : (storeOf pairs).rows.toList.length ≤ pairs.length := by
  have hdistinct : (storeOf pairs).rows.toList.Nodup := (SortedMap.distinct _).of_map
  exact (List.subperm_of_subset hdistinct fun p hp => mem_of_mem_storeOf hp).length_le

/-- The order of the rows makes no difference. -/
theorem storeOf_eq (h : pairs.Perm s.rows.toList) : storeOf pairs = s := by
  have hkeys : (Assoc.keys pairs.reverse).Nodup :=
    (((List.reverse_perm pairs).trans h).map Prod.fst).nodup_iff.2 s.rows.distinct
  have hmem : ∀ p, p ∈ (storeOf pairs).rows.toList ↔ p ∈ s.rows.toList := by
    rintro ⟨k, row⟩
    rw [← SortedMap.get?_eq_some_iff, storeOf, get?_insertAll, SortedMap.get?_empty, Option.or_none,
      Assoc.get?_eq_some_iff hkeys, List.mem_reverse, h.mem_iff]
  have hperm : (storeOf pairs).rows.toList.Perm s.rows.toList :=
    (List.perm_ext_iff_of_nodup (SortedMap.distinct _).of_map s.rows.distinct.of_map).2 hmem
  show Store.mk _ = s
  cases s
  exact congrArg Store.mk (SortedMap.eq_of_perm hperm)

/-- Memory can hold a store that was read. -/
theorem fits_of_decode {bytes : Bytes} (h : decode bytes = .ok s) : Fits s.rows.toList := by
  cases hrows : readRows bytes with
  | error e =>
    rw [decode, hrows] at h
    nomatch h
  | ok p =>
    rw [decode, hrows] at h
    cases h
    have hfits : Fits p.1 := fits_of_readRows hrows
    exact ⟨exceedsMemory_mono size_storeOf_le hfits.table,
      fun q hq => hfits.handles q (mem_of_mem_storeOf hq)⟩

/-- The written form of the rows of a store, in whatever order they are written, is read to its end,
and the store read is the one written. So it is for every store that memory can hold, and for every
store that was read from some bytes before. -/
theorem decode_encodeRows (hs : Fits s.rows.toList ∨ ∃ bytes, decode bytes = .ok s)
    (hperm : pairs.Perm s.rows.toList) :
    readRows (encodeRows pairs) = .ok (pairs, []) ∧ decode (encodeRows pairs) = .ok s := by
  have hfits : Fits s.rows.toList := hs.elim id fun ⟨bytes, h⟩ => fits_of_decode h
  have hread : readRows (encodeRows pairs) = .ok (pairs, []) := by
    have hread := reads_rows (hfits.perm hperm) []
    rwa [List.append_nil] at hread
  refine ⟨hread, ?_⟩
  rw [decode, hread]
  exact congrArg Except.ok (storeOf_eq hperm)

/-- Rows at the borders of the widths, in the order of their keys: the greatest inode number and the
least type, a handle of no bytes, an infinite and a negative timestamp. -/
def borderRows : List (StoreKey × StoreRow) :=
  [(⟨250, .ofInt (-126), [0, 255]⟩, ⟨⟨65536, ⟨0x7FF0000000000000⟩, ⟨1⟩⟩, .pending⟩),
    (⟨0xFFFFFFFFFFFFFFFF, .ofInt (-0x80000000), []⟩, ⟨⟨251, ⟨0⟩, ⟨0x8000000000000001⟩⟩, .scanned⟩)]

theorem decode_encodeRows_borderRows :
    decode (encodeRows borderRows.reverse) = .ok (storeOf borderRows) ∧
      decode (encodeRows borderRows) = .ok (storeOf borderRows) := by
  have hrows : (storeOf borderRows).rows.toList = borderRows := by decide
  have hback : decode (encodeRows borderRows.reverse) = .ok (storeOf borderRows) :=
    (decode_encodeRows (.inl ⟨by rw [hrows]; decide, by rw [hrows]; decide⟩)
      (by rw [hrows]; exact List.reverse_perm _)).2
  exact ⟨hback, (decode_encodeRows (.inr ⟨_, hback⟩) (by rw [hrows])).2⟩

end TreeWatch.Codec

import Mathlib
import TreeWatch.Text.Utf8

/-!
# ASCII in lossy text

What is no character is replaced when bytes are shown as text. The ASCII bytes are shown all the
same, each as itself, and nothing else is shown as a line end.

## Main definitions

- `Utf8.isAscii`, `Utf8.ascii` : ASCII text, and its bytes
- `Utf8.Partial.Long` : a character begun that is not ASCII

## Main results

- `Utf8.toList_lossy_append_ascii_append` : ASCII text is shown as it is
- `Utf8.count_newline_lossy` : the text has as many line ends as the bytes
-/

namespace TreeWatch.Text.Utf8

/-- The byte that ends lines. -/
def newline : UInt8 := 0x0A

/-- Whether every character of a text is one byte. -/
def isAscii (text : List Char) : Bool :=
  text.all fun c => c.toNat < 0x80

/-- The bytes of a text, each character of which is one byte. -/
def ascii (text : List Char) : Bytes :=
  text.map fun c => UInt8.ofNat c.toNat

/-- Whatever follows, the number of the character is past those of ASCII. -/
structure Partial.Long (p : Partial) : Prop where
  low : 0x80 ≤ p.low.toNat
  code : 0x80 ≤ (p.code * 64 + (p.low.toNat - 0x80)) * 64 ^ p.later

variable {b : UInt8} {p : Partial}

theorem start_of_lt (h : b.toNat < 0x80) : start b = .whole (Char.ofNat b.toNat) := by
  simp [start, h]

theorem start_ne_whole (hb : ¬ b.toNat < 0x80) (c : Char) : start b ≠ .whole c := by
  rw [start, if_neg hb]
  grind

theorem long_of_start (h : start b = .more p) : p.Long := by
  by_cases hascii : b.toNat < 0x80
  · simp [start_of_lt hascii] at h
  have hlt := b.toNat_lt
  simp only [start, hascii, if_false] at h
  split at h
  · cases h
  split at h
  · cases h
    exact ⟨by simp, by simp; omega⟩
  split at h
  · cases h
    constructor <;> dsimp only <;> split <;> simp <;> omega
  split at h
  · cases h
    constructor <;> dsimp only <;> split <;> simp <;> omega
  · cases h

/-- The number read so far, with one more byte. -/
theorem Partial.Long.code_le (h : p.Long) (hb : p.low ≤ b) :
    0x80 ≤ (p.code * 64 + (b.toNat - 0x80)) * 64 ^ p.later := by
  have hle : p.low.toNat ≤ b.toNat := UInt8.le_iff_toNat_le.mp hb
  exact Nat.le_trans h.code (Nat.mul_le_mul_right _ (by omega))

theorem Partial.Long.more {later : Nat} (h : p.Long) (hlater : p.later = later + 1)
    (hb : p.low ≤ b) (seen : Bytes) :
    Partial.Long { seen, code := p.code * 64 + (b.toNat - 0x80), later } := by
  refine ⟨by simp, ?_⟩
  have hcode := h.code_le hb
  rw [hlater, Nat.pow_succ, Nat.mul_comm (64 ^ later), ← Nat.mul_assoc] at hcode
  simpa only [UInt8.reduceToNat, Nat.sub_self, Nat.add_zero] using hcode

/-- A byte that cannot continue the character begun is read as if none had been begun. -/
theorem piecesFrom_some_of_not (h : ¬ (p.low ≤ b ∧ b ≤ p.high)) (rest : Bytes) :
    piecesFrom (some p) (b :: rest) = .malformed p.seen :: piecesFrom none (b :: rest) := by
  simp only [piecesFrom, if_neg h]

theorem piecesFrom_none_ascii (h : b.toNat < 0x80) (rest : Bytes) :
    piecesFrom none (b :: rest) = .char (Char.ofNat b.toNat) :: piecesFrom none rest := by
  simp [piecesFrom, start_of_lt h]

/-- An ASCII byte ends what has been begun before it. -/
theorem piecesFrom_append_cons (hb : b.toNat < 0x80) (rest : Bytes) :
    ∀ (bytes : Bytes) (begun : Option Partial), (∀ p ∈ begun, p.Long) →
      piecesFrom begun (bytes ++ b :: rest)
        = piecesFrom begun bytes ++ .char (Char.ofNat b.toNat) :: piecesFrom none rest
  | [], none, _ => by simp [piecesFrom_none_ascii hb, piecesFrom]
  | [], some p, hlong => by
    have hlow := (hlong p rfl).low
    have hnot : ¬ (p.low ≤ b ∧ b ≤ p.high) := fun h => by
      have := UInt8.le_iff_toNat_le.mp h.1
      omega
    rw [List.nil_append, piecesFrom_some_of_not hnot, piecesFrom_none_ascii hb]
    rfl
  | x :: bytes, none, _ => by
    have ih := piecesFrom_append_cons hb rest bytes
    rw [List.cons_append, piecesFrom, piecesFrom]
    cases hstart : start x with
    | whole c => simp [ih none (by simp)]
    | more p => simp [ih (some p) (by simpa using long_of_start hstart)]
    | bad => simp [ih none (by simp)]
  | x :: bytes, some p, hlong => by
    by_cases hx : p.low ≤ x ∧ x ≤ p.high
    · have ih := piecesFrom_append_cons hb rest bytes
      simp only [List.cons_append, piecesFrom, if_pos hx]
      cases hlater : p.later with
      | zero => simp [ih none (by simp)]
      | succ later =>
        have hmore := (hlong p rfl).more hlater hx.1 (p.seen ++ [x])
        simp [ih (some _) (by simpa using hmore)]
    · have ih := piecesFrom_append_cons hb rest (x :: bytes) none (by simp)
      rw [List.cons_append, piecesFrom_some_of_not hx, piecesFrom_some_of_not hx,
        ← List.cons_append, ih, List.cons_append]
termination_by bytes begun => (bytes.length, begun.isSome.toNat)

/-- Lossy text is cut at each ASCII byte. -/
theorem toList_lossy_append_cons (hb : b.toNat < 0x80) (bytes rest : Bytes) :
    (lossy (bytes ++ b :: rest)).toList
      = (lossy bytes).toList ++ Char.ofNat b.toNat :: (lossy rest).toList := by
  simp [lossy, pieces, piecesFrom_append_cons hb, Piece.shown]

theorem toNat_ofNat_toNat {c : Char} (h : c.toNat < 0x80) : (UInt8.ofNat c.toNat).toNat = c.toNat := by
  rw [UInt8.toNat_ofNat']
  omega

theorem isAscii_cons {c : Char} {text : List Char} (h : isAscii (c :: text)) :
    c.toNat < 0x80 ∧ isAscii text := by
  simpa [isAscii] using h

theorem toList_lossy_ascii_append {text : List Char} (h : isAscii text) (rest : Bytes) :
    (lossy (ascii text ++ rest)).toList = text ++ (lossy rest).toList := by
  induction text with
  | nil => rfl
  | cons c text ih =>
    obtain ⟨hlt, htext⟩ := isAscii_cons h
    have hc := toNat_ofNat_toNat hlt
    have hcut := toList_lossy_append_cons (hc ▸ hlt) [] (ascii text ++ rest)
    rw [hc, Char.ofNat_toNat, ih htext] at hcut
    exact hcut

/-- ASCII text stands in lossy text as it is, whatever the bytes around it are. -/
theorem toList_lossy_append_ascii_append {text : List Char} (h : isAscii text) (hne : text ≠ [])
    (bytes rest : Bytes) :
    (lossy (bytes ++ ascii text ++ rest)).toList
      = (lossy bytes).toList ++ text ++ (lossy rest).toList := by
  obtain ⟨c, text, rfl⟩ := List.exists_cons_of_ne_nil hne
  obtain ⟨hlt, htext⟩ := isAscii_cons h
  have hc := toNat_ofNat_toNat hlt
  have hcut := toList_lossy_append_cons (hc ▸ hlt) bytes (ascii text ++ rest)
  rw [hc, Char.ofNat_toNat, toList_lossy_ascii_append htext] at hcut
  simpa [ascii] using hcut

theorem eq_newline_of_ofNat {n : Nat} (h : Char.ofNat n = '\n') : n = newline.toNat := by
  have hnat := Char.toNat_ofNat n
  rw [h] at hnat
  split at hnat
  · exact hnat.symm
  · exact absurd hnat (by decide)

/-- Bytes are shown as a line end only where they end a line. -/
theorem ofNat_eq_newline_iff (b : UInt8) : Char.ofNat b.toNat = '\n' ↔ b = newline := by
  refine ⟨fun h => UInt8.toNat_inj.mp (eq_newline_of_ofNat h), ?_⟩
  rintro rfl
  rfl

/-- No character that takes more than one byte is a line end. -/
theorem Partial.Long.ofNat_ne_newline (h : p.Long) (hlater : p.later = 0) (hb : p.low ≤ b) :
    Char.ofNat (p.code * 64 + (b.toNat - 0x80)) ≠ '\n' := fun heq => by
  have hcode := h.code_le hb
  rw [hlater, Nat.pow_zero, Nat.mul_one, eq_newline_of_ofNat heq] at hcode
  exact absurd hcode (by decide)

/-- Each line end that is shown was a byte that ends lines, and the other way round. -/
theorem count_piecesFrom :
    ∀ (bytes : Bytes) (begun : Option Partial), (∀ p ∈ begun, p.Long) →
      ((piecesFrom begun bytes).map Piece.shown).count '\n' = bytes.count newline
  | [], none, _ => by simp [piecesFrom]
  | [], some p, _ => by simp [piecesFrom, Piece.shown]
  | x :: bytes, none, _ => by
    have ih := count_piecesFrom bytes
    by_cases hx : x.toNat < 0x80
    · simp [piecesFrom_none_ascii hx, Piece.shown, List.count_cons, ih none (by simp),
        ofNat_eq_newline_iff]
    have hne : x ≠ newline := by
      rintro rfl
      exact hx (by decide)
    rw [piecesFrom, List.count_cons_of_ne hne]
    cases hstart : start x with
    | whole c => exact absurd hstart (start_ne_whole hx c)
    | more p => exact ih (some p) (by simpa using long_of_start hstart)
    | bad => simp [Piece.shown, ih none (by simp)]
  | x :: bytes, some p, hlong => by
    have hp := hlong p rfl
    by_cases hx : p.low ≤ x ∧ x ≤ p.high
    · have ih := count_piecesFrom bytes
      have hne : x ≠ newline := by
        rintro rfl
        have := Nat.le_trans hp.low (UInt8.le_iff_toNat_le.mp hx.1)
        exact absurd this (by decide)
      rw [List.count_cons_of_ne hne, piecesFrom, if_pos hx]
      cases hlater : p.later with
      | zero =>
        have hchar := hp.ofNat_ne_newline hlater hx.1
        simp [Piece.shown, hchar, ih none (by simp)]
      | succ later =>
        exact ih (some _) (by simpa using hp.more hlater hx.1 (p.seen ++ [x]))
    · have ih := count_piecesFrom (x :: bytes) none (by simp)
      rw [piecesFrom_some_of_not hx]
      simp [Piece.shown, List.count_cons, ih]
termination_by bytes begun => (bytes.length, begun.isSome.toNat)

/-- Lossy text has as many line ends as the bytes. -/
theorem count_newline_lossy (bytes : Bytes) :
    (lossy bytes).toList.count '\n' = bytes.count newline := by
  simpa [lossy, pieces] using count_piecesFrom bytes none (by simp)

end TreeWatch.Text.Utf8

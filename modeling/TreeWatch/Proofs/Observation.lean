import TreeWatch.Observation
import TreeWatch.Proofs.Text.Utf8

/-!
# Reading audit lines

An audit line is read from its right end, where the two numbers stand, and its first word tells the
change. A path may hold spaces, digits and parentheses without disturbing the reader. A line end in
it does: what follows is a line of its own, and it can be made to look like any other.

## Main definitions

- `Text.lines` : the lines of a text
- `Observation.readLine?` : what an audit line tells
- `Observation.carrying` : an observation whose path carries an audit line

## Main results

- `AuditPrinter.length_lines_print` : how many lines are printed
- `AuditPrinter.read_print_iff` : the lines tell of the observations if no path has a line end
- `AuditPrinter.print_carrying` : one observation that is printed as two
-/

namespace TreeWatch

namespace Text

/-- The lines of a text, without their line ends. What follows the last line end is no line. -/
def lines (text : List Char) : List (List Char) :=
  (text.splitOn '\n').dropLast

/-- A text without the digits at its end, and the number that they are. -/
def dropNumber (text : List Char) : List Char × Nat :=
  (text.rdropWhile Char.isDigit, Nat.ofDigitChars 10 (text.rtakeWhile Char.isDigit) 0)

/-- The characters before the first space. -/
def firstWord (text : List Char) : List Char :=
  text.takeWhile fun c => c != ' '

/-- A text without the end it is known to have. -/
def dropEnd? (text : List Char) (ending : String) : Option (List Char) :=
  text.dropSuffix? ending.toList

theorem lines_append_cons {line : List Char} (h : '\n' ∉ line) (rest : List Char) :
    lines (line ++ '\n' :: rest) = line :: lines rest := by
  have hno : ∀ c ∈ line, (c == '\n') = false := by
    intro c hc
    exact beq_false_of_ne (ne_of_mem_of_not_mem hc h)
  rw [lines, List.splitOn, List.splitOnP_append_cons_of_forall_mem hno _ (by simp),
    List.dropLast_cons_of_ne_nil (List.splitOnP_ne_nil _ rest)]
  rfl

theorem length_splitOn (text : List Char) :
    (text.splitOn '\n').length = text.count '\n' + 1 := by
  induction text with
  | nil => rfl
  | cons c text ih =>
    rw [List.splitOn, List.splitOnP_cons_eq_if_modifyHead, List.count_cons]
    split <;> simp_all [List.splitOn]

/-- A text has as many lines as line ends. -/
theorem length_lines (text : List Char) : (lines text).length = text.count '\n' := by
  rw [lines, List.length_dropLast, length_splitOn, Nat.add_sub_cancel]

theorem isDigit_of_mem_toDigits {n : Nat} : ∀ c ∈ Nat.toDigits 10 n, c.isDigit = true :=
  fun _ => Nat.isDigit_of_mem_toDigits (by decide) (by decide)

/-- The digits of a number are read back if they follow something else. -/
theorem dropNumber_append (text : List Char) (ending : String) {c : Char}
    (hlast : ending.toList.getLast? = some c) (hc : c.isDigit = false) (n : Nat) :
    dropNumber (text ++ ending.toList ++ Nat.toDigits 10 n) = (text ++ ending.toList, n) := by
  have hdigits : ∀ d ∈ (Nat.toDigits 10 n).reverse, d.isDigit = true := fun d hd =>
    isDigit_of_mem_toDigits d (List.mem_reverse.mp hd)
  obtain ⟨front, hfront⟩ := List.getLast?_eq_some_iff.mp hlast
  simp [dropNumber, List.rdropWhile, List.rtakeWhile, List.takeWhile_append_of_pos hdigits,
    List.dropWhile_append_of_pos hdigits, hfront, hc]

theorem dropEnd?_append (text : List Char) (ending : String) :
    dropEnd? (text ++ ending.toList) ending = some text :=
  List.dropSuffix?_eq_some_iff.mpr ⟨_, rfl, beq_self_eq_true _⟩

end Text

open Text.Utf8 (newline)

/-- The change that a word stands for. -/
def ChangeKind.ofWord? (word : List Char) : Option ChangeKind :=
  if word = ChangeKind.linked.word.toList then some .linked
  else if word = ChangeKind.unlinked.word.toList then some .unlinked
  else none

theorem ChangeKind.ofWord?_word (kind : ChangeKind) : ofWord? kind.word.toList = some kind := by
  cases kind <;> decide

namespace Observation

/-- What an audit line tells of the change and of the two inode numbers. The change is its first
word, and the numbers are read from the right end. -/
def readLine? (line : List Char) : Option (ChangeKind × Nat × Nat) := do
  let kind ← ChangeKind.ofWord? (Text.firstWord line)
  let (front, parentIno) := Text.dropNumber (← Text.dropEnd? line ")")
  let (front, ino) := Text.dropNumber (← Text.dropEnd? front ", parent ")
  let _ ← Text.dropEnd? front " (ino "
  return (kind, ino, parentIno)

theorem line_eq (o : Observation) :
    o.line = o.kind.word ++ " " ++ o.path.display ++ " (ino " ++ o.ino.toNat.repr ++ ", parent "
      ++ o.parentIno.toNat.repr ++ ")" :=
  rfl

theorem toList_line (o : Observation) :
    o.line.toList = o.kind.word.toList ++ " ".toList ++ o.path.display.toList ++ " (ino ".toList
      ++ Nat.toDigits 10 o.ino.toNat ++ ", parent ".toList ++ Nat.toDigits 10 o.parentIno.toNat
      ++ ")".toList := by
  simp only [line_eq, String.toList_append, Nat.toList_repr]

theorem firstWord_line (o : Observation) :
    Text.firstWord o.line.toList = o.kind.word.toList := by
  have hword : o.kind.word.toList.all (fun c => c != ' ') = true := by
    cases o.kind <;> rfl
  rw [List.all_eq_true] at hword
  rw [toList_line]
  simp only [Text.firstWord, List.append_assoc, List.takeWhile_append_of_pos hword]
  simp

/-- A line is read from its right end, whatever the path holds. -/
theorem readLine?_line (o : Observation) :
    readLine? o.line.toList = some (o.kind, o.ino.toNat, o.parentIno.toNat) := by
  have hparent (text : List Char) := Text.dropNumber_append text ", parent " rfl rfl
  have hino (text : List Char) := Text.dropNumber_append text " (ino " rfl rfl
  rw [readLine?, firstWord_line, ChangeKind.ofWord?_word, toList_line]
  simp only [Text.dropEnd?_append, hparent, hino, Option.bind_eq_bind, Option.bind_some]
  rfl

/-- The only line ends in a line are those of the path. -/
theorem count_newline_line (o : Observation) :
    o.line.toList.count '\n' = o.path.count newline := by
  have hdigits (n : Nat) : (Nat.toDigits 10 n).count '\n' = 0 :=
    List.count_eq_zero.mpr fun hmem => absurd (Text.isDigit_of_mem_toDigits _ hmem) (by decide)
  have hword : o.kind.word.toList.count '\n' = 0 := by
    cases o.kind <;> decide
  rw [toList_line]
  simp only [List.count_append, hdigits, hword, Path.display, Text.Utf8.count_newline_lossy]
  simp

/-- What stands between the paths of two observations when their lines are printed. -/
def seam (o other : Observation) : String :=
  s!" (ino {o.ino.toNat}, parent {o.parentIno.toNat})\n{other.kind.word} "

/-- An observation whose path carries the end of the line of `o`, and that of `other` as far as its
path goes. The numbers are those of `other`. -/
def carrying (o other : Observation) : Observation where
  kind := o.kind
  path := o.path ++ Text.Utf8.ascii (o.seam other).toList ++ other.path
  ino := other.ino
  parentIno := other.parentIno

theorem seam_eq (o other : Observation) :
    o.seam other = " (ino " ++ o.ino.toNat.repr ++ ", parent " ++ o.parentIno.toNat.repr ++ ")\n"
      ++ other.kind.word ++ " " :=
  rfl

theorem toList_seam (o other : Observation) :
    (o.seam other).toList = " (ino ".toList ++ Nat.toDigits 10 o.ino.toNat ++ ", parent ".toList
      ++ Nat.toDigits 10 o.parentIno.toNat ++ ")\n".toList ++ other.kind.word.toList
      ++ " ".toList := by
  simp only [seam_eq, String.toList_append, Nat.toList_repr]

theorem isAscii_seam (o other : Observation) : Text.Utf8.isAscii (o.seam other).toList := by
  have hdigits (n : Nat) : Text.Utf8.isAscii (Nat.toDigits 10 n) := List.all_eq_true.mpr fun c hc => by
    have := Text.isDigit_of_mem_toDigits c hc
    simp only [Char.isDigit, Bool.and_eq_true, decide_eq_true_eq] at this
    exact decide_eq_true (Nat.lt_of_le_of_lt (UInt32.le_iff_toNat_le.mp this.2) (by decide))
  have hword : Text.Utf8.isAscii other.kind.word.toList := by
    cases other.kind <;> rfl
  simp only [Text.Utf8.isAscii] at hdigits hword
  simp only [Text.Utf8.isAscii, toList_seam, List.all_append, hdigits, hword]
  rfl

theorem toList_line_carrying (o other : Observation) :
    (o.carrying other).line.toList = o.line.toList ++ '\n' :: other.line.toList := by
  have hne : (o.seam other).toList ≠ [] := by simp [toList_seam]
  have hend : ")\n".toList = ")".toList ++ ['\n'] := rfl
  rw [toList_line, toList_line o, toList_line other]
  simp only [carrying, Path.display,
    Text.Utf8.toList_lossy_append_ascii_append (o.isAscii_seam other) hne]
  simp only [toList_seam, hend, List.append_assoc, List.cons_append, List.nil_append]

end Observation

namespace AuditPrinter

theorem toList_print_cons (o : Observation) (observations : List Observation) :
    (print ⟨false⟩ (o :: observations)).toList
      = o.line.toList ++ '\n' :: (print ⟨false⟩ observations).toList := by
  simp [print, render]

/-- There is one line for each observation, and one more for each line end in a path. -/
theorem length_lines_print (observations : List Observation) :
    (Text.lines (print ⟨false⟩ observations).toList).length
      = observations.length + (observations.map fun o => o.path.count newline).sum := by
  rw [Text.length_lines]
  induction observations with
  | nil => rfl
  | cons o observations ih =>
    rw [toList_print_cons, List.count_append, o.count_newline_line, List.count_cons_self, ih]
    simp only [List.length_cons, List.map_cons, List.sum_cons]
    omega

/-- The lines that are printed tell of the observations, each of its own and in order, if no path
has a line end, and only then. -/
theorem read_print_iff (observations : List Observation) :
    (Text.lines (print ⟨false⟩ observations).toList).map Observation.readLine?
        = observations.map (fun o => some (o.kind, o.ino.toNat, o.parentIno.toNat))
      ↔ ∀ o ∈ observations, newline ∉ o.path := by
  constructor
  · intro hread
    have hlength := congrArg List.length hread
    rw [List.length_map, List.length_map, length_lines_print, Nat.add_eq_left,
      List.sum_eq_zero_iff_forall_eq_nat] at hlength
    intro o ho
    exact List.count_eq_zero.mp (hlength _ (List.mem_map_of_mem ho))
  · intro hpaths
    induction observations with
    | nil => rfl
    | cons o observations ih =>
      have hline : '\n' ∉ o.line.toList := by
        rw [← List.count_eq_zero, o.count_newline_line]
        exact List.count_eq_zero.mpr (hpaths o (.head _))
      rw [toList_print_cons, Text.lines_append_cons hline, List.map_cons, List.map_cons,
        o.readLine?_line, ih fun o' ho' => hpaths o' (.tail _ ho')]

/-- No reader can do better: what is printed for two observations is printed for one, too. -/
theorem print_carrying (o other : Observation) (observations : List Observation) :
    print ⟨false⟩ (o.carrying other :: observations)
      = print ⟨false⟩ (o :: other :: observations) := by
  apply String.toList_injective
  simp only [toList_print_cons, Observation.toList_line_carrying, List.append_assoc,
    List.cons_append]

end AuditPrinter

end TreeWatch

import Mathlib.Algebra.Group.Int.Defs
import Mathlib.Algebra.GroupWithZero.Nat
import Mathlib.Data.List.TakeWhile
import Mathlib.Data.List.Basic

/-! NUL-terminated strings inside a byte buffer. The buffer is the list of its
bytes in use; a pointer into it is an offset. String functions that look for the
end of a string are defined on the bytes before the first NUL. -/

namespace UnixProgramming.Lib

/-- The bytes of an ASCII literal. -/
def bytes (text : String) : List UInt8 := text.toList.map fun char => UInt8.ofNat char.toNat

/-- The C string at an offset. -/
def str (buffer : List UInt8) (pointer : Nat) : List UInt8 :=
  (buffer.drop pointer).takeWhile (· ≠ 0)

/-- The string at an offset ends within the buffer. -/
def Terminated (buffer : List UInt8) (pointer : Nat) : Prop := 0 ∈ buffer.drop pointer

def toLower (byte : UInt8) : UInt8 := if 65 ≤ byte ∧ byte ≤ 90 then byte + 32 else byte

/-- `strcasecmp(left, right) == 0`. -/
def caseEqual (left right : List UInt8) : Bool := left.map toLower == right.map toLower

/-- `strncasecmp(left, right, count) == 0`. -/
def caseEqualUpTo (count : Nat) (left right : List UInt8) : Bool :=
  caseEqual (left.take count) (right.take count)

/-- Membership in the set `" \t"` the parsers separate words by. -/
def isBlank (byte : UInt8) : Bool := byte == 32 || byte == 9

/-- `strspn(text, " \t")`. -/
def blanks (text : List UInt8) : Nat := (text.takeWhile isBlank).length

/-- `strpbrk(text, " \t")`, as an offset from `text`. -/
def firstBlank (text : List UInt8) : Option Nat := text.findIdx? isBlank

/-- `strchr(text, byte)`, as an offset from `text`. -/
def strchr (text : List UInt8) (byte : UInt8) : Option Nat := text.findIdx? (· == byte)

def isSpace (byte : UInt8) : Bool := byte == 32 || (9 ≤ byte && byte ≤ 13)

def isDigit (byte : UInt8) : Bool := 48 ≤ byte && byte ≤ 57

/-- `strtol` in base 10 on a 64-bit `long`, which saturates. -/
def strtol (text : List UInt8) : Int :=
  let text := text.dropWhile isSpace
  let negative := text.head? == some 45
  let digits := if negative || text.head? == some 43 then text.tail else text
  let value : Int := (digits.takeWhile isDigit).foldl (fun value digit => value * 10 + (digit.toNat - 48 : Int)) 0
  if negative then max (-value) (-2 ^ 63) else min value (2 ^ 63 - 1)

/-- Conversion to a 32-bit `int`. -/
def toInt32 (value : Int) : Int := (value + 2 ^ 31) % 2 ^ 32 - 2 ^ 31

def atoi (text : List UInt8) : Int := toInt32 (strtol text)

/-- A memory with some bytes stored from an offset on. -/
def overwrite (memory : List UInt8) (offset : Nat) (text : List UInt8) : List UInt8 :=
  memory.take offset ++ (text ++ memory.drop (offset + text.length))

/-- `strcpy(memory + offset, text)`. -/
def strcpy (memory : List UInt8) (offset : Nat) (text : List UInt8) : List UInt8 :=
  overwrite memory offset (text ++ [0])

/-- `strncpy(memory + offset, text, count)`: it fills up with NULs, and ends a longer text with none. -/
def strncpy (memory : List UInt8) (offset : Nat) (text : List UInt8) (count : Nat) : List UInt8 :=
  overwrite memory offset (text.take count ++ List.replicate (count - text.length) 0)

variable {buffer : List UInt8} {pointer : Nat}

theorem Terminated.lt (ends : Terminated buffer pointer) : pointer < buffer.length := by
  by_contra outside
  simp [Terminated, List.drop_of_length_le (by omega : buffer.length ≤ pointer)] at ends

theorem Terminated.getD_append (ends : Terminated buffer pointer) (more : List UInt8) :
    (buffer ++ more).getD pointer 0 = buffer.getD pointer 0 := by
  simp [List.getElem?_append_left ends.lt]

/-- Bytes behind the terminator do not matter. -/
theorem Terminated.str_append (ends : Terminated buffer pointer) (more : List UInt8) :
    str (buffer ++ more) pointer = str buffer pointer := by
  rw [str, str, List.drop_append_of_le_length ends.lt.le, List.takeWhile_append]
  split_ifs with all
  · have every := List.takeWhile_eq_self_iff.mp (List.IsPrefix.eq_of_length (List.takeWhile_prefix _) all) 0 ends
    simp at every
  · rfl

theorem Terminated.append (ends : Terminated buffer pointer) (more : List UInt8) :
    Terminated (buffer ++ more) pointer := by
  rw [Terminated, List.drop_append]
  exact List.mem_append_left _ ends

/-- Writing a NUL anywhere keeps strings terminated. -/
theorem Terminated.set (ends : Terminated buffer pointer) (position : Nat) :
    Terminated (buffer.set position 0) pointer := by
  rw [Terminated, List.drop_set]
  split_ifs with before
  · exact ends
  · obtain ⟨index, inside, found⟩ := List.mem_iff_getElem.mp ends
    refine List.mem_iff_getElem.mpr ⟨index, by simpa using inside, ?_⟩
    rw [List.getElem_set]
    split_ifs <;> simp [found]

/-- A NUL at or behind a pointer terminates its string. -/
theorem terminated_set {position : Nat} (behind : pointer ≤ position) (inside : position < buffer.length) :
    Terminated (buffer.set position 0) pointer := by
  refine List.mem_iff_getElem.mpr ⟨position - pointer, by simp; omega, ?_⟩
  simp [Nat.add_sub_cancel' behind]

theorem drop_str (buffer : List UInt8) (pointer : Nat) :
    str buffer pointer ++ (buffer.drop pointer).dropWhile (· ≠ 0) = buffer.drop pointer :=
  List.takeWhile_append_dropWhile

/-- A pointer moved along its string, up to the terminator. -/
theorem Terminated.advance (ends : Terminated buffer pointer) {offset : Nat}
    (within : offset ≤ (str buffer pointer).length) : Terminated buffer (pointer + offset) := by
  have split := drop_str buffer pointer
  have inRest : 0 ∈ (buffer.drop pointer).dropWhile (· ≠ 0) := by
    rw [Terminated, ← split] at ends
    rcases List.mem_append.mp ends with inside | outside
    · have nonzero := List.mem_takeWhile_imp inside
      simp at nonzero
    · exact outside
  rw [Terminated, ← List.drop_drop, ← split, List.drop_append_of_le_length within]
  exact List.mem_append_right _ inRest

theorem str_length_le (buffer : List UInt8) (pointer : Nat) :
    (str buffer pointer).length ≤ buffer.length - pointer := by
  have shorter := (List.takeWhile_prefix (l := buffer.drop pointer) (p := (· ≠ 0))).length_le
  simpa [str] using shorter

theorem blanks_le (text : List UInt8) : blanks text ≤ text.length :=
  (List.takeWhile_prefix _).length_le

theorem firstBlank_lt {text : List UInt8} {offset : Nat} (found : firstBlank text = some offset) :
    offset < text.length := by
  rw [firstBlank, List.findIdx?_eq_some_iff_getElem] at found
  exact found.1

/-- A string that starts like a literal is at least as long. -/
theorem length_of_caseEqualUpTo {count : Nat} {left right : List UInt8}
    (same : caseEqualUpTo count left right = true) (enough : count ≤ right.length) : count ≤ left.length := by
  have lengths := congrArg List.length (beq_iff_eq.mp same)
  simp only [List.length_map, List.length_take] at lengths
  omega

theorem strchr_lt {text : List UInt8} {byte : UInt8} {offset : Nat} (found : strchr text byte = some offset) :
    offset < text.length := by
  rw [strchr, List.findIdx?_eq_some_iff_getElem] at found
  exact found.1

theorem str_middle (before after : List UInt8) {word : List UInt8} (plainWord : 0 ∉ word) :
    str (before ++ (word ++ 0 :: after)) before.length = word := by
  have nonzero : ∀ byte ∈ word, decide (byte ≠ 0) = true := by
    intro byte member
    simpa using fun zero : byte = 0 => plainWord (zero ▸ member)
  rw [str, List.drop_left, List.takeWhile_append_of_pos nonzero]
  simp

theorem str_drop {buffer : List UInt8} {pointer count : Nat} (within : count ≤ (str buffer pointer).length) :
    str buffer (pointer + count) = (str buffer pointer).drop count := by
  have split := drop_str buffer pointer
  have nonzero : ∀ byte ∈ (str buffer pointer).drop count, decide (byte ≠ 0) = true := by
    intro byte member
    have inside : byte ∈ (buffer.drop pointer).takeWhile (· ≠ 0) := List.mem_of_mem_drop member
    have nonzero := List.mem_takeWhile_imp inside
    exact nonzero
  have behind : ∀ text : List UInt8, (text.dropWhile (· ≠ 0)).takeWhile (· ≠ 0) = [] := by
    intro text
    induction text with
    | nil => rfl
    | cons byte rest ih =>
      by_cases zero : byte = 0
      · simp [zero]
      · simpa [zero] using ih
  conv_lhs => rw [str, ← List.drop_drop, ← split]
  rw [List.drop_append_of_le_length within, List.takeWhile_append_of_pos nonzero, behind, List.append_nil]

theorem drop_blanks (text : List UInt8) : text.drop (blanks text) = text.dropWhile isBlank := by
  induction text with
  | nil => rfl
  | cons byte rest ih =>
    by_cases blank : isBlank byte = true
    · simpa [blanks, blank] using ih
    · simp [blanks, blank]

/-- The value of a header, behind its name and blanks. -/
theorem str_value {buffer : List UInt8} {text count : Nat} {name : List UInt8}
    (named : caseEqualUpTo count (str buffer text) name = true) (whole : count ≤ name.length) :
    str buffer (text + count + blanks (str buffer (text + count))) =
      ((str buffer text).drop count).dropWhile isBlank := by
  have behind := str_drop (length_of_caseEqualUpTo named whole)
  rw [str_drop (blanks_le _), drop_blanks, behind]

theorem findIdx_middle {check : UInt8 → Bool} {word : List UInt8} {byte : UInt8} (after : List UInt8)
    (clean : ∀ other ∈ word, check other = false) (found : check byte = true) :
    (word ++ byte :: after).findIdx? check = some word.length := by
  rw [List.findIdx?_append, List.findIdx?_eq_none_iff.mpr (by simpa using clean)]
  simp [List.findIdx?_cons, found]

theorem getD_of_str {buffer rest : List UInt8} {pointer : Nat} {byte : UInt8} (text : str buffer pointer = byte :: rest) :
    buffer.getD pointer 0 = byte := by
  have split := drop_str buffer pointer
  rw [text] at split
  have head := congrArg List.head? split
  rw [List.head?_drop] at head
  simp [← head]

end UnixProgramming.Lib

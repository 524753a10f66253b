import UnixProgramming.Lib.CString

/-! Bytes that go from a buffer into a connection and out of it piece by piece. -/

namespace UnixProgramming.Lib

/-- How many bytes each direction of a connection holds. -/
structure Capacity where
  toServer : Nat
  toClient : Nat
  deriving DecidableEq, Repr

/-- A `read()` puts what it got at the start of the buffer. -/
theorem take_overwrite (memory got : List UInt8) : (overwrite memory 0 got).take got.length = got := by
  simp [overwrite]

theorem length_overwrite {memory got : List UInt8} {size : Nat} (same : memory.length = size)
    (fits : got.length ≤ size) : (overwrite memory 0 got).length = size := by
  simp [overwrite]
  omega

/-- Storing bytes over themselves changes nothing. -/
theorem overwrite_self (memory : List UInt8) (offset count : Nat) :
    overwrite memory offset ((memory.drop offset).take count) = memory := by
  have behind : memory.drop (offset + ((memory.drop offset).take count).length) =
      (memory.drop offset).drop count := by
    rw [List.drop_drop, List.length_take, List.length_drop]
    by_cases inside : count ≤ memory.length - offset
    · rw [min_eq_left inside]
    · rw [List.drop_eq_nil_of_le (by omega), List.drop_eq_nil_of_le (by omega)]
  rw [overwrite, behind, List.take_append_drop, List.take_append_drop]

theorem take_drop_append (text : List UInt8) (sent count total : Nat) (fits : sent + count ≤ total) :
    (text.drop sent).take count ++ (text.take total).drop (sent + count) = (text.take total).drop sent := by
  have part : (text.drop sent).take count = ((text.take total).drop sent).take count := by
    rw [List.drop_take, List.take_take, min_eq_left (by omega)]
  rw [part, ← List.drop_drop, List.take_append_drop]

end UnixProgramming.Lib

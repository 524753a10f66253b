import Mathlib.Data.List.DropRight
import UnixProgramming.Csapp.EchoPool
import UnixProgramming.Csapp.RioLine

/-! What `fgets` makes of a terminal's input: lines, and pieces of lines that are longer than the
buffer. A piece comes back from an echo server only when it ends as the server's own reading of
lines ends. -/

namespace UnixProgramming.Csapp

open UnixProgramming.Lib Rio

variable {stream line rest text : List UInt8}

/-- The piece is all of what `fgets` put into the buffer, as far as the server can tell. -/
def Whole (line : List UInt8) : Prop :=
  0 ∉ line ∧ (line.getLast? = some newline ∨ line.length = maxline - 1)

/-- The bytes have no NUL, and what comes after the last newline fills buffers. -/
def Complete (stream : List UInt8) : Prop :=
  0 ∉ stream ∧ (stream.rtakeWhile (· ≠ newline)).length % (maxline - 1) = 0

instance : DecidablePred Complete := fun _ => inferInstanceAs (Decidable (_ ∧ _))

theorem complete_nil : Complete [] := by
  refine ⟨by simp, ?_⟩
  simp

/-- Bytes in front of a newline do not matter. -/
theorem rtakeWhile_newline (first rest : List UInt8) :
    (first ++ newline :: rest).rtakeWhile (· ≠ newline) = rest.rtakeWhile (· ≠ newline) := by
  induction rest using List.reverseRecOn with
  | nil => simp [List.rtakeWhile_concat]
  | append_singleton rest byte ih =>
    have split : first ++ newline :: (rest ++ [byte]) = (first ++ newline :: rest) ++ [byte] := by simp
    rw [split, List.rtakeWhile_concat, List.rtakeWhile_concat, ih]

theorem rtakeWhile_of_not_mem (none : newline ∉ stream) : stream.rtakeWhile (· ≠ newline) = stream := by
  refine List.rtakeWhile_eq_self_iff.mpr fun byte member => ?_
  simpa using fun same : byte = newline => none (same ▸ member)

/-- A newline in a piece is its last byte. -/
theorem newline_last (inner : newline ∉ line.dropLast) {first more : List UInt8} (same : line = first ++ newline :: more) :
    more = [] := by
  by_contra some
  apply inner
  rw [same, List.dropLast_append_of_ne_nil (by simp), List.dropLast_cons_of_ne_nil some]
  simp

theorem lineOf_append (room : Nat) (stream : List UInt8) :
    lineOf room stream ++ stream.drop (lineOf room stream).length = stream :=
  List.prefix_append_drop (lineOf_next room stream).1.front |>.symm

/-- A line stops at a newline, at the end of its room, or at the end of the stream. -/
theorem lineOf_stops (room : Nat) (stream : List UInt8) :
    (lineOf room stream).getLast? = some newline ∨ (lineOf room stream).length = room ∨
      stream.drop (lineOf room stream).length = [] := by
  fun_induction lineOf room stream with
  | case1 stream => exact .inr (.inl rfl)
  | case2 room _ => exact .inr (.inr rfl)
  | case3 room rest => exact .inl rfl
  | case4 room byte rest inner ih =>
    rcases ih with last | full | ended
    · left
      obtain ⟨front, same⟩ := List.getLast?_eq_some_iff.mp last
      rw [same, ← List.cons_append, List.getLast?_append]
      rfl
    · exact .inr (.inl (by rw [List.length_cons, full]))
    · exact .inr (.inr ended)

theorem complete_lineOf (more : stream ≠ []) :
    Complete stream ↔ Whole (lineOf (maxline - 1) stream) ∧
      Complete (stream.drop (lineOf (maxline - 1) stream).length) := by
  have split := lineOf_append (maxline - 1) stream
  have stops := lineOf_stops (maxline - 1) stream
  obtain ⟨-, short, inner⟩ := (lineOf_next (maxline - 1) stream).1
  have nonempty : lineOf (maxline - 1) stream ≠ [] :=
    mt ((lineOf_next (maxline - 1) stream).nil_iff (by decide)).mp more
  generalize lineOf (maxline - 1) stream = line at *
  generalize stream.drop line.length = rest at *
  subst split
  simp only [Complete, Whole, List.mem_append, not_or, maxline] at *
  rcases Decidable.em (line.getLast? = some newline) with last | other
  · obtain ⟨first, rfl⟩ := List.getLast?_eq_some_iff.mp last
    rw [List.append_assoc, List.singleton_append, rtakeWhile_newline]
    simp [and_assoc]
  -- Without a newline at its end the line has none, and it is full or there is nothing behind it.
  have none : newline ∉ line := fun member => by
    obtain ⟨first, after, same⟩ := List.append_of_mem member
    have := newline_last inner same
    simp [same, this] at other
  simp only [other, false_or] at stops ⊢
  by_cases present : newline ∈ rest
  · obtain ⟨first, after, rfl⟩ := List.append_of_mem present
    have full := stops.resolve_right (by simp)
    rw [← List.append_assoc, rtakeWhile_newline, rtakeWhile_newline]
    simp [full, and_assoc]
  · rw [rtakeWhile_of_not_mem (by simp [none, present]), rtakeWhile_of_not_mem present, List.length_append]
    have positive := List.length_pos_iff.mpr nonempty
    rcases stops with full | rfl
    · simp [full, and_assoc]
    · simp
      omega

end UnixProgramming.Csapp

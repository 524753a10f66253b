import UnixProgramming.Csapp.Rio

/-! The writer of the robust I/O package. As for `read()`, the outcomes of the next
`write()` calls are given in advance, and a call that finds none is blocked. -/

namespace UnixProgramming.Csapp

/-- What the kernel does with one `write()`: it takes at most `limit` bytes, or fails. -/
inductive WriteOutcome where
  | count (limit : Nat)
  | error (errno : Errno)
  deriving DecidableEq, Repr

structure Sink where
  writes : List WriteOutcome
  /-- All bytes `write()` has taken so far. -/
  written : List UInt8
  deriving DecidableEq, Repr

/-- What `rio_writen` returned, if it has returned, and what it left behind. -/
structure Writing where
  value : Option Int
  errno : Errno
  sink : Sink
  deriving DecidableEq, Repr

/-- Some bytes of the memory at `usrbuf`. -/
def stretch (memory : Nat → UInt8) (offset count : Nat) : List UInt8 :=
  (List.range' offset count).map memory

/-- The loop `while (nleft > 0)` of `rio_writen`; `bufp` is an offset. A `write()` that returns
0 leaves `errno` as it was, and `errno` is tested all the same. -/
def writeLoop (memory : Nat → UInt8) (n bufp nleft : Nat) (errno : Errno) (written : List UInt8) :
    List WriteOutcome → Writing
  | [] => ⟨if nleft = 0 then some (Rio.toSsize n) else none, errno, [], written⟩
  | outcome :: rest =>
    if nleft = 0 then ⟨some (Rio.toSsize n), errno, outcome :: rest, written⟩
    else
      match outcome with
      | .error failure =>
        if failure = .eintr then writeLoop memory n bufp nleft failure written rest
        else ⟨some (-1), failure, rest, written⟩
      | .count limit =>
        let nwritten := min limit nleft
        if nwritten = 0 then
          if errno = .eintr then writeLoop memory n bufp nleft errno written rest
          else ⟨some (-1), errno, rest, written⟩
        else
          writeLoop memory n (bufp + nwritten) (nleft - nwritten) errno
            (written ++ stretch memory bufp nwritten) rest

/-- `rio_writen` of `n` bytes of the memory at `usrbuf`. -/
def rioWriten (memory : Nat → UInt8) (n : Nat) (errno : Errno) (sink : Sink) : Writing :=
  writeLoop memory n 0 n errno sink.written sink.writes

/-- The outcome is a positive count or an interruption. -/
def WriteOutcome.Benign : WriteOutcome → Prop
  | .count limit => 0 < limit
  | .error errno => errno = .eintr

instance : DecidablePred WriteOutcome.Benign
  | .count limit => inferInstanceAs (Decidable (0 < limit))
  | .error errno => inferInstanceAs (Decidable (errno = .eintr))

theorem stretch_append (memory : Nat → UInt8) (offset count more : Nat) :
    stretch memory offset (count + more) = stretch memory offset count ++ stretch memory (offset + count) more := by
  rw [stretch, ← List.range'_append_1, List.map_append, stretch, stretch]

/-- The bytes went out in order behind the earlier ones, all of them unless the call is blocked. -/
def Writing.Passes (writing : Writing) (value : Int) (earlier bytes : List UInt8) : Prop :=
  (∀ outcome ∈ writing.sink.writes, outcome.Benign) ∧
    (writing.value = some value ∧ writing.sink.written = earlier ++ bytes ∨
      writing.value = none ∧ ∃ sent, writing.sink.written = earlier ++ sent ∧ sent <+: bytes)

theorem Writing.Passes.after {writing : Writing} {value : Int} {earlier first bytes : List UInt8}
    (passes : writing.Passes value (earlier ++ first) bytes) : writing.Passes value earlier (first ++ bytes) := by
  obtain ⟨benign, ⟨returned, all⟩ | ⟨blocked, sent, part, initial⟩⟩ := passes
  · exact ⟨benign, .inl ⟨returned, by rw [all, List.append_assoc]⟩⟩
  · refine ⟨benign, .inr ⟨blocked, first ++ sent, by rw [part, List.append_assoc], ?_⟩⟩
    exact (List.prefix_append_right_inj first).mpr initial

theorem Writing.Passes.all {writing : Writing} {value : Int} {earlier bytes : List UInt8}
    (passes : writing.Passes value earlier bytes) (returned : writing.value ≠ none) :
    writing.sink.written = earlier ++ bytes := by
  obtain ⟨-, ⟨-, all⟩ | ⟨blocked, -⟩⟩ := passes
  · exact all
  · exact absurd blocked returned

theorem Writing.Passes.initial {writing : Writing} {value : Int} {earlier bytes : List UInt8}
    (passes : writing.Passes value earlier bytes) : writing.sink.written <+: earlier ++ bytes := by
  obtain ⟨-, ⟨-, all⟩ | ⟨-, sent, part, initial⟩⟩ := passes
  · exact ⟨[], by rw [all, List.append_nil]⟩
  · rw [part]
    exact (List.prefix_append_right_inj earlier).mpr initial

theorem writeLoop_passes (memory : Nat → UInt8) (n bufp nleft : Nat) (errno : Errno) (written : List UInt8)
    (writes : List WriteOutcome) (benign : ∀ outcome ∈ writes, outcome.Benign) :
    (writeLoop memory n bufp nleft errno written writes).Passes (Rio.toSsize n) written (stretch memory bufp nleft) := by
  induction writes generalizing bufp nleft errno written with
  | nil =>
    rw [writeLoop]
    by_cases done : nleft = 0
    · exact ⟨benign, .inl ⟨if_pos done, by simp [done, stretch]⟩⟩
    · exact ⟨benign, .inr ⟨if_neg done, [], by simp⟩⟩
  | cons outcome rest ih =>
    obtain ⟨here, later⟩ := List.forall_mem_cons.mp benign
    unfold writeLoop
    by_cases done : nleft = 0
    · rw [if_pos done]
      exact ⟨benign, .inl ⟨rfl, by simp [done, stretch]⟩⟩
    rw [if_neg done]
    cases outcome with
    | error failure =>
      have interrupted : failure = .eintr := here
      simp only [if_pos interrupted]
      exact ih bufp nleft failure written later
    | count limit =>
      have positive : 0 < limit := here
      have taken : min limit nleft ≠ 0 := by omega
      have whole : nleft = min limit nleft + (nleft - min limit nleft) := by omega
      simp only [if_neg taken]
      have passes := ih (bufp + min limit nleft) (nleft - min limit nleft) errno
        (written ++ stretch memory bufp (min limit nleft)) later
      have split := stretch_append memory bufp (min limit nleft) (nleft - min limit nleft)
      rw [← whole] at split
      rw [split]
      exact passes.after

/-- Without failures a call that returns has written all its bytes, and one that is blocked the
first of them. -/
theorem rioWriten_passes (memory : Nat → UInt8) (n : Nat) (errno : Errno) {sink : Sink}
    (benign : ∀ outcome ∈ sink.writes, outcome.Benign) :
    (rioWriten memory n errno sink).Passes (Rio.toSsize n) sink.written (stretch memory 0 n) :=
  writeLoop_passes memory n 0 n errno sink.written sink.writes benign

end UnixProgramming.Csapp

import Mathlib.Order.Bounds.Basic
import Mathlib.Data.Set.Finite.Lattice
import UnixProgramming.Csapp.RioWriten
import UnixProgramming.Csapp.RioBlocks
import UnixProgramming.Lib.Run

/-! What `rio_writen` makes of every sequence of `write()` outcomes, failures and zeros
included: all bytes once, or -1 and a first part of them. -/

namespace UnixProgramming.Csapp

open UnixProgramming.Lib

/-- An interruption, or a `write()` that takes nothing. -/
def WriteOutcome.Idle : WriteOutcome → Prop
  | .count limit => limit = 0
  | .error errno => errno = .eintr

instance : DecidablePred WriteOutcome.Idle
  | .count limit => inferInstanceAs (Decidable (limit = 0))
  | .error errno => inferInstanceAs (Decidable (errno = .eintr))

/-- What is left behind by a call that had `nleft` bytes from `bufp` on still to write. -/
def Writing.Settles (writing : Writing) (memory : Nat → UInt8) (n bufp nleft : Nat) (written : List UInt8) : Prop :=
  (writing.value = some (Rio.toSsize n) ∧ writing.sink.written = written ++ stretch memory bufp nleft) ∨
    ((writing.value = some (-1) ∨ writing.value = none) ∧
      ∃ accepted < nleft, writing.sink.written = written ++ stretch memory bufp accepted)

theorem Writing.Settles.after {writing : Writing} {memory : Nat → UInt8} {n bufp nleft count : Nat}
    {written : List UInt8} (fits : count ≤ nleft)
    (settles : writing.Settles memory n (bufp + count) (nleft - count) (written ++ stretch memory bufp count)) :
    writing.Settles memory n bufp nleft written := by
  rcases settles with ⟨returned, all⟩ | ⟨returned, accepted, fewer, part⟩
  · refine .inl ⟨returned, ?_⟩
    rw [all, List.append_assoc, ← stretch_append, Nat.add_sub_cancel' fits]
  · refine .inr ⟨returned, count + accepted, by omega, ?_⟩
    rw [part, List.append_assoc, ← stretch_append]

theorem writeLoop_settles (memory : Nat → UInt8) (n bufp nleft : Nat) (errno : Errno) (written : List UInt8)
    (writes : List WriteOutcome) :
    (writeLoop memory n bufp nleft errno written writes).Settles memory n bufp nleft written := by
  induction writes generalizing bufp nleft errno written with
  | nil =>
    rw [writeLoop]
    by_cases done : nleft = 0
    · exact .inl ⟨if_pos done, by simp [done, stretch]⟩
    · exact .inr ⟨.inr (if_neg done), 0, by omega, by simp [stretch]⟩
  | cons outcome rest ih =>
    unfold writeLoop
    by_cases done : nleft = 0
    · rw [if_pos done]
      exact .inl ⟨rfl, by simp [done, stretch]⟩
    rw [if_neg done]
    have failed (errno : Errno) :
        (Writing.mk (some (-1)) errno ⟨rest, written⟩).Settles memory n bufp nleft written :=
      .inr ⟨.inl rfl, 0, by omega, by simp [stretch]⟩
    cases outcome with
    | error failure =>
      by_cases interrupted : failure = .eintr
      · simp only [if_pos interrupted]
        exact ih bufp nleft failure written
      · simp only [if_neg interrupted]
        exact failed failure
    | count limit =>
      by_cases nothing : min limit nleft = 0
      · by_cases stale : errno = .eintr
        · simp only [if_pos nothing, if_pos stale]
          exact ih bufp nleft errno written
        · simp only [if_pos nothing, if_neg stale]
          exact failed errno
      · simp only [if_neg nothing]
        exact .after (Nat.min_le_right limit nleft) (ih _ _ errno _)

/-- As many outcomes that are not idle as there are bytes to write end the call. -/
theorem writeLoop_returns (memory : Nat → UInt8) (n bufp nleft : Nat) (errno : Errno) (written : List UInt8)
    (writes : List WriteOutcome) (enough : nleft ≤ writes.countP fun outcome => ¬ outcome.Idle) :
    (writeLoop memory n bufp nleft errno written writes).value ≠ none := by
  induction writes generalizing bufp nleft errno written with
  | nil =>
    rw [List.countP_nil, Nat.le_zero] at enough
    simp [writeLoop, enough]
  | cons outcome rest ih =>
    unfold writeLoop
    by_cases done : nleft = 0
    · simp [done]
    rw [if_neg done]
    rw [List.countP_cons] at enough
    cases outcome with
    | error failure =>
      by_cases interrupted : failure = .eintr
      · simp only [if_pos interrupted]
        refine ih bufp nleft failure written ?_
        simpa [WriteOutcome.Idle, interrupted] using enough
      · simp [interrupted]
    | count limit =>
      by_cases nothing : limit = 0
      · by_cases stale : errno = .eintr
        · simp only [nothing, Nat.zero_min, if_pos, stale]
          refine ih bufp nleft .eintr written ?_
          simpa [WriteOutcome.Idle, nothing] using enough
        · simp [nothing, stale]
      · have taken : min limit nleft ≠ 0 := by omega
        simp only [if_neg taken]
        have decisive : ¬ (WriteOutcome.count limit).Idle := nothing
        rw [if_pos (decide_eq_true decisive)] at enough
        exact ih _ _ errno _ (by omega)

/-! ## The variables of the loop -/

/-- The variables at the head of the loop; `nleft` is a `size_t`. -/
structure WriteState where
  bufp : Nat
  nleft : Nat
  errno : Errno
  written : List UInt8
  deriving DecidableEq, Repr

namespace WriteState

def start (n : Nat) (errno : Errno) (written : List UInt8) : WriteState := ⟨0, n, errno, written⟩

/-- One turn of the loop, with the subtraction of a `size_t`; `none` where the call returns. -/
def turn (memory : Nat → UInt8) (state : WriteState) (outcome : WriteOutcome) : Option WriteState :=
  if state.nleft = 0 then none
  else
    match outcome with
    | .error failure => if failure = .eintr then some { state with errno := failure } else none
    | .count limit =>
      let nwritten := min limit state.nleft
      if nwritten = 0 then if state.errno = .eintr then some state else none
      else some {
        bufp := state.bufp + nwritten
        nleft := (state.nleft + 2 ^ 64 - nwritten) % 2 ^ 64
        errno := state.errno
        written := state.written ++ stretch memory state.bufp nwritten }

/-- The bytes accepted and the bytes left make up the buffer. -/
structure Splits (memory : Nat → UInt8) (n : Nat) (earlier : List UInt8) (state : WriteState) : Prop where
  whole : state.bufp + state.nleft = n
  accepted : state.written = earlier ++ stretch memory 0 state.bufp

variable {memory : Nat → UInt8} {n : Nat} {earlier : List UInt8} {state next : WriteState} {outcome : WriteOutcome}

theorem turn_cases (taken : state.turn memory outcome = some next) :
    (outcome.Idle ∧ ∃ errno, next = { state with errno := errno }) ∨
      ∃ limit, outcome = .count limit ∧ 0 < min limit state.nleft ∧ next =
        ⟨state.bufp + min limit state.nleft, (state.nleft + 2 ^ 64 - min limit state.nleft) % 2 ^ 64, state.errno,
          state.written ++ stretch memory state.bufp (min limit state.nleft)⟩ := by
  unfold turn at taken
  by_cases done : state.nleft = 0
  · rw [if_pos done] at taken
    cases taken
  rw [if_neg done] at taken
  cases outcome with
  | error failure =>
    simp only [Option.ite_none_right_eq_some, Option.some.injEq] at taken
    exact .inl ⟨taken.1, failure, taken.2.symm⟩
  | count limit =>
    by_cases nothing : min limit state.nleft = 0
    · simp only [if_pos nothing, Option.ite_none_right_eq_some, Option.some.injEq] at taken
      have idle : limit = 0 := by omega
      exact .inl ⟨idle, state.errno, taken.2.symm⟩
    · simp only [if_neg nothing, Option.some.injEq] at taken
      exact .inr ⟨limit, rfl, by omega, taken.symm⟩

/-- The subtraction does not wrap. -/
theorem nleft_sub {nleft count : Nat} (small : nleft < 2 ^ 64) (fits : count ≤ nleft) :
    (nleft + 2 ^ 64 - count) % 2 ^ 64 = nleft - count := by
  omega

theorem Splits.after_turn (small : n < 2 ^ 64) (splits : state.Splits memory n earlier)
    (taken : state.turn memory outcome = some next) : next.Splits memory n earlier := by
  obtain ⟨whole, accepted⟩ := splits
  obtain ⟨-, errno, rfl⟩ | ⟨limit, -, positive, rfl⟩ := turn_cases taken
  · exact ⟨whole, accepted⟩
  · have fits := Nat.min_le_right limit state.nleft
    refine ⟨?_, ?_⟩
    · simp only [nleft_sub (by omega) fits]
      omega
    · simp only [accepted, List.append_assoc, stretch_append memory 0, Nat.zero_add]

/-- The loop goes from turn to turn. -/
theorem writeLoop_turn (small : state.nleft < 2 ^ 64) (taken : state.turn memory outcome = some next)
    (rest : List WriteOutcome) :
    writeLoop memory n state.bufp state.nleft state.errno state.written (outcome :: rest) =
      writeLoop memory n next.bufp next.nleft next.errno next.written rest := by
  unfold turn at taken
  by_cases done : state.nleft = 0
  · rw [if_pos done] at taken
    cases taken
  rw [if_neg done] at taken
  rw [writeLoop.eq_def]
  simp only [if_neg done]
  cases outcome with
  | error failure =>
    simp only [Option.ite_none_right_eq_some, Option.some.injEq] at taken
    obtain ⟨interrupted, rfl⟩ := taken
    simp only [if_pos interrupted]
  | count limit =>
    by_cases nothing : min limit state.nleft = 0
    · simp only [if_pos nothing, Option.ite_none_right_eq_some, Option.some.injEq] at taken
      obtain ⟨stale, rfl⟩ := taken
      simp only [if_pos nothing, if_pos stale]
    · simp only [if_neg nothing, Option.some.injEq] at taken
      obtain rfl := taken
      simp only [if_neg nothing, nleft_sub small (Nat.min_le_right limit state.nleft)]

theorem Splits.start (n : Nat) (errno : Errno) (earlier : List UInt8) :
    (start n errno earlier).Splits memory n earlier :=
  ⟨Nat.zero_add n, by simp [WriteState.start, stretch]⟩

/-- Every state at the head of the loop splits the buffer, and the call goes on from it. -/
theorem Splits.after_run (small : n < 2 ^ 64) {done : List WriteOutcome} (splits : state.Splits memory n earlier)
    (reached : run (turn memory) state done = some next) (rest : List WriteOutcome) :
    next.Splits memory n earlier ∧
      writeLoop memory n state.bufp state.nleft state.errno state.written (done ++ rest) =
        writeLoop memory n next.bufp next.nleft next.errno next.written rest := by
  induction done generalizing state with
  | nil =>
    cases Option.some.inj reached
    exact ⟨splits, rfl⟩
  | cons outcome later ih =>
    obtain ⟨middle, taken, remaining⟩ := run_cons_some.mp reached
    have whole := splits.whole
    obtain ⟨kept, same⟩ := ih (splits.after_turn small taken) remaining
    exact ⟨kept, by rw [List.cons_append, writeLoop_turn (by omega) taken, same]⟩

end WriteState

/-- Behind the last idle outcome `n` more are enough. -/
theorem countP_not_idle {outcomes : Nat → WriteOutcome} {bound : Nat}
    (decisive : ∀ k, bound ≤ k → ¬ (outcomes k).Idle) (n : Nat) :
    n ≤ ((List.range (bound + n)).map outcomes).countP fun outcome => ¬ outcome.Idle := by
  rw [List.range_add, List.map_append, List.countP_append]
  have all : (((List.range n).map (bound + ·)).map outcomes).countP (fun outcome => ¬ outcome.Idle) = n := by
    rw [List.countP_eq_length.mpr]
    · simp
    · intro outcome member
      rw [List.map_map, List.mem_map] at member
      obtain ⟨k, -, rfl⟩ := member
      exact decide_eq_true (decisive (bound + k) (Nat.le_add_right bound k))
  omega

/-- `rio_writen` writes everything exactly once or reports failure, for every sequence of
outcomes and every `errno` before the call; the bytes left never wrap; and behind finitely many
idle outcomes it returns. -/
theorem writen_exactly_once (memory : Nat → UInt8) (n : Nat) (small : n < 2 ^ 64) (errno : Errno) (sink : Sink) :
    (∀ value, (rioWriten memory n errno sink).value = some value →
      (value = Rio.toSsize n ∧ (rioWriten memory n errno sink).sink.written = sink.written ++ stretch memory 0 n) ∨
        (value = -1 ∧ ∃ accepted < n,
          (rioWriten memory n errno sink).sink.written = sink.written ++ stretch memory 0 accepted)) ∧
    (n < 2 ^ 63 → Rio.toSsize n = n) ∧
    (∀ done rest state, sink.writes = done ++ rest →
      run (WriteState.turn memory) (.start n errno sink.written) done = some state →
      state.nleft ≤ n ∧ state.written = sink.written ++ stretch memory 0 (n - state.nleft) ∧
        rioWriten memory n errno sink =
          writeLoop memory n state.bufp state.nleft state.errno state.written rest) ∧
    ∀ outcomes : Nat → WriteOutcome, {k | (outcomes k).Idle}.Finite →
      ∃ count, (rioWriten memory n errno ⟨(List.range count).map outcomes, sink.written⟩).value ≠ none := by
  refine ⟨fun value returned => ?_, Rio.toSsize_small, fun done rest state same reached => ?_, fun outcomes finite => ?_⟩
  · have settles := writeLoop_settles memory n 0 n errno sink.written sink.writes
    change (rioWriten memory n errno sink).Settles memory n 0 n sink.written at settles
    rcases settles with ⟨finished, all⟩ | ⟨failed | blocked, accepted⟩
    · exact .inl ⟨Option.some.inj (returned.symm.trans finished), all⟩
    · exact .inr ⟨Option.some.inj (returned.symm.trans failed), accepted⟩
    · rw [blocked] at returned
      cases returned
  · obtain ⟨⟨whole, accepted⟩, goes⟩ := (WriteState.Splits.start n errno sink.written).after_run small reached rest
    have bufp : n - state.nleft = state.bufp := by omega
    refine ⟨by omega, by rw [bufp, accepted], ?_⟩
    rw [rioWriten, same]
    exact goes
  · obtain ⟨bound, above⟩ := finite.bddAbove
    have decisive : ∀ k, bound + 1 ≤ k → ¬ (outcomes k).Idle := fun k beyond idle =>
      absurd (above idle) (by omega)
    exact ⟨bound + 1 + n, writeLoop_returns memory n 0 n errno sink.written _ (countP_not_idle decisive n)⟩

/-- A stale interruption makes a `write()` of nothing be tried again. -/
theorem writen_exactly_once_stale :
    (rioWriten (fun _ => 65) 3 .other ⟨[.count 1, .error .eintr, .count 0, .count 7], []⟩).sink.written = bytes "AAA" ∧
      ∃ count, (rioWriten (fun _ => 65) 3 .other ⟨(List.range count).map fun _ => .count 1, []⟩).value ≠ none := by
  obtain ⟨exact, -, -, -⟩ := writen_exactly_once (fun _ => 65) 3 (by decide) .other
    ⟨[.count 1, .error .eintr, .count 0, .count 7], []⟩
  obtain ⟨-, -, -, returns⟩ := writen_exactly_once (fun _ => 65) 3 (by decide) .other ⟨[], []⟩
  refine ⟨?_, returns (fun _ => .count 1) (by simp [WriteOutcome.Idle])⟩
  obtain ⟨-, all⟩ | ⟨wrong, -⟩ := exact 3 (by decide)
  · rw [all]
    decide
  · cases wrong

end UnixProgramming.Csapp

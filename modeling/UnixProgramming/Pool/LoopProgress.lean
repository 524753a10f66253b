import UnixProgramming.Pool.LoopTrace

/-! `process_read` ends from every state of the parser. A turn of its loop consumes input
unless it is the first one in the body. -/

namespace UnixProgramming.Pool.HttpConn

open UnixProgramming.Lib

namespace LoopState
variable {fs : FileSystem} {state later : LoopState} {found : HttpConn} {turns : Nat}

/-- One turn, up to the end of the body. -/
theorem ready_progress (inside : state.conn.checkedIdx ≤ state.conn.readIdx) (ready : state.ready = some found) :
    (processLine fs found).2.readIdx = state.conn.readIdx ∧
      (processLine fs found).2.checkedIdx ≤ state.conn.readIdx ∧
      if state.Parses then state.conn.checkedIdx < (processLine fs found).2.checkedIdx
      else state.conn.checkState = .connect ∧ (processLine fs found).2.checkedIdx = state.conn.checkedIdx := by
  have condition := ready_eq_some.mp ready
  have indices := processLine_indices fs found
  simp only [HttpConn.indices, Prod.mk.injEq] at indices
  obtain ⟨readIdx, checkedIdx, -⟩ := indices
  rw [readIdx, checkedIdx]
  unfold loopCondition at condition
  by_cases parses : state.Parses
  · rw [if_neg (by exact parses)] at condition
    obtain ⟨more, within, same⟩ := parseLine_ok condition
    rw [if_pos parses]
    exact ⟨same, same ▸ within, more⟩
  · have direct := not_not.mp parses
    rw [if_pos direct] at condition
    cases condition
    rw [if_neg parses]
    exact ⟨rfl, inside, direct.1, rfl⟩

/-- Only in the body the loop goes on with a status other than `LINE_OK`. -/
def Resumed (state : LoopState) : Prop := state.status ≠ .ok → state.conn.checkState = .connect

/-- Where the loop goes on from the body, and from elsewhere. -/
theorem next_status (goes : state.next fs = some later) :
    (state.conn.checkState = .connect → later.conn.checkState = .connect ∧ later.status = .open) ∧
      (state.conn.checkState ≠ .connect → later.status = .ok) := by
  obtain ⟨ready, found, body⟩ := next_eq_some.mp goes
  have kept := loopCondition_checkState state.conn state.status
  rw [ready_eq_some.mp found] at kept
  change ready.checkState = state.conn.checkState at kept
  rw [← kept]
  refine ⟨fun inBody => ⟨?_, processLine_continue body inBody⟩, fun head => processLine_status body head⟩
  have stays : (processLine fs ready).2.checkState = .connect := processLine_connect inBody
  rwa [body] at stays

theorem Resumed.next (goes : state.next fs = some later) : later.Resumed := by
  obtain ⟨inBody, head⟩ := next_status goes
  intro stopped
  by_cases connect : state.conn.checkState = .connect
  · exact (inBody connect).1
  · exact absurd (head connect) stopped

/-- Once a turn in the body has gone on, every condition calls `parse_line`. -/
theorem visits_parse (inBody : state.conn.checkState = .connect) (opened : state.status = .open)
    (visited : later ∈ visits fs turns state) : later.Parses := by
  have holds := @visits_invariant fs (fun state => state.conn.checkState = .connect ∧ state.status = .open)
    (fun state later holds goes => (next_status goes).1 holds.1) turns state later ⟨inBody, opened⟩ visited
  intro direct
  rw [holds.2] at direct
  cases direct.2

/-- At most one condition does not call `parse_line`. -/
theorem visits_direct (fs : FileSystem) (turns : Nat) (state : LoopState) :
    (visits fs turns state).countP (fun state => ¬ state.Parses) ≤ 1 := by
  induction turns generalizing state with
  | zero => exact Nat.zero_le 1
  | succ turns ih =>
    rw [visits, List.countP_cons]
    cases goes : state.next fs with
    | none =>
      rw [Option.map_none, Option.getD_none, List.countP_nil]
      split_ifs <;> omega
    | some later =>
      rw [Option.map_some, Option.getD_some]
      by_cases parses : state.Parses
      · have rest := ih later
        rw [if_neg (by simpa using parses)]
        omega
      · have direct := not_not.mp parses
        obtain ⟨inBody, opened⟩ := (next_status goes).1 direct.1
        have none : (visits fs turns later).countP (fun state => ¬ state.Parses) = 0 := by
          rw [List.countP_eq_zero]
          intro other visited
          simpa using visits_parse inBody opened visited
        rw [none]
        split_ifs <;> omega

/-- The turns that are left at most: one for each byte, and one that consumes none. -/
def budget (state : LoopState) : Nat :=
  (state.conn.readIdx - state.conn.checkedIdx) + if state.status = .ok then 1 else 0

theorem budget_lt (inside : state.conn.checkedIdx ≤ state.conn.readIdx) (resumed : state.Resumed)
    (goes : state.next fs = some later) :
    later.budget < state.budget ∧ later.conn.checkedIdx ≤ later.conn.readIdx := by
  obtain ⟨ready, found, body⟩ := next_eq_some.mp goes
  obtain ⟨inBody, head⟩ := next_status goes
  have progress := @ready_progress fs state ready inside found
  rw [body] at progress
  dsimp only at progress
  obtain ⟨readIdx, within, progress⟩ := progress
  refine ⟨?_, readIdx ▸ within⟩
  unfold budget
  rw [readIdx]
  by_cases parses : state.Parses
  · rw [if_pos parses] at progress
    by_cases connect : state.conn.checkState = .connect
    · rw [(inBody connect).2, if_neg nofun]
      omega
    · have ok : state.status = .ok := by
        by_contra stopped
        exact connect (resumed stopped)
      rw [head connect, ok, if_pos rfl]
      omega
  · rw [if_neg parses] at progress
    have direct := not_not.mp parses
    rw [(inBody direct.1).2, direct.2, progress.2, if_neg nofun, if_pos rfl]
    omega

/-- The loop comes to a place where it ends. -/
theorem visits_end (inside : state.conn.checkedIdx ≤ state.conn.readIdx) (resumed : state.Resumed)
    (enough : state.budget < turns) :
    ∃ last ∈ visits fs turns state, last.next fs = none ∧
      processReadLoop fs state.conn state.status = last.result fs := by
  induction turns generalizing state with
  | zero => exact absurd enough (Nat.not_lt_zero _)
  | succ turns ih =>
    rw [visits, processReadLoop_next]
    cases goes : state.next fs with
    | none => exact ⟨state, List.mem_cons_self, goes, rfl⟩
    | some later =>
      obtain ⟨fewer, within⟩ := budget_lt inside resumed goes
      obtain ⟨last, visited, ends, same⟩ := ih within (Resumed.next goes) (by omega)
      exact ⟨last, List.mem_cons_of_mem state visited, ends, same⟩

end LoopState

/-- `process_read` ends from every state of the parser. Every turn of its loop moves
`m_checked_idx` on, and not past `m_read_idx`, but for at most one in the body that does not
call `parse_line`; so there are at most as many turns as unchecked bytes, that one, and the
evaluation of the condition that ends the loop. -/
theorem process_read_terminates (fs : FileSystem) (conn : HttpConn) (inside : conn.checkedIdx ≤ conn.readIdx) :
    (∃ last ∈ LoopState.visits fs (conn.readIdx - conn.checkedIdx + 2) ⟨conn, .ok⟩,
      last.next fs = none ∧ processRead fs conn = last.result fs) ∧
    ∀ turns,
      (∀ state ∈ LoopState.visits fs turns ⟨conn, .ok⟩, ∀ ready, state.ready = some ready →
        (processLine fs ready).2.readIdx = conn.readIdx ∧ (processLine fs ready).2.checkedIdx ≤ conn.readIdx ∧
          if state.Parses then state.conn.checkedIdx < (processLine fs ready).2.checkedIdx
          else state.conn.checkState = .connect ∧ (processLine fs ready).2.checkedIdx = state.conn.checkedIdx) ∧
      (LoopState.visits fs turns ⟨conn, .ok⟩).countP (fun state => ¬ state.Parses) ≤ 1 := by
  refine ⟨?_, fun turns => ⟨fun state visited ready found => ?_, LoopState.visits_direct fs turns _⟩⟩
  · refine LoopState.visits_end inside (fun stopped => absurd rfl stopped) ?_
    rw [LoopState.budget, if_pos rfl]
    exact Nat.lt_succ_self _
  · have holds := @LoopState.visits_invariant fs
      (fun state => state.conn.checkedIdx ≤ state.conn.readIdx ∧ state.conn.readIdx = conn.readIdx)
      (fun state later holds goes => by
        obtain ⟨ready, found, body⟩ := LoopState.next_eq_some.mp goes
        have progress := @LoopState.ready_progress fs state ready holds.1 found
        rw [body] at progress
        exact ⟨progress.1 ▸ progress.2.1, progress.1.trans holds.2⟩) turns _ state ⟨inside, rfl⟩ visited
    have progress := @LoopState.ready_progress fs state ready holds.1 found
    rwa [holds.2] at progress

/-- A body of two empty lines, of which the parser has seen nothing. -/
theorem process_read_terminates_body :
    ∃ last ∈ LoopState.visits ⟨fun _ => none, fun _ => none⟩ 6
        ⟨{ zeroed with readBuf := bytes "\r\n\r\n", checkState := .connect, contentLength := 9 }, .ok⟩,
      last.next ⟨fun _ => none, fun _ => none⟩ = none := by
  obtain ⟨⟨last, visited, ends, -⟩, -⟩ := process_read_terminates ⟨fun _ => none, fun _ => none⟩
    { zeroed with readBuf := bytes "\r\n\r\n", checkState := .connect, contentLength := 9 } (by decide)
  exact ⟨last, visited, ends⟩

end UnixProgramming.Pool.HttpConn

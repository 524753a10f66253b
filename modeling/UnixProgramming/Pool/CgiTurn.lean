import UnixProgramming.Pool.CgiConn

/-! One iteration of the loop of `process()`, for the runs in which other clients send
between two of its `recv`s. -/

namespace UnixProgramming.Pool

open UnixProgramming.Lib HttpConn

/-- The rest of an iteration that has stored bytes by `call`, with the place where the search for
CR LF has stopped. -/
def CgiConn.scanned (access : List UInt8 → Bool) (fork : Bool) (conn : CgiConn) (idx : Nat) (call : CgiCall) :
    CgiResult × Bool :=
  if idx = conn.readIdx then (⟨conn, [call], true⟩, true)
  else
    let result := conn.execute access fork idx
    ({ result with calls := call :: result.calls }, false)

/-- What one iteration leaves and calls, and whether the loop goes on. -/
def CgiConn.turn (access : List UInt8 → Bool) (fork : Bool) (conn : CgiConn) (outcome : Recv) : CgiResult × Bool :=
  match received conn.room outcome with
  | .data (byte :: bytes) =>
    let next := conn.store (byte :: bytes)
    scanned access fork next (scan (byte :: bytes).length next.buf conn.readIdx) (.recv conn.room (.data (byte :: bytes)))
  | ended => (conn.finish ended, false)

variable {access : List UInt8 → Bool} {fork : Bool} {received : List UInt8} {state : CgiResult}

/-- `process()` is its iterations one after the other. -/
theorem CgiConn.process_cons (conn : CgiConn) (outcome : Recv) (rest : List Recv) :
    conn.process access fork (outcome :: rest) =
      if (conn.turn access fork outcome).2 then
        (conn.turn access fork outcome).1.after ((conn.turn access fork outcome).1.conn.process access fork rest)
      else (conn.turn access fork outcome).1 := by
  unfold CgiConn.turn
  rw [CgiConn.process]
  split
  · unfold CgiConn.scanned
    dsimp only
    split_ifs <;> simp_all [CgiResult.after]
  · simp

theorem CgiConn.process_nil (conn : CgiConn) :
    conn.process access fork [] = (conn.turn access fork .again).1 := by
  have empty : ∀ byte bytes, CgiConn.received conn.room .again ≠ .data (byte :: bytes) := by
    intro byte bytes
    unfold CgiConn.received
    split_ifs <;> simp
  rw [CgiConn.process, CgiConn.turn]
  split
  · next byte bytes brings => exact (empty byte bytes brings).elim
  · rfl

/-- An iteration that goes on has stored bytes without a line among them. -/
structure Reading.Continues (received : List UInt8) (state : CgiResult) (turn : CgiResult × Bool) : Prop where
  continues : turn.2 = true
  connected : turn.1.connected = true
  reading : ∃ more, Reading (received ++ more) (state.after turn.1)

/-- An iteration that stores bytes goes on reading or runs the request. -/
theorem Reading.turn_data (reading : Reading received state) (connected : state.connected = true) {outcome : Recv}
    {byte : UInt8} {bytes : List UInt8} (brings : CgiConn.received state.conn.room outcome = .data (byte :: bytes)) :
    Reading.Continues received state (state.conn.turn access fork outcome) ∨
      (state.conn.turn access fork outcome).2 = false ∧
        ∃ all, Executed all (state.after (state.conn.turn access fork outcome).1) := by
  have short := CgiConn.received_data brings
  have fits : (received ++ byte :: bytes).length ≤ CgiConn.bufferSize - 1 := by
    have before := reading.fits
    have room := reading.room
    rw [List.length_append]
    omega
  have stored : state.conn.store (byte :: bytes) = .holding (received ++ byte :: bytes) := by
    rw [reading.held]
    exact CgiConn.holding_append received (byte :: bytes)
  have start : state.conn.readIdx = received.length := by rw [reading.held, CgiConn.holding]
  rw [CgiConn.turn, brings]
  dsimp only
  rw [stored, start, CgiConn.scanned]
  rcases CgiConn.scan_holding reading.none with ⟨all, none⟩ | ⟨line, first, here⟩
  · have behind : (received ++ byte :: bytes).length = (CgiConn.holding (received ++ byte :: bytes)).readIdx := rfl
    rw [all, if_pos behind]
    exact .inl ⟨rfl, rfl, byte :: bytes, reading.extend connected (List.cons_ne_nil _ _) fits none⟩
  · have inside : line.length + 1 ≠ (CgiConn.holding (received ++ byte :: bytes)).readIdx := by
      obtain ⟨tail, whole⟩ := first.split
      have length := congrArg List.length whole
      simp only [List.length_append, List.length_cons] at length
      simp only [CgiConn.holding, List.length_append, List.length_cons]
      omega
    rw [here, if_neg inside]
    have done : Executed _ (CgiResult.after _ (CgiConn.execute access fork _ _)) := reading.execute fits first
    refine .inr ⟨rfl, received ++ byte :: bytes, ?_⟩
    simpa only [CgiResult.after, List.append_assoc, List.singleton_append] using done

/-- The bytes a `recv` has brought. -/
def Recv.bytes : Recv → List UInt8
  | .data bytes => bytes
  | _ => []

theorem arrived_cons (length : Nat) (bytes : List UInt8) (calls : List CgiCall) :
    arrived (.recv length (.data bytes) :: calls) = bytes ++ arrived calls := by
  simp [arrived]

theorem arrived_turn (conn : CgiConn) (outcome : Recv) :
    arrived (conn.turn access fork outcome).1.calls = Recv.bytes (CgiConn.received conn.room outcome) := by
  unfold CgiConn.turn
  split
  · next byte bytes brings =>
    rw [brings, CgiConn.scanned, Recv.bytes]
    split_ifs
    · rw [arrived_cons]
      simp [arrived]
    · rw [CgiConn.execute]
      dsimp only
      rw [arrived_cons, arrived_executed, List.append_nil]
  · next none =>
    cases brings : CgiConn.received conn.room outcome with
    | data bytes =>
      cases bytes with
      | nil => rfl
      | cons byte bytes => exact (none byte bytes brings).elim
    | again => rfl
    | error => rfl

theorem count_removefd_scanned (conn : CgiConn) (idx : Nat) {call : CgiCall} (other : call ≠ .removefd) :
    (conn.scanned access fork idx call).1.calls.count .removefd =
      if (conn.scanned access fork idx call).1.connected = true then 0 else 1 := by
  by_cases all : idx = conn.readIdx
  · simp [CgiConn.scanned, all, other]
  · simp only [CgiConn.scanned, all, if_false, CgiConn.execute, CgiConn.executed]
    split_ifs <;> simp_all

/-- An iteration calls `removefd` once if it gives up the descriptor, otherwise not. -/
theorem count_removefd_turn (conn : CgiConn) (outcome : Recv) :
    (conn.turn access fork outcome).1.calls.count .removefd =
      if (conn.turn access fork outcome).1.connected = true then 0 else 1 := by
  unfold CgiConn.turn
  split
  · exact count_removefd_scanned _ _ (by simp)
  · cases CgiConn.received conn.room outcome <;> simp [CgiConn.finish]

end UnixProgramming.Pool

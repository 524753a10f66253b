import Mathlib.Data.List.GetD
import UnixProgramming.Lib.Run
import UnixProgramming.Pool.HttpConn

/-! The connection object `cgi_conn` of the CGI server. A request is one line; the program it
names is run by a child process that has the socket as its standard output. -/

namespace UnixProgramming.Pool

open UnixProgramming.Lib HttpConn

/-- `m_buf`, all of it, and `m_read_idx`; the descriptors and the address are left out. -/
structure CgiConn where
  buf : List UInt8
  readIdx : Nat
deriving DecidableEq, Repr

/-- The system calls of `process()` on the connection, with what they return. `execl` is the
child's. -/
inductive CgiCall where
  | recv (length : Nat) (result : Recv)
  | access (path : List UInt8) (found : Bool)
  | fork (created : Bool)
  | execl (path : List UInt8)
  | removefd
deriving DecidableEq, Repr

/-- How `process()` leaves the object, the calls it made, and whether the descriptor is still open. -/
structure CgiResult where
  conn : CgiConn
  calls : List CgiCall
  connected : Bool
deriving DecidableEq, Repr

namespace CgiConn

def bufferSize : Nat := 1024

def init : CgiConn where
  buf := List.replicate bufferSize 0
  readIdx := 0

/-- The loop that looks for CR LF, over so many bytes: the value of `idx` after it. -/
def scan : Nat → List UInt8 → Nat → Nat
  | 0, _, idx => idx
  | left + 1, buf, idx =>
    if 1 ≤ idx ∧ buf.getD (idx - 1) 0 = 13 ∧ buf.getD idx 0 = 10 then idx else scan left buf (idx + 1)

/-- What `recv` returns when there is room for so many bytes; without any it returns 0. -/
def received (length : Nat) (outcome : Recv) : Recv :=
  if length = 0 then .data []
  else match outcome with
    | .data bytes => .data (bytes.take length)
    | other => other

/-- The calls once the name of the program is known. -/
def executed (access : List UInt8 → Bool) (fork : Bool) (fileName : List UInt8) : List CgiCall :=
  if access fileName = false then [.access fileName false, .removefd]
  else if fork then [.access fileName true, .fork true, .execl fileName, .removefd]
  else [.access fileName true, .fork false, .removefd]

/-- `process()` from the CR LF on, whose LF is at `idx`. -/
def execute (access : List UInt8 → Bool) (fork : Bool) (conn : CgiConn) (idx : Nat) : CgiResult :=
  let conn := { conn with buf := conn.buf.set (idx - 1) 0 }
  ⟨conn, executed access fork (str conn.buf 0), false⟩

/-- The part of the buffer `recv` may fill. -/
def room (conn : CgiConn) : Nat := bufferSize - 1 - conn.readIdx

/-- `recv` has filled a part of it. -/
def store (conn : CgiConn) (bytes : List UInt8) : CgiConn :=
  ⟨overwrite conn.buf conn.readIdx bytes, conn.readIdx + bytes.length⟩

/-- `process()` after a `recv` that brought no bytes. -/
def finish (conn : CgiConn) : Recv → CgiResult
  | .again => ⟨conn, [.recv conn.room .again], true⟩
  | ended => ⟨conn, [.recv conn.room ended, .removefd], false⟩

/-- The loop of `process()` over the outcomes of its `recv`s; when no more are given the socket is
empty. -/
def process (access : List UInt8 → Bool) (fork : Bool) (conn : CgiConn) : List Recv → CgiResult
  | [] => conn.finish (received conn.room .again)
  | outcome :: rest =>
    match received conn.room outcome with
    | .data (byte :: bytes) =>
      let next := conn.store (byte :: bytes)
      let idx := scan (byte :: bytes).length next.buf conn.readIdx
      let result := if idx = next.readIdx then process access fork next rest else next.execute access fork idx
      { result with calls := .recv conn.room (.data (byte :: bytes)) :: result.calls }
    | ended => conn.finish ended

end CgiConn

/-- What is outside the process during a call of `process()`: the outcomes of its `recv`s, the files
that exist, and whether `fork` succeeds. -/
structure CgiEvent where
  outcomes : List Recv
  access : List UInt8 → Bool
  fork : Bool

namespace CgiResult

/-- A connection after `init`. -/
def start : CgiResult := ⟨.init, [], true⟩

/-- A call of `process()`, as long as the descriptor is open. -/
def step (state : CgiResult) (event : CgiEvent) : Option CgiResult :=
  if state.connected then
    let result := state.conn.process event.access event.fork event.outcomes
    some { result with calls := state.calls ++ result.calls }
  else none

end CgiResult

/-! ## The first line -/

/-- The line before the first CR LF of a stream. -/
structure FirstLine (stream line : List UInt8) : Prop where
  split : ∃ rest, stream = line ++ 13 :: 10 :: rest
  first : ∀ other rest, stream = other ++ 13 :: 10 :: rest → line.length ≤ other.length

def NoLine (stream : List UInt8) : Prop := ∀ line rest, stream ≠ line ++ 13 :: 10 :: rest

/-- A line that ends in the front part of a stream is a line of that part. -/
theorem line_within {front stream line rest : List UInt8} (starts : front <+: stream)
    (split : stream = line ++ 13 :: 10 :: rest) (long : line.length + 2 ≤ front.length) :
    ∃ tail, front = line ++ 13 :: 10 :: tail := by
  have ended : line ++ [13, 10] <+: stream := ⟨rest, by rw [split]; simp⟩
  obtain ⟨tail, whole⟩ := List.prefix_of_prefix_length_le ended starts (by simpa using long)
  exact ⟨tail, by rw [← whole]; simp⟩

namespace CgiConn

/-- The test of the loop that looks for CR LF. -/
def EndsAt (buf : List UInt8) (idx : Nat) : Prop := 1 ≤ idx ∧ buf.getD (idx - 1) 0 = 13 ∧ buf.getD idx 0 = 10

instance (buf : List UInt8) (idx : Nat) : Decidable (EndsAt buf idx) :=
  inferInstanceAs (Decidable (_ ∧ _))

/-- The loop stops at the first place where the test succeeds, or behind the bytes. -/
theorem scan_spec (left : Nat) (buf : List UInt8) (idx : Nat) :
    idx ≤ scan left buf idx ∧ scan left buf idx ≤ idx + left ∧
      (∀ place, idx ≤ place → place < scan left buf idx → ¬ EndsAt buf place) ∧
      (scan left buf idx < idx + left → EndsAt buf (scan left buf idx)) := by
  induction left generalizing idx with
  | zero =>
    refine ⟨le_rfl, le_rfl, fun place start below => ?_, fun below => ?_⟩
    · exact absurd (start.trans_lt below) (lt_irrefl idx)
    · exact absurd below (lt_irrefl idx)
  | succ left ih =>
    rw [scan]
    split_ifs with here
    · exact ⟨le_rfl, by omega, fun place start below => by omega, fun _ => here⟩
    · obtain ⟨after, before, none, some⟩ := ih (idx + 1)
      refine ⟨by omega, by omega, fun place start below => ?_, fun below => some (by omega)⟩
      rcases Nat.eq_or_lt_of_le start with rfl | later
      · exact here
      · exact none place later below

theorem getD_padded (text : List UInt8) (count idx : Nat) :
    (text ++ List.replicate count 0).getD idx 0 = text.getD idx 0 := by
  by_cases inside : idx < text.length
  · rw [List.getD_append _ _ _ _ inside]
  · rw [List.getD_append_right _ _ _ _ (by omega), List.getD_eq_default text _ (by omega),
      List.getD_eq_getElem?_getD]
    exact List.getElem?_getD_replicate_default_eq _ _ _

theorem drop_of_getD {text : List UInt8} {idx : Nat} {byte : UInt8} (nonzero : byte ≠ 0)
    (here : text.getD idx 0 = byte) : text.drop idx = byte :: text.drop (idx + 1) := by
  have inside : idx < text.length := by
    by_contra outside
    rw [List.getD_eq_default _ _ (by omega)] at here
    exact nonzero here.symm
  rw [List.getD_eq_getElem _ _ inside] at here
  rw [List.drop_eq_getElem_cons inside, here]

/-- The test succeeds at the LF of each CR LF in the bytes received. -/
theorem endsAt_iff {text : List UInt8} {idx count : Nat} :
    EndsAt (text ++ List.replicate count 0) idx ↔
      ∃ line rest, text = line ++ 13 :: 10 :: rest ∧ line.length + 1 = idx := by
  unfold EndsAt
  rw [getD_padded, getD_padded]
  constructor
  · rintro ⟨positive, cr, lf⟩
    have first := drop_of_getD (by decide) cr
    rw [Nat.sub_add_cancel positive] at first
    have second := drop_of_getD (by decide) lf
    have inside : idx - 1 < text.length := by
      by_contra outside
      rw [List.drop_of_length_le (by omega)] at first
      cases first
    refine ⟨text.take (idx - 1), text.drop (idx + 1), ?_, ?_⟩
    · rw [← second, ← first, List.take_append_drop]
    · rw [List.length_take]
      omega
  · rintro ⟨line, rest, rfl, rfl⟩
    simp

/-- A buffer that holds the bytes received and NULs behind them. -/
def holding (received : List UInt8) : CgiConn :=
  ⟨received ++ List.replicate (bufferSize - received.length) 0, received.length⟩

/-- What `recv` stores behind the bytes received is held with them. -/
theorem holding_append (received more : List UInt8) :
    (holding received).store more = holding (received ++ more) := by
  have split : overwrite (holding received).buf received.length more =
      received ++ (more ++ List.replicate (bufferSize - (received.length + more.length)) 0) := by
    rw [overwrite, holding, List.take_left, ← List.drop_drop, List.drop_left, List.drop_replicate, Nat.sub_sub]
  simp only [store, holding, List.length_append] at split ⊢
  rw [split, List.append_assoc]

/-- The scan of new bytes, which also looks at the last one of before, finds the first CR LF of all
bytes received if there was none before. -/
theorem scan_holding {received more : List UInt8} (none : NoLine received) :
    (scan more.length (holding (received ++ more)).buf received.length = (received ++ more).length ∧
      NoLine (received ++ more)) ∨
    ∃ line, FirstLine (received ++ more) line ∧
      scan more.length (holding (received ++ more)).buf received.length = line.length + 1 := by
  obtain ⟨after, before, clean, found⟩ := scan_spec more.length (holding (received ++ more)).buf received.length
  generalize scan more.length (holding (received ++ more)).buf received.length = idx at *
  have early : ∀ place < idx, ¬ EndsAt (holding (received ++ more)).buf place := by
    intro place below ends
    by_cases new : received.length ≤ place
    · exact clean place new below ends
    · obtain ⟨line, rest, whole, rfl⟩ := endsAt_iff.mp ends
      obtain ⟨tail, same⟩ := line_within (List.prefix_append received more) whole (by omega)
      exact none line tail same
  rw [List.length_append]
  rcases Nat.eq_or_lt_of_le before with all | some
  · refine .inl ⟨all, fun line rest whole => ?_⟩
    refine early (line.length + 1) ?_ (endsAt_iff.mpr ⟨line, rest, whole, rfl⟩)
    have length := congrArg List.length whole
    simp only [List.length_append, List.length_cons] at length
    omega
  · obtain ⟨line, rest, whole, rfl⟩ := endsAt_iff.mp (found some)
    refine .inr ⟨line, ⟨⟨rest, whole⟩, fun other tail same => ?_⟩, rfl⟩
    by_contra shorter
    exact early (other.length + 1) (by omega) (endsAt_iff.mpr ⟨other, tail, same, rfl⟩)

/-- The name that is left in the buffer once a NUL is written over the CR. -/
theorem str_cut {stream line : List UInt8} (first : FirstLine stream line) :
    str ((holding stream).buf.set line.length 0) 0 = line.takeWhile (· ≠ 0) := by
  obtain ⟨rest, rfl⟩ := first.split
  have written : (holding (line ++ 13 :: 10 :: rest)).buf.set line.length 0 = line ++ 0 :: 10 :: (rest ++
      List.replicate (bufferSize - (line ++ 13 :: 10 :: rest).length) 0) := by
    simp [holding]
  rw [written, str, List.drop_zero, List.takeWhile_append]
  split_ifs with all
  · rw [List.takeWhile_cons_of_neg (by simp), List.append_nil]
    exact (List.IsPrefix.eq_of_length (List.takeWhile_prefix _) all).symm
  · rfl

theorem received_again {length : Nat} {outcome : Recv} (waits : received length outcome = .again) :
    0 < length := by
  unfold received at waits
  split_ifs at waits with full
  exact Nat.pos_of_ne_zero full

theorem received_data {length : Nat} {outcome : Recv} {bytes : List UInt8}
    (brings : received length outcome = .data bytes) : bytes.length ≤ length := by
  unfold received at brings
  split_ifs at brings with full
  · cases brings
    exact Nat.zero_le _
  · cases outcome with
    | data offered =>
      cases brings
      exact List.length_take_le _ _
    | again => cases brings
    | error => cases brings

end CgiConn

/-! ## A call -/

/-- The bytes the `recv`s have brought. -/
def arrived (calls : List CgiCall) : List UInt8 :=
  (calls.map fun | .recv _ (.data bytes) => bytes | _ => []).flatten

/-- A `recv` that returned 0, or -1 for another reason than an empty socket. -/
def CgiCall.ended : CgiCall → Bool
  | .recv _ (.data bytes) => bytes = []
  | .recv _ .error => true
  | _ => false

/-- A call that looks for a program or runs it. -/
def CgiCall.executes : CgiCall → Bool
  | .access _ _ => true
  | .fork _ => true
  | .execl _ => true
  | _ => false

theorem arrived_append (calls more : List CgiCall) : arrived (calls ++ more) = arrived calls ++ arrived more := by
  simp [arrived]

/-- The request is not complete, or the connection was closed before it was. -/
structure Reading (received : List UInt8) (state : CgiResult) : Prop where
  bytes : arrived state.calls = received
  held : state.conn = .holding received
  none : NoLine received
  fits : received.length ≤ CgiConn.bufferSize - 1
  quiet : ∀ call ∈ state.calls, call.executes = false
  closed : state.connected = false ↔ ∃ call ∈ state.calls, call.ended = true
  removed : state.connected = false ↔ .removefd ∈ state.calls

/-- The request is complete, and its program was looked for, once. -/
structure Executed (received : List UInt8) (state : CgiResult) : Prop where
  bytes : arrived state.calls = received
  fits : received.length ≤ CgiConn.bufferSize - 1
  line : ∃ line, FirstLine received line ∧ state.conn.readIdx = received.length ∧
    state.conn.buf = (CgiConn.holding received).buf.set line.length 0 ∧
    ∃ reads access fork, state.calls = reads ++ CgiConn.executed access fork (line.takeWhile (· ≠ 0)) ∧
      ∀ call ∈ reads, call.executes = false
  closed : state.connected = false

theorem arrived_executed (access : List UInt8 → Bool) (fork : Bool) (name : List UInt8) :
    arrived (CgiConn.executed access fork name) = [] := by
  unfold CgiConn.executed
  split_ifs
  all_goals rfl

variable {received : List UInt8} {state : CgiResult} {access : List UInt8 → Bool} {fork : Bool}

/-- The state after further calls, with the ones of before. -/
def CgiResult.after (state : CgiResult) (result : CgiResult) : CgiResult :=
  { result with calls := state.calls ++ result.calls }

theorem Reading.start : Reading [] .start where
  bytes := rfl
  held := rfl
  none := fun line rest same => by simp at same
  fits := by decide
  quiet := by simp [CgiResult.start]
  closed := by simp [CgiResult.start]
  removed := by simp [CgiResult.start]

/-- A `recv` that returns 0 or fails closes the connection. -/
theorem Reading.close (reading : Reading received state) {outcome : Recv}
    (ended : (CgiCall.recv state.conn.room outcome).ended = true)
    (none : arrived [CgiCall.recv state.conn.room outcome, .removefd] = []) :
    Reading received (state.after ⟨state.conn, [.recv state.conn.room outcome, .removefd], false⟩) := by
  refine ⟨?_, reading.held, reading.none, reading.fits, ?_, ?_, ?_⟩
  · rw [CgiResult.after, arrived_append, none, List.append_nil, reading.bytes]
  · simpa [CgiResult.after, CgiCall.executes, or_imp, forall_and] using reading.quiet
  · refine iff_of_true rfl ⟨.recv state.conn.room outcome, ?_, ended⟩
    simp [CgiResult.after]
  · exact iff_of_true rfl (by simp [CgiResult.after])

/-- A `recv` without bytes ends the call; the connection stays open if the socket was only empty. -/
theorem Reading.finish (reading : Reading received state) (connected : state.connected = true) {outcome : Recv}
    (none : ∀ byte bytes, outcome ≠ .data (byte :: bytes)) :
    Reading received (state.after (state.conn.finish outcome)) ∧
      ((state.after (state.conn.finish outcome)).connected = true → outcome = .again) := by
  cases outcome with
  | again =>
    obtain ⟨bytes, held, noLine, fits, quiet, closed, removed⟩ := reading
    rw [connected] at closed removed
    refine ⟨⟨?_, held, noLine, fits, ?_, ?_, ?_⟩, fun _ => rfl⟩
    · simpa [CgiResult.after, CgiConn.finish, arrived] using bytes
    · simpa [CgiResult.after, CgiConn.finish, CgiCall.executes, or_imp, forall_and] using quiet
    · simpa [CgiResult.after, CgiConn.finish, CgiCall.ended] using closed
    · simpa [CgiResult.after, CgiConn.finish] using removed
  | error => exact ⟨reading.close rfl rfl, fun still => by cases still⟩
  | data offered =>
    cases offered with
    | cons byte bytes => exact (none byte bytes rfl).elim
    | nil => exact ⟨reading.close rfl rfl, fun still => by cases still⟩

/-- A `recv` with bytes and no CR LF up to their end. -/
theorem Reading.extend (reading : Reading received state) (connected : state.connected = true) {more : List UInt8}
    (some : more ≠ []) (fits : (received ++ more).length ≤ CgiConn.bufferSize - 1) (none : NoLine (received ++ more)) :
    Reading (received ++ more)
      ⟨.holding (received ++ more), state.calls ++ [.recv state.conn.room (.data more)], true⟩ := by
  obtain ⟨bytes, held, -, -, quiet, closed, removed⟩ := reading
  rw [connected] at closed removed
  refine ⟨?_, rfl, none, fits, ?_, ?_, ?_⟩
  · rw [arrived_append, bytes]
    simp [arrived]
  · simpa [CgiCall.executes, or_imp, forall_and] using quiet
  · simpa [CgiCall.ended, some] using closed
  · simpa using removed

/-- A `recv` with bytes that complete the request. -/
theorem Reading.execute (reading : Reading received state) {more line : List UInt8}
    (fits : (received ++ more).length ≤ CgiConn.bufferSize - 1) (first : FirstLine (received ++ more) line) :
    Executed (received ++ more) (CgiResult.after
      ⟨.holding (received ++ more), state.calls ++ [.recv state.conn.room (.data more)], true⟩
      ((CgiConn.holding (received ++ more)).execute access fork (line.length + 1))) := by
  have name := CgiConn.str_cut first
  refine ⟨?_, fits, ⟨line, first, rfl, rfl, state.calls ++ [.recv state.conn.room (.data more)], access, fork, ?_, ?_⟩, rfl⟩
  · rw [CgiResult.after, CgiConn.execute, arrived_append, arrived_executed, arrived_append, reading.bytes]
    simp [arrived]
  · simp only [CgiResult.after, CgiConn.execute, Nat.add_sub_cancel, name]
  · simpa [CgiCall.executes, or_imp, forall_and] using reading.quiet

/-- Where the connection is between the calls of `process()`. -/
inductive CgiResult.Standing (state : CgiResult) : Prop where
  | reading (received : List UInt8) (reading : Reading received state)
    (short : state.connected = true → received.length < CgiConn.bufferSize - 1)
  | executed (received : List UInt8) (executed : Executed received state)

theorem Reading.room (reading : Reading received state) :
    state.conn.room = CgiConn.bufferSize - 1 - received.length := by
  rw [CgiConn.room, reading.held, CgiConn.holding]

/-- A call that ends without bytes leaves the connection open only if there was room for some. -/
theorem Reading.ends (reading : Reading received state) (connected : state.connected = true) {outcome : Recv}
    (none : ∀ byte bytes, CgiConn.received state.conn.room outcome ≠ .data (byte :: bytes)) :
    (state.after (state.conn.finish (CgiConn.received state.conn.room outcome))).Standing := by
  obtain ⟨stays, waits⟩ := reading.finish connected none
  refine .reading received stays fun still => ?_
  have roomy := CgiConn.received_again (waits still)
  have room := reading.room
  omega

/-- By induction on the outcomes; in the middle of a call the buffer may be full. -/
theorem Reading.process (reading : Reading received state) (connected : state.connected = true)
    (outcomes : List Recv) : (state.after (state.conn.process access fork outcomes)).Standing := by
  induction outcomes generalizing received state with
  | nil =>
    refine reading.ends connected fun byte bytes => ?_
    unfold CgiConn.received
    split_ifs <;> simp
  | cons outcome rest ih =>
    rw [CgiConn.process]
    split
    · next byte bytes brings =>
      have short := CgiConn.received_data brings
      have some : byte :: bytes ≠ [] := List.cons_ne_nil _ _
      generalize byte :: bytes = more at *
      have fits : (received ++ more).length ≤ CgiConn.bufferSize - 1 := by
        have before := reading.fits
        have room := reading.room
        rw [List.length_append]
        omega
      have stored : state.conn.store more = .holding (received ++ more) := by
        rw [reading.held]
        exact CgiConn.holding_append received more
      have start : state.conn.readIdx = received.length := by rw [reading.held, CgiConn.holding]
      dsimp only
      rw [stored, start]
      rcases CgiConn.scan_holding reading.none with ⟨all, none⟩ | ⟨line, first, here⟩
      · have behind : (received ++ more).length = (CgiConn.holding (received ++ more)).readIdx := rfl
        rw [all, if_pos behind]
        have later := ih (reading.extend connected some fits none) rfl
        simpa only [CgiResult.after, List.append_assoc, List.singleton_append] using later
      · have inside : line.length + 1 ≠ (CgiConn.holding (received ++ more)).readIdx := by
          obtain ⟨tail, whole⟩ := first.split
          have length := congrArg List.length whole
          simp only [List.length_append, List.length_cons] at length
          simp only [CgiConn.holding, List.length_append]
          omega
        rw [here, if_neg inside]
        have done : Executed _ (CgiResult.after _ (CgiConn.execute access fork _ _)) := reading.execute fits first
        refine .executed (received ++ more) ?_
        simpa only [CgiResult.after, List.append_assoc, List.singleton_append] using done
    · next none => exact reading.ends connected none

theorem CgiResult.Standing.start : Standing .start := .reading [] .start fun _ => by decide

theorem CgiResult.Standing.step {next : CgiResult} {event : CgiEvent} (standing : state.Standing)
    (taken : state.step event = some next) : next.Standing := by
  unfold CgiResult.step at taken
  split_ifs at taken with connected
  cases taken
  cases standing with
  | reading received reading short => exact reading.process connected event.outcomes
  | executed received executed =>
    have closed := executed.closed
    rw [connected] at closed
    cases closed

/-! ## The connection -/

theorem FirstLine.unique {stream line other : List UInt8} (first : FirstLine stream line)
    (also : FirstLine stream other) : line = other := by
  obtain ⟨rest, whole⟩ := first.split
  obtain ⟨tail, same⟩ := also.split
  have length := Nat.le_antisymm (first.first other tail same) (also.first line rest whole)
  exact (List.append_inj (whole.symm.trans same) length).1

/-- The first line of a stream is there as soon as its CR LF is. -/
theorem FirstLine.mono {front stream line : List UInt8} (first : FirstLine front line) (starts : front <+: stream) :
    FirstLine stream line := by
  obtain ⟨rest, rfl⟩ := first.split
  obtain ⟨more, rfl⟩ := starts
  refine ⟨⟨rest ++ more, by simp⟩, fun other tail same => ?_⟩
  by_contra shorter
  obtain ⟨tail, within⟩ := line_within (List.prefix_append _ more) same (by simp; omega)
  exact shorter (first.first other tail within)

/-- The buffer is not overrun, and the string in it ends. -/
def CgiConn.Sound (conn : CgiConn) : Prop :=
  conn.readIdx ≤ bufferSize - 1 ∧ conn.buf.length = bufferSize ∧ Terminated conn.buf 0

theorem CgiConn.holding_sound (fits : received.length ≤ bufferSize - 1) : (holding received).Sound := by
  have bound : bufferSize = 1024 := rfl
  refine ⟨fits, ?_, ?_⟩
  · simp only [holding, List.length_append, List.length_replicate]
    omega
  · rw [Terminated, List.drop_zero, holding, List.mem_append, List.mem_replicate]
    exact .inr ⟨by omega, rfl⟩

theorem CgiResult.Standing.sound (standing : state.Standing) : state.conn.Sound := by
  cases standing with
  | reading received reading short =>
    rw [reading.held]
    exact CgiConn.holding_sound reading.fits
  | executed received executed =>
    obtain ⟨-, size, ends⟩ := CgiConn.holding_sound executed.fits
    obtain ⟨line, -, index, buffer, -⟩ := executed.line
    refine ⟨?_, ?_, ?_⟩
    · rw [index]
      exact executed.fits
    · rw [buffer, List.length_set, size]
    · rw [buffer]
      exact ends.set _

/-- The path a call is made with. -/
def CgiCall.path? : CgiCall → Option (List UInt8)
  | .access path _ => some path
  | .execl path => some path
  | _ => none

def CgiCall.isFork : CgiCall → Bool
  | .fork _ => true
  | _ => false

theorem CgiCall.path?_quiet {call : CgiCall} (quiet : call.executes = false) :
    call.path? = none ∧ call.isFork = false := by
  cases call <;> simp_all [CgiCall.executes, CgiCall.path?, CgiCall.isFork]

/-- The calls that execute a request. -/
theorem executed_calls (access : List UInt8 → Bool) (fork : Bool) (name : List UInt8) :
    (∃ found, .access name found ∈ CgiConn.executed access fork name) ∧
      (∀ call ∈ CgiConn.executed access fork name, ∀ path ∈ call.path?, path = name) ∧
      (CgiConn.executed access fork name).countP CgiCall.isFork ≤ 1 := by
  unfold CgiConn.executed
  split_ifs
  all_goals simp [CgiCall.path?, CgiCall.isFork, List.countP_cons]

/-- The framing of the request, however the stream is cut into `recv`s and calls of `process()`.
The buffer is never overrun and stays a string. When the first CR LF of the stream has arrived, the
line before it, up to its first NUL, is the only program that is looked for or run, at most one
child is created, and the connection is closed. Without it nothing is run, and the connection is
closed once the buffer is full, at the end of the stream or on an error, and not before. -/
theorem cgi_request_framing {events : List CgiEvent} {stream : List UInt8}
    (reached : run CgiResult.step .start events = some state) (sent : arrived state.calls <+: stream) :
    state.conn.Sound ∧
    (∀ line, FirstLine stream line → line.length + 2 ≤ CgiConn.bufferSize - 1 →
      line.length + 2 ≤ (arrived state.calls).length →
      (∃ found, .access (line.takeWhile (· ≠ 0)) found ∈ state.calls) ∧
      (∀ call ∈ state.calls, ∀ path ∈ call.path?, path = line.takeWhile (· ≠ 0)) ∧
      state.calls.countP CgiCall.isFork ≤ 1 ∧ state.connected = false) ∧
    ((∀ line, FirstLine stream line → line.length + 2 ≤ CgiConn.bufferSize - 1 →
        ¬ line.length + 2 ≤ (arrived state.calls).length) →
      (∀ call ∈ state.calls, call.executes = false) ∧
      (state.connected = false ↔ .removefd ∈ state.calls) ∧
      (state.connected = false ↔ ∃ call ∈ state.calls, call.ended = true) ∧
      ((arrived state.calls).length = CgiConn.bufferSize - 1 → state.connected = false)) := by
  have standing : state.Standing := run_invariant (fun _ _ _ kept taken => kept.step taken) .start reached
  refine ⟨standing.sound, ?_⟩
  cases standing with
  | reading received reading short =>
    rw [reading.bytes] at sent ⊢
    refine ⟨fun line first _ arrived => ?_, fun _ => ⟨reading.quiet, reading.removed, reading.closed, fun full => ?_⟩⟩
    · obtain ⟨rest, whole⟩ := first.split
      obtain ⟨tail, within⟩ := line_within sent whole arrived
      exact (reading.none line tail within).elim
    · by_contra still
      have room := short (by simpa using still)
      omega
  | executed received executed =>
    rw [executed.bytes] at sent ⊢
    obtain ⟨line, first, -, -, reads, access, fork, calls, quiet⟩ := executed.line
    have whole := first.mono sent
    refine ⟨fun other also _ _ => ?_, fun absent => ?_⟩
    · obtain rfl := whole.unique also
      obtain ⟨⟨found, looked⟩, named, once⟩ := executed_calls access fork (line.takeWhile (· ≠ 0))
      have reading : reads.countP CgiCall.isFork = 0 :=
        List.countP_eq_zero.mpr fun call member => by simp [(CgiCall.path?_quiet (quiet call member)).2]
      rw [calls]
      refine ⟨⟨found, List.mem_append_right _ looked⟩, fun call member path is => ?_, ?_, executed.closed⟩
      · rcases List.mem_append.mp member with early | late
        · rw [(CgiCall.path?_quiet (quiet call early)).1] at is
          cases is
        · exact named call late path is
      · rw [List.countP_append, reading, Nat.zero_add]
        exact once
    · obtain ⟨rest, split⟩ := first.split
      have long : line.length + 2 ≤ received.length := by
        rw [split]
        simp
      exact (absent line whole (long.trans executed.fits) long).elim

/-- A CR at the end of one chunk and its LF in the next call, with a second line behind it. -/
theorem cgi_request_framing_cut :
    ∃ state, run CgiResult.step .start
        [⟨[.data (bytes "a"), .data [98, 13]], fun _ => true, true⟩, ⟨[.data (10 :: bytes "c\r\n")], fun _ => true, true⟩] =
        some state ∧ state.connected = false ∧ ∃ found, .access (bytes "ab") found ∈ state.calls := by
  have computed : (run CgiResult.step .start
      [⟨[.data (bytes "a"), .data [98, 13]], fun _ => true, true⟩, ⟨[.data (10 :: bytes "c\r\n")], fun _ => true, true⟩]).map
      (fun state => arrived state.calls) = some (bytes "ab\r\nc\r\n") := by decide +kernel
  obtain ⟨state, reached, bytes⟩ := Option.map_eq_some_iff.mp computed
  have first : FirstLine (Lib.bytes "ab\r\nc\r\n") (Lib.bytes "ab") := by
    refine ⟨⟨Lib.bytes "c\r\n", by decide⟩, fun other rest same => ?_⟩
    by_contra short
    have ends : CgiConn.EndsAt (Lib.bytes "ab\r\nc\r\n" ++ List.replicate 0 0) (other.length + 1) :=
      CgiConn.endsAt_iff.mpr ⟨other, rest, same, rfl⟩
    have early : other.length = 0 ∨ other.length = 1 := by
      have two : (Lib.bytes "ab").length = 2 := by decide
      omega
    rcases early with none | one
    · rw [none] at ends
      revert ends
      decide
    · rw [one] at ends
      revert ends
      decide
  have framed := (cgi_request_framing reached (bytes ▸ List.prefix_rfl)).2.1 _ (bytes ▸ first)
    (by decide +kernel) (by rw [bytes]; decide +kernel)
  exact ⟨state, reached, framed.2.2.2, framed.1⟩

end UnixProgramming.Pool

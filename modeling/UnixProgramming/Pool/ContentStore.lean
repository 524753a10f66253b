import UnixProgramming.Pool.BodyScan

/-! The store with which `pares_content` ends the body. Its place comes from the value of the
`Content-Length` header, which nothing bounds. -/

namespace UnixProgramming.Pool

open UnixProgramming.Lib

namespace HttpConn
variable {fs : FileSystem} {conn entry : HttpConn} {received : List UInt8} {lines : List (List UInt8)}

/-- A call of `pares_content` with a sum that is an `int`, and a store, if there is one, that is
behind the head of the request and inside `m_read_buf`. -/
def StoreInside (received : List UInt8) (call : HttpConn) : Prop :=
  ∃ lines, encodeLines lines <+: received ∧ Accepted lines .connect call.contentLength ∧
    -2 ^ 31 ≤ call.contentLength + call.checkedIdx ∧ call.contentLength + call.checkedIdx < 2 ^ 31 ∧
    (call.contentLength + call.checkedIdx ≤ call.readIdx →
      (encodeLines lines).length ≤ call.startLine + call.contentLength ∧
        call.startLine + call.contentLength < readBufferSize)

/-- Without a store only the upper bound of the sum matters. -/
theorem InBody.storeInside_short (inBody : conn.InBody received lines) (positive : 0 < conn.contentLength)
    (short : (conn.readIdx : Int) < conn.contentLength + conn.checkedIdx) :
    StoreInside received conn ↔ conn.contentLength + conn.checkedIdx < 2 ^ 31 := by
  constructor
  · rintro ⟨_, _, _, _, below, _⟩
    exact below
  · intro below
    exact ⟨lines, inBody.head, inBody.accepted, by omega, below, fun enough => (Int.not_le.mpr short enough).elim⟩

/-- With a store, its place. -/
theorem InBody.storeInside_enough (inBody : conn.InBody received lines) (positive : 0 < conn.contentLength)
    (room : received.length ≤ readBufferSize)
    (enough : conn.contentLength + conn.checkedIdx ≤ conn.readIdx) :
    StoreInside received conn ↔ conn.startLine + conn.contentLength ≠ readBufferSize := by
  have start := inBody.start
  have order := inBody.order
  have size := inBody.size
  have capacity : readBufferSize = 2048 := rfl
  constructor
  · rintro ⟨_, _, _, _, _, inside⟩
    have below := (inside enough).2
    omega
  · intro other
    exact ⟨lines, inBody.head, inBody.accepted, by omega, by omega, fun _ => ⟨by omega, by omega⟩⟩

/-- A negative length puts the store before the body. -/
theorem InBody.storeInside_negative (inBody : conn.InBody received lines)
    (fresh : conn.startLine = (encodeLines lines).length) (negative : conn.contentLength < 0) :
    ¬ StoreInside received conn := by
  rintro ⟨other, whole, accepted, -, -, inside⟩
  obtain ⟨body, split⟩ := whole
  obtain ⟨rfl, -⟩ := inBody.accepted.there inBody.head accepted (.connect _ body) split.symm
  have checked := inBody.facing.inside
  have behind := (inside (by omega)).1
  omega

/-! ## The places that the scan gets to -/

/-- The sum at every end of a line behind a place of the body is an `int`. -/
def LinesBelow (length : Int) (place : Nat) (rest : List UInt8) : Prop :=
  ∀ others tail, (∀ line ∈ others, ∀ byte ∈ line, inLine byte = true) → rest = encodeLines others ++ tail →
    length + (place + (encodeLines others).length : Nat) < 2 ^ 31

theorem LinesBelow.complete {length : Int} {place : Nat} {rest line after : List UInt8}
    (complete : Complete rest line after) :
    LinesBelow length place rest ↔
      length + place < 2 ^ 31 ∧ LinesBelow length (place + line.length + 2) after := by
  have size (others : List (List UInt8)) : place + (encodeLines (line :: others)).length =
      place + line.length + 2 + (encodeLines others).length := by
    simp [encodeLines_cons]
    omega
  constructor
  · intro below
    refine ⟨by simpa using below [] rest (by simp) rfl, fun others tail plain split => ?_⟩
    rw [← size]
    refine below (line :: others) tail (List.forall_mem_cons.mpr ⟨complete.1, plain⟩) ?_
    rw [complete.2, split]
    simp [encodeLines_cons]
  · rintro ⟨here, later⟩ others tail plain split
    match others with
    | [] => simpa using here
    | first :: others =>
      obtain ⟨plainFirst, plainOthers⟩ := List.forall_mem_cons.mp plain
      have also : Complete rest first (encodeLines others ++ tail) :=
        ⟨plainFirst, by rw [split, encodeLines_cons]; simp⟩
      obtain ⟨rfl, behind⟩ := complete.unique also
      rw [size]
      exact later others tail plainOthers behind

theorem LinesBelow.stuck {length : Int} {place : Nat} {rest : List UInt8} (stuck : Unfinished rest ∨ Malformed rest) :
    LinesBelow length place rest ↔ length + place < 2 ^ 31 := by
  constructor
  · intro below
    simpa using below [] rest (by simp) rfl
  · rintro here others tail plain split
    match others with
    | [] => simpa using here
    | first :: others =>
      have also : Complete rest first (encodeLines others ++ tail) :=
        ⟨plain first (by simp), by rw [split, encodeLines_cons]; simp⟩
      rcases stuck with unfinished | malformed
      · exact (also.not_unfinished unfinished).elim
      · exact (also.not_malformed malformed).elim

/-- The first call and the ones that the scan makes after it, when none of them stores anything.
By induction on the bytes that are left to scan. -/
theorem InBody.calls_open (fs : FileSystem) (inBody : conn.InBody received lines) (positive : 0 < conn.contentLength)
    (short : (conn.readIdx : Int) < conn.contentLength + conn.checkedIdx) :
    (conn.contentLength + conn.checkedIdx < 2 ^ 31 ∧ ∀ call ∈ contentCalls fs conn .open, StoreInside received call) ↔
      LinesBelow conn.contentLength conn.checkedIdx (received.drop conn.checkedIdx) := by
  obtain ⟨size, bound⟩ : ∃ size, conn.readIdx - conn.checkedIdx ≤ size := ⟨_, le_rfl⟩
  induction size using Nat.strong_induction_on generalizing conn with
  | _ size ih =>
    have condition := loopCondition_open conn
    rcases scan_cases (received.drop conn.checkedIdx) with ⟨line, after, complete⟩ | stuck
    · obtain ⟨ready, found, there, -, checked, -, length⟩ := inBody.complete complete
      have same := there.size.trans inBody.size.symm
      have later : (ready.readIdx : Int) < ready.contentLength + ready.checkedIdx := by omega
      have more : 0 < ready.contentLength := by omega
      have inside := there.facing.inside
      have behind : received.drop ready.checkedIdx = after := by
        rw [checked, Nat.add_assoc, ← List.drop_drop, complete.2]
        simp
      have further := ih (ready.readIdx - ready.checkedIdx) (by omega) there.moved more later le_rfl
      rw [contentCalls_continue (condition.trans found) (processLine_short there.state later), if_pos there.state,
        List.singleton_append, List.forall_mem_cons, there.storeInside_short more later,
        LinesBelow.complete complete, ← checked, ← length, ← behind]
      exact and_congr_right fun _ => further
    · obtain ⟨status, next, stopped, scanned, -⟩ := inBody.stop stuck
      rw [contentCalls_stop (condition.trans scanned) stopped, LinesBelow.stuck stuck]
      simp

/-- All calls of a `process_read` that starts in the body. -/
theorem InBody.calls_iff (fs : FileSystem) (inBody : conn.InBody received lines) (positive : 0 < conn.contentLength)
    (room : received.length ≤ readBufferSize) :
    (∀ call ∈ contentCalls fs conn .ok, StoreInside received call) ↔
      if conn.contentLength + conn.checkedIdx ≤ received.length
      then conn.startLine + conn.contentLength ≠ readBufferSize
      else LinesBelow conn.contentLength conn.checkedIdx (received.drop conn.checkedIdx) := by
  have condition := inBody.loopCondition_ok
  split_ifs with enough
  · rw [← inBody.size] at enough
    obtain ⟨code, next, body, -⟩ := processLine_enough fs inBody.state enough
    rw [contentCalls_return condition body, if_pos inBody.state, List.forall_mem_singleton]
    exact inBody.storeInside_enough positive room enough
  · rw [← inBody.size] at enough
    have short := Int.not_le.mp enough
    rw [contentCalls_continue condition (processLine_short inBody.state short), if_pos inBody.state,
      List.singleton_append, List.forall_mem_cons, inBody.storeInside_short positive short]
    exact inBody.moved.calls_open fs positive short

/-- A negative length is stored with at once. -/
theorem InBody.calls_negative (fs : FileSystem) (inBody : conn.InBody received lines)
    (fresh : conn.startLine = (encodeLines lines).length) (negative : conn.contentLength < 0) :
    ¬ ∀ call ∈ contentCalls fs conn .ok, StoreInside received call := by
  have condition := inBody.loopCondition_ok
  have inside := inBody.facing.inside
  obtain ⟨code, next, body, -⟩ := processLine_enough fs inBody.state (by omega)
  rw [contentCalls_return condition body, if_pos inBody.state, List.forall_mem_singleton]
  exact inBody.storeInside_negative fresh negative

theorem readLoop_room {outcomes : List Recv} (room : conn.readIdx ≤ readBufferSize) :
    (conn.readLoop outcomes).2.readIdx ≤ readBufferSize := by
  fun_induction readLoop conn outcomes with
  | case1 conn => exact room
  | case2 conn => exact room
  | case3 conn => exact room
  | case4 conn => exact room
  | case5 conn offered rest taken _ ih =>
    refine ih ?_
    have bound : taken.length ≤ readBufferSize - conn.readIdx := List.length_take_le _ _
    simp only [readIdx, List.length_append] at *
    omega

/-- `read` never asks for more than there is room for. -/
theorem read_room (outcomes : List Recv) (room : conn.readIdx ≤ readBufferSize) :
    (conn.read outcomes).2.readIdx ≤ readBufferSize := by
  unfold HttpConn.read
  split
  · exact room
  · exact readLoop_room room

end HttpConn

/-! ## Runs -/

namespace Reception
variable {fs : FileSystem} {reception arrived next before : Reception} {outcomes : List HttpConn.Recv}
  {arrivals : List (List HttpConn.Recv)}

/-- What a `process_read` finds: a head with a positive length, and, counted from where the scan
stands, either a body that is there and does not end at the end of the buffer, or one that is
not there and has no end of a line at which the sum is too large. -/
def Bounded (arrived : Reception) : Prop :=
  ∀ lines length, encodeLines lines <+: arrived.received → Accepted lines .connect length →
    let entered := arrived.conn.checkState = .connect
    let text := if entered then arrived.conn.startLine else (encodeLines lines).length
    let place := if entered then arrived.conn.checkedIdx else (encodeLines lines).length
    0 < length ∧
      if length + place ≤ arrived.received.length then text + length ≠ readBufferSize
      else HttpConn.LinesBelow length place (arrived.received.drop place)

/-- What holds between the calls. -/
structure Waiting (reception : Reception) : Prop where
  standing : Standing reception
  room : reception.received.length ≤ readBufferSize
  positive : reception.conn.checkState = .connect → 0 < reception.conn.contentLength

theorem Waiting.start (conn : HttpConn) : Waiting (start conn) where
  standing := .start conn
  room := Nat.zero_le _
  positive := by simp [Reception.start, HttpConn.init]

theorem Waiting.read (waiting : Waiting reception) (taken : reception.read outcomes = some arrived) :
    Waiting arrived := by
  have standing := waiting.standing.read taken
  have room := HttpConn.read_room outcomes (waiting.standing.size.trans_le waiting.room)
  have same : arrived.conn = (reception.conn.read outcomes).2 := by
    unfold Reception.read at taken
    dsimp only at taken
    split_ifs at taken
    cases taken
    rfl
  rw [← same, standing.size] at room
  obtain ⟨more, rfl⟩ := read_cases taken
  exact ⟨standing, room, waiting.positive⟩

/-- A call that waits in the body waits for something. -/
theorem Waiting.step (waiting : Waiting reception) (taken : reception.step fs outcomes = some next) :
    Waiting next := by
  obtain ⟨arrived, arrives, received, parsed⟩ := call_cases (step_call taken)
  have there := waiting.read arrives
  refine ⟨waiting.standing.step taken, received ▸ there.room, fun state => ?_⟩
  cases there.standing.called fs with
  | waits after waits place head =>
    cases parsed.symm.trans waits
    exact (head state).elim
  | returns returned => exact (returned (congrArg Prod.fst parsed)).elim
  | body entry goesOn inBody entered =>
    obtain ⟨short, stays⟩ := inBody.call_waits (goesOn.symm.trans parsed)
    have inside := inBody.facing.inside
    have same := (stays.accepted.unique inBody.accepted).2
    omega

theorem Waiting.run {conn : HttpConn} (earlier : run (Reception.step fs) (Reception.start conn) arrivals = some reception) :
    Waiting reception :=
  run_invariant (fun _ _ _ waiting taken => waiting.step taken) (.start conn) earlier

/-- There is only one head, and the parser knows where the scan stands behind it. -/
theorem bounded_iff {entry : HttpConn} {lines : List (List UInt8)} (inBody : entry.InBody arrived.received lines)
    (entered : entry = arrived.conn ∨ arrived.conn.checkState ≠ .connect ∧
      entry.startLine = (encodeLines lines).length ∧ entry.checkedIdx = (encodeLines lines).length) :
    Bounded arrived ↔ 0 < entry.contentLength ∧
      if entry.contentLength + entry.checkedIdx ≤ arrived.received.length
      then entry.startLine + entry.contentLength ≠ readBufferSize
      else HttpConn.LinesBelow entry.contentLength entry.checkedIdx (arrived.received.drop entry.checkedIdx) := by
  have text : (if arrived.conn.checkState = .connect then arrived.conn.startLine else (encodeLines lines).length) =
      entry.startLine := by
    rcases entered with rfl | ⟨head, start, -⟩
    · rw [if_pos inBody.state]
    · rw [if_neg head, start]
  have place : (if arrived.conn.checkState = .connect then arrived.conn.checkedIdx else (encodeLines lines).length) =
      entry.checkedIdx := by
    rcases entered with rfl | ⟨head, -, checked⟩
    · rw [if_pos inBody.state]
    · rw [if_neg head, checked]
  constructor
  · intro bounded
    have here := bounded lines entry.contentLength inBody.head inBody.accepted
    dsimp only at here
    rwa [text, place] at here
  · intro here other length whole accepted
    obtain ⟨body, split⟩ := whole
    obtain ⟨rfl, -⟩ := inBody.accepted.there inBody.head accepted (.connect _ body) split.symm
    obtain rfl := (inBody.accepted.unique accepted).2
    dsimp only
    rwa [text, place]

/-- In every call of every run, all stores of `pares_content` are inside the body's part of the
buffer, with sums that do not overflow, exactly when the bytes are bounded. -/
theorem stores_inside_iff (fs : FileSystem) (conn : HttpConn)
    (earlier : Lib.run (step fs) (start conn) arrivals = some before)
    (arrives : before.read outcomes = some arrived) :
    (∀ call ∈ HttpConn.contentCalls fs arrived.conn .ok, HttpConn.StoreInside arrived.received call) ↔
      Bounded arrived := by
  have waiting := (Waiting.run earlier).read arrives
  cases waiting.standing.called fs with
  | waits next waits place head stuck none =>
    rw [none]
    refine iff_of_true (by simp) fun lines length whole accepted => ?_
    exact (head (accepted.there whole place.accepted (.stuck _ stuck) place.received).2).elim
  | returns returned split also complete rejects head none =>
    rw [none]
    refine iff_of_true (by simp) fun lines length whole accepted => ?_
    exact (head (accepted.there whole also (.rejected complete rejects) split).2).elim
  | body entry goesOn inBody entered calls =>
    rw [calls, bounded_iff inBody entered]
    rcases Int.lt_trichotomy entry.contentLength 0 with negative | zero | positive
    · rcases entered with rfl | ⟨-, start, -⟩
      · exact absurd (waiting.positive inBody.state) (by omega)
      · exact iff_of_false (inBody.calls_negative fs start negative) fun bounded => by omega
    · exact (inBody.accepted.nonzero zero).elim
    · rw [inBody.calls_iff fs positive waiting.room]
      simp only [positive, true_and]

/-- A body that comes with its head. -/
theorem stores_inside_iff_at_once :
    ∃ arrived, (start .zeroed).read [.data (bytes "GET / HTTP/1.1\r\nContent-Length: 4\r\n\r\nabcd")] = some arrived ∧
      HttpConn.contentCalls ⟨fun _ => none, fun _ => none⟩ arrived.conn .ok ≠ [] ∧
      ((∀ call ∈ HttpConn.contentCalls ⟨fun _ => none, fun _ => none⟩ arrived.conn .ok,
        HttpConn.StoreInside arrived.received call) ↔ Bounded arrived) := by
  have called : ((start .zeroed).read [.data (bytes "GET / HTTP/1.1\r\nContent-Length: 4\r\n\r\nabcd")]).any
      (fun arrived => HttpConn.contentCalls ⟨fun _ => none, fun _ => none⟩ arrived.conn .ok ≠ []) := by decide +kernel
  obtain ⟨arrived, arrives, some⟩ := (Option.any_eq_true _ _).mp called
  exact ⟨arrived, arrives, of_decide_eq_true some, stores_inside_iff _ _ (run_nil _) arrives⟩

/-- A negative length: the store is five bytes before the end of the head. -/
theorem negative_length_stores_before_body :
    ∃ arrived call, (start .zeroed).read [.data (bytes "GET / HTTP/1.1\r\nContent-Length: -5\r\n\r\n")] = some arrived ∧
      HttpConn.contentCalls ⟨fun _ => none, fun _ => none⟩ arrived.conn .ok = [call] ∧
      call.contentLength + call.checkedIdx ≤ call.readIdx ∧
      ¬ HttpConn.StoreInside arrived.received call := by
  have found : ((start .zeroed).read [.data (bytes "GET / HTTP/1.1\r\nContent-Length: -5\r\n\r\n")]).map
      (fun arrived => (arrived.received, (HttpConn.contentCalls ⟨fun _ => none, fun _ => none⟩ arrived.conn .ok).map
        fun call => (call.startLine, call.checkedIdx, call.contentLength, call.readIdx))) =
      some (encodeLines [bytes "GET / HTTP/1.1", bytes "Content-Length: -5", []], [(38, 38, -5, 38)]) := by
    decide +kernel
  have known : Accepted [bytes "GET / HTTP/1.1", bytes "Content-Length: -5", []] .connect (-5) :=
    ⟨by decide +kernel, by decide +kernel⟩
  obtain ⟨arrived, arrives, same⟩ := Option.map_eq_some_iff.mp found
  obtain ⟨received, calls⟩ := Prod.mk.inj same
  obtain ⟨call, called, values⟩ := List.map_eq_singleton_iff.mp calls
  simp only [Prod.mk.injEq] at values
  obtain ⟨start, checked, length, size⟩ := values
  refine ⟨arrived, call, arrives, called, by omega, ?_⟩
  rintro ⟨other, ⟨body, split⟩, accepted, -, -, inside⟩
  obtain ⟨rfl, -⟩ := known.there (received ▸ List.prefix_rfl) accepted (.connect _ body) split.symm
  have behind := (inside (by omega)).1
  have head : (encodeLines [bytes "GET / HTTP/1.1", bytes "Content-Length: -5", []]).length = 38 := by decide
  omega

end Reception
end UnixProgramming.Pool

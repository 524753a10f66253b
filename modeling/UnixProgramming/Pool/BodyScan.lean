import UnixProgramming.Pool.Reception

/-! The body of a request. Each call tests once whether the body is there, counting from where
the scan for lines has got to; if it is not, the scan goes on through the body. -/

namespace UnixProgramming.Pool

open UnixProgramming.Lib

namespace HttpConn

/-- The parser is in the body behind the lines, and has scanned a part of it. -/
structure InBody (conn : HttpConn) (received : List UInt8) (lines : List (List UInt8)) : Prop where
  state : conn.checkState = .connect
  accepted : Accepted lines .connect conn.contentLength
  head : encodeLines lines <+: received
  start : (encodeLines lines).length ≤ conn.startLine
  order : conn.startLine ≤ conn.checkedIdx
  size : conn.readIdx = received.length
  facing : conn.Facing conn.checkedIdx (received.drop conn.checkedIdx)

variable {fs : FileSystem} {conn ready next : HttpConn} {received rest line after : List UInt8}
  {lines : List (List UInt8)}

/-- Coming from the blank line. -/
theorem At.inBody (place : conn.At received lines rest) (state : conn.checkState = .connect)
    (fresh : conn.checkedIdx = conn.startLine) : conn.InBody received lines := by
  have behind : received.drop conn.startLine = rest := by
    rw [place.received, place.start, List.drop_left]
  refine ⟨state, state ▸ place.accepted, ⟨rest, place.received.symm⟩, place.start.ge, fresh.ge, ?_, ?_⟩
  · rw [place.facing.length, place.received, List.length_append, place.start]
  · rw [fresh, behind]
    exact place.facing

theorem InBody.extend (inBody : conn.InBody received lines) (more : List UInt8) :
    (conn.extend more).InBody (received ++ more) lines := by
  have inside := inBody.facing.inside
  rw [inBody.size] at inside
  refine ⟨inBody.state, inBody.accepted, inBody.head.trans (List.prefix_append received more), inBody.start,
    inBody.order, ?_, ?_⟩
  · rw [readIdx_extend, inBody.size, List.length_append]
  · have facing := inBody.facing.extend more
    rwa [← List.drop_append_of_le_length inside] at facing

/-! ## The test for the end of the body -/

theorem processLine_short (state : conn.checkState = .connect)
    (short : (conn.readIdx : Int) < conn.contentLength + conn.checkedIdx) :
    processLine fs conn = (.loop .open, { conn with startLine := conn.checkedIdx }) := by
  have missing : ¬ conn.contentLength + conn.checkedIdx ≤ conn.readIdx := Int.not_le.mpr short
  simp only [readIdx] at missing
  simp [processLine, state, paresContent, readIdx, missing]

theorem doRequest_readBuf (fs : FileSystem) (conn : HttpConn) : (doRequest fs conn).2.readBuf = conn.readBuf := by
  unfold doRequest
  dsimp only
  repeat' split
  all_goals rfl

theorem processLine_enough (fs : FileSystem) (state : conn.checkState = .connect)
    (enough : conn.contentLength + conn.checkedIdx ≤ conn.readIdx) :
    ∃ code next, processLine fs conn = (.done code, next) ∧
      next.readBuf = ({ conn with startLine := conn.checkedIdx }.paresContent conn.startLine).2.readBuf := by
  have complete : ({ conn with startLine := conn.checkedIdx }.paresContent conn.startLine).1 = .getRequest := by
    unfold paresContent
    rw [if_pos (by exact enough)]
  have body : processLine fs conn =
      (.done (doRequest fs ({ conn with startLine := conn.checkedIdx }.paresContent conn.startLine).2).1,
        (doRequest fs ({ conn with startLine := conn.checkedIdx }.paresContent conn.startLine).2).2) := by
    simp only [state] at complete
    simp [processLine, state, complete]
  exact ⟨_, _, body, doRequest_readBuf fs _⟩

/-! ## The scan through the body -/

theorem InBody.moved (inBody : conn.InBody received lines) :
    InBody { conn with startLine := conn.checkedIdx } received lines where
  state := inBody.state
  accepted := inBody.accepted
  head := inBody.head
  start := inBody.start.trans inBody.order
  order := le_rfl
  size := inBody.size
  facing := ⟨inBody.facing.inside, inBody.facing.buffer, inBody.facing.scanned, inBody.facing.clean⟩

/-- The scan may count as standing behind the word it has come by. -/
theorem Facing.advance {base : Nat} {word tail : List UInt8} (facing : conn.Facing base (word ++ tail))
    (plain : ∀ byte ∈ word, inLine byte = true) :
    Facing { conn with checkedIdx := base + word.length } (base + word.length) tail := by
  have length := facing.length
  rw [List.length_append, ← Nat.add_assoc] at length
  refine ⟨length ▸ Nat.le_add_right _ _, ?_, ⟨[], tail, rfl, by simp, rfl⟩, fun index => facing.clean_word plain⟩
  rw [← List.drop_drop, facing.buffer, List.drop_left]

theorem InBody.complete (inBody : conn.InBody received lines)
    (complete : Complete (received.drop conn.checkedIdx) line after) :
    ∃ ready, conn.parseLine = (.ok, ready) ∧ ready.InBody received lines ∧ Blanked conn.readBuf ready.readBuf ∧
      ready.checkedIdx = conn.checkedIdx + line.length + 2 ∧ ready.startLine = conn.startLine ∧
      ready.contentLength = conn.contentLength := by
  obtain ⟨facing, -⟩ := inBody.facing.cut complete
  have behind : received.drop (conn.checkedIdx + line.length + 2) = after := by
    rw [Nat.add_assoc, ← List.drop_drop, complete.2]
    simp
  refine ⟨_, inBody.facing.parseLine_complete complete, ⟨inBody.state, inBody.accepted, inBody.head, inBody.start, ?_, ?_, ?_⟩,
    (Blanked.set _ _).trans (.set _ _), rfl, rfl, rfl⟩
  · exact inBody.order.trans (by simp only [Nat.add_assoc, Nat.le_add_right])
  · simpa [readIdx] using inBody.size
  · rwa [← behind] at facing

theorem InBody.stop (inBody : conn.InBody received lines)
    (stuck : Unfinished (received.drop conn.checkedIdx) ∨ Malformed (received.drop conn.checkedIdx)) :
    ∃ status next, status ≠ .ok ∧ conn.parseLine = (status, next) ∧ next.InBody received lines ∧
      next.readBuf = conn.readBuf ∧ next.contentLength = conn.contentLength := by
  obtain ⟨status, stopped, scanned⟩ := inBody.facing.parseLine_stop stuck
  refine ⟨status, _, stopped, scanned, ⟨inBody.state, inBody.accepted, inBody.head, inBody.start, ?_, inBody.size, ?_⟩,
    rfl, rfl⟩
  · exact inBody.order.trans (Nat.le_add_right _ _)
  · have facing := inBody.facing
    have plain : ∀ byte ∈ (received.drop conn.checkedIdx).takeWhile inLine, inLine byte = true :=
      fun byte member => List.mem_takeWhile_imp member
    have split : (received.drop conn.checkedIdx).takeWhile inLine ++ (received.drop conn.checkedIdx).dropWhile inLine =
        received.drop conn.checkedIdx := List.takeWhile_append_dropWhile
    generalize (received.drop conn.checkedIdx).takeWhile inLine = word at plain split
    rw [← split] at facing
    dsimp only
    rw [← List.drop_drop, ← split, List.drop_left]
    exact facing.advance plain

theorem loopCondition_open (conn : HttpConn) : conn.loopCondition .open = conn.parseLine := by simp [loopCondition]

theorem InBody.loopCondition_ok (inBody : conn.InBody received lines) : conn.loopCondition .ok = (.ok, conn) := by
  simp [loopCondition, inBody.state]

/-- While the body is incomplete the scan goes on from line to line until it gets stuck, and the
call returns `NO_REQUEST`. By induction on the bytes that are left to scan. -/
theorem InBody.waits (fs : FileSystem) (inBody : conn.InBody received lines)
    (short : (conn.readIdx : Int) < conn.contentLength + conn.checkedIdx) :
    ∃ next, processReadLoop fs conn .open = (.noRequest, next) ∧ next.InBody received lines ∧
      Blanked conn.readBuf next.readBuf := by
  obtain ⟨size, bound⟩ : ∃ size, conn.readIdx - conn.checkedIdx ≤ size := ⟨_, le_rfl⟩
  induction size using Nat.strong_induction_on generalizing conn with
  | _ size ih =>
    have condition := loopCondition_open conn
    rcases scan_cases (received.drop conn.checkedIdx) with ⟨line, after, complete⟩ | stuck
    · obtain ⟨ready, found, there, blanked, checked, -, length⟩ := inBody.complete complete
      have same := there.size.trans inBody.size.symm
      have later : (ready.readIdx : Int) < ready.contentLength + ready.checkedIdx := by omega
      have inside := there.facing.inside
      obtain ⟨next, waiting, stays, further⟩ :=
        ih (ready.readIdx - ready.checkedIdx) (by omega) there.moved later le_rfl
      refine ⟨next, ?_, stays, blanked.trans further⟩
      rw [processReadLoop_continue (condition.trans found) (processLine_short there.state later), waiting]
    · obtain ⟨status, next, stopped, scanned, stays, same, -⟩ := inBody.stop stuck
      refine ⟨next, processReadLoop_stop (condition.trans scanned) stopped, stays, ?_⟩
      rw [same]
      exact .refl _

/-- A call in the body: it ends with a result when enough bytes are there behind the place
where the scan stands, and waits otherwise. -/
theorem InBody.call_enough (fs : FileSystem) (inBody : conn.InBody received lines)
    (enough : conn.contentLength + conn.checkedIdx ≤ conn.readIdx) :
    ∃ code next, processRead fs conn = (code, next) ∧ code ≠ .noRequest ∧
      next.readBuf = ({ conn with startLine := conn.checkedIdx }.paresContent conn.startLine).2.readBuf := by
  have condition := inBody.loopCondition_ok
  obtain ⟨code, next, body, buffer⟩ := processLine_enough fs inBody.state enough
  exact ⟨code, next, processReadLoop_return condition body, processLine_return body, buffer⟩

theorem InBody.call_short (fs : FileSystem) (inBody : conn.InBody received lines)
    (short : (conn.readIdx : Int) < conn.contentLength + conn.checkedIdx) :
    processRead fs conn = processReadLoop fs { conn with startLine := conn.checkedIdx } .open := by
  have condition := inBody.loopCondition_ok
  exact processReadLoop_continue condition (processLine_short inBody.state short)

/-- A call that waits in the body found it incomplete. -/
theorem InBody.call_waits (inBody : conn.InBody received lines) (waits : processRead fs conn = (.noRequest, next)) :
    (conn.readIdx : Int) < conn.contentLength + conn.checkedIdx ∧ next.InBody received lines := by
  by_cases enough : conn.contentLength + conn.checkedIdx ≤ conn.readIdx
  · obtain ⟨code, after, returned, result, -⟩ := inBody.call_enough fs enough
    exact (result (congrArg Prod.fst (returned.symm.trans waits))).elim
  · have short := Int.not_le.mp enough
    obtain ⟨after, same, stays, -⟩ := inBody.moved.waits fs short
    rw [inBody.call_short fs short, same] at waits
    cases waits
    exact ⟨short, stays⟩

/-! ## The calls of `pares_content` -/

/-- The states in which the loop of `process_read` calls `pares_content`, before it moves
`m_start_line`. -/
def contentCalls (fs : FileSystem) (conn : HttpConn) (status : LineStatus) : List HttpConn :=
  match condition : conn.loopCondition status with
  | (.ok, ready) =>
    let here := if ready.checkState = .connect then [ready] else []
    match body : processLine fs ready with
    | (.done _, _) => here
    | (.loop after, next) => here ++ contentCalls fs next after
  | (_, _) => []
termination_by conn.loopMeasure status
decreasing_by exact loopMeasure_lt condition body

section Unfold
variable {status later : LineStatus} {code : HttpCode}

theorem contentCalls_return (condition : conn.loopCondition status = (.ok, ready))
    (body : processLine fs ready = (.done code, next)) :
    contentCalls fs conn status = if ready.checkState = .connect then [ready] else [] := by
  rw [contentCalls]
  grind

theorem contentCalls_continue (condition : conn.loopCondition status = (.ok, ready))
    (body : processLine fs ready = (.loop later, next)) :
    contentCalls fs conn status =
      (if ready.checkState = .connect then [ready] else []) ++ contentCalls fs next later := by
  rw [contentCalls]
  grind

theorem contentCalls_stop (condition : conn.loopCondition status = (later, next)) (stopped : later ≠ .ok) :
    contentCalls fs conn status = [] := by
  rw [contentCalls]
  grind

end Unfold

/-! ## A call -/

theorem parseLine_checkState {status : LineStatus} (scan : conn.parseLine = (status, next)) :
    next.checkState = conn.checkState := by
  cases scan
  rfl

/-- A call waits or returns in the head of the request, or enters its body. -/
inductive Called (fs : FileSystem) (conn : HttpConn) (received : List UInt8) : Prop where
  | waits {lines : List (List UInt8)} {rest : List UInt8} (next : HttpConn)
    (waiting : processRead fs conn = (.noRequest, next)) (place : next.At received lines rest)
    (head : next.checkState ≠ .connect) (stuck : Unfinished rest ∨ Malformed rest)
    (calls : contentCalls fs conn .ok = [])
  | returns {lines : List (List UInt8)} {rest line after : List UInt8} {state : CheckState} {length : Int}
    (returned : (processRead fs conn).1 ≠ .noRequest) (received : received = encodeLines lines ++ rest)
    (accepted : Accepted lines state length) (complete : Complete rest line after)
    (rejects : acceptLine (state, length) line = none) (head : state ≠ .connect)
    (calls : contentCalls fs conn .ok = [])
  | body {lines : List (List UInt8)} (entry : HttpConn) (goesOn : processRead fs conn = processRead fs entry)
    (inBody : entry.InBody received lines)
    (entered : entry = conn ∨ conn.checkState ≠ .connect ∧
      entry.startLine = (encodeLines lines).length ∧ entry.checkedIdx = (encodeLines lines).length)
    (calls : contentCalls fs conn .ok = contentCalls fs entry .ok)

/-- From the head of a request, by induction on the bytes that are left. -/
theorem At.called (fs : FileSystem) (place : conn.At received lines rest) (head : conn.checkState ≠ .connect) :
    Called fs conn received := by
  obtain ⟨size, bound⟩ : ∃ size, rest.length ≤ size := ⟨_, le_rfl⟩
  induction size using Nat.strong_induction_on generalizing conn lines rest with
  | _ size ih =>
    have condition := loopCondition_head head .ok
    rcases scan_cases rest with ⟨line, after, complete⟩ | stuck
    · cases accepts : acceptLine (conn.checkState, conn.contentLength) line with
      | some result =>
        obtain ⟨ready, next, found, body, later, fresh⟩ := place.accept fs head complete accepts
        have goesOn : processRead fs conn = processRead fs next :=
          processReadLoop_continue (condition.trans found) body
        have calls := contentCalls_continue (condition.trans found) body
        rw [if_neg (by rwa [parseLine_checkState found]), List.nil_append] at calls
        by_cases state : next.checkState = .connect
        · exact .body next goesOn (later.inBody state fresh) (.inr ⟨head, later.start, fresh.trans later.start⟩) calls
        · have shorter : after.length < rest.length := by
            rw [complete.2, List.length_append, List.length_cons, List.length_cons]
            omega
          cases ih after.length (shorter.trans_le bound) later state le_rfl with
          | waits final waiting place head stuck none =>
            exact .waits final (goesOn.trans waiting) place head stuck (calls.trans none)
          | returns returned received accepted complete rejects head none =>
            exact .returns (goesOn ▸ returned) received accepted complete rejects head (calls.trans none)
          | body entry further inBody entered more =>
            refine .body entry (goesOn.trans further) inBody (.inr ⟨head, ?_⟩) (calls.trans more)
            rcases entered with rfl | ⟨-, there⟩
            · exact (state inBody.state).elim
            · exact there
      | none =>
        obtain ⟨ready, code, next, found, body⟩ := place.reject fs head complete accepts
        refine .returns ?_ place.received place.accepted complete accepts head ?_
        · rw [processRead, processReadLoop_return (condition.trans found) body]
          exact processLine_return body
        · rw [contentCalls_return (condition.trans found) body, if_neg (by rwa [parseLine_checkState found])]
    · obtain ⟨status, next, stopped, scanned, stays, state⟩ := place.stop stuck
      exact .waits next (processReadLoop_stop (condition.trans scanned) stopped) stays (state ▸ head) stuck
        (contentCalls_stop (condition.trans scanned) stopped)

end HttpConn

/-! ## Between the calls -/

namespace Reception
variable {fs : FileSystem} {reception arrived next : Reception} {outcomes : List HttpConn.Recv}

/-- Where the parser is between two calls. -/
inductive Standing (reception : Reception) : Prop where
  | head {lines : List (List UInt8)} {rest : List UInt8} (place : reception.conn.At reception.received lines rest)
    (head : reception.conn.checkState ≠ .connect)
  | body {lines : List (List UInt8)} (inBody : reception.conn.InBody reception.received lines)

theorem Standing.start (conn : HttpConn) : Standing (Reception.start conn) :=
  .head (.init conn) (by simp [Reception.start, HttpConn.init])

theorem Standing.read (standing : Standing reception) (taken : reception.read outcomes = some arrived) :
    Standing arrived := by
  obtain ⟨more, rfl⟩ := read_cases taken
  cases standing with
  | head place head => exact .head (place.extend more) head
  | body inBody => exact .body (inBody.extend more)

/-- No byte received is missing from the buffer. -/
theorem Standing.size (standing : Standing reception) : reception.conn.readIdx = reception.received.length := by
  cases standing with
  | head place head => rw [place.facing.length, place.start, place.received, List.length_append]
  | body inBody => exact inBody.size

theorem Standing.called (fs : FileSystem) (standing : Standing reception) :
    HttpConn.Called fs reception.conn reception.received := by
  cases standing with
  | head place head => exact place.called fs head
  | body inBody => exact .body reception.conn rfl inBody (.inl rfl) rfl

theorem Standing.step (standing : Standing reception) (taken : reception.step fs outcomes = some next) :
    Standing next := by
  obtain ⟨arrived, arrives, received, parsed⟩ := call_cases (step_call taken)
  obtain ⟨conn, bytes⟩ := next
  dsimp only at received parsed
  subst received
  cases (standing.read arrives).called fs with
  | waits after waiting place head stuck =>
    cases parsed.symm.trans waiting
    exact .head place head
  | returns returned => exact (returned (congrArg Prod.fst parsed)).elim
  | body entry goesOn inBody entered =>
    exact .body (inBody.call_waits (goesOn.symm.trans parsed)).2

/-- After any number of calls that wait for more. -/
theorem Standing.run {conn : HttpConn} {arrivals : List (List HttpConn.Recv)}
    (earlier : run (Reception.step fs) (Reception.start conn) arrivals = some reception) : Standing reception :=
  run_invariant (fun _ _ _ standing taken => standing.step taken) (.start conn) earlier

end Reception
end UnixProgramming.Pool

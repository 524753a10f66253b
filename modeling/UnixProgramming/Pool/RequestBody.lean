import UnixProgramming.Pool.BodyScan

/-! When the body of a request is complete. The test counts from where the scan for lines
stands, and the scan goes on through the body while it is incomplete, so the result depends on
the CR and LF bytes of the body and on how it is cut into calls. -/

namespace UnixProgramming.Pool

open UnixProgramming.Lib

/-- How many bytes of a body the scan comes by without finding the end of a line. -/
def scanned (body : List UInt8) : Nat := (body.takeWhile inLine).length

variable {fs : FileSystem} {conn entry : HttpConn} {received : List UInt8} {lines : List (List UInt8)} {length : Nat}

namespace HttpConn

/-- A call before the end of the head. -/
theorem Called.head_incomplete (accepted : Accepted lines .connect length) (part : received <+: encodeLines lines)
    (short : received.length < (encodeLines lines).length) (called : Called fs conn received) :
    (processRead fs conn).1 = .noRequest := by
  cases called with
  | waits next waiting => rw [waiting]
  | returns returned split also complete rejects head =>
    exact (accepted.not_yet part short also (fun more => .rejected (complete.append more) rejects) split).elim
  | body entry goesOn inBody entered =>
    obtain ⟨body, split⟩ := inBody.head
    exact (accepted.not_yet part short inBody.accepted (fun more => .connect _ _) split.symm).elim

/-- A call with the head there. -/
theorem Called.head_complete (accepted : Accepted lines .connect length) (whole : encodeLines lines <+: received)
    (called : Called fs conn received) :
    ∃ entry, processRead fs conn = processRead fs entry ∧ entry.InBody received lines ∧
      (entry = conn ∨ conn.checkState ≠ .connect ∧ entry.checkedIdx = (encodeLines lines).length) := by
  cases called with
  | waits next waiting place head stuck =>
    exact (head (accepted.there whole place.accepted (.stuck _ stuck) place.received).2).elim
  | returns returned split also complete rejects head =>
    exact (head (accepted.there whole also (.rejected complete rejects) split).2).elim
  | body entry goesOn inBody entered =>
    obtain ⟨body, split⟩ := inBody.head
    obtain ⟨rfl, -⟩ := accepted.there whole inBody.accepted (.connect _ body) split.symm
    exact ⟨entry, goesOn, inBody, entered.imp_right fun ⟨head, _, checked⟩ => ⟨head, checked⟩⟩

/-! ## A call in the body -/

/-- The parser enters the body with its bytes as they were received, having scanned some. -/
structure Entry (entry : HttpConn) (received : List UInt8) (lines : List (List UInt8)) (count : Nat) : Prop where
  inBody : entry.InBody received lines
  facing : entry.Facing (encodeLines lines).length (received.drop (encodeLines lines).length)
  checked : entry.checkedIdx = (encodeLines lines).length + count

variable {count : Nat} {line rest : List UInt8}

/-- The scan as seen from the front of the body. -/
theorem Entry.moved (entered : entry.Entry received lines count) :
    Entry { entry with startLine := entry.checkedIdx } received lines count where
  inBody := entered.inBody.moved
  facing := ⟨entered.facing.inside, entered.facing.buffer, entered.facing.scanned, entered.facing.clean⟩
  checked := entered.checked

theorem Entry.loop_stuck (fs : FileSystem) (entered : entry.Entry received lines count)
    (short : (entry.readIdx : Int) < entry.contentLength + entry.checkedIdx)
    (stuck : Unfinished (received.drop (encodeLines lines).length) ∨
      Malformed (received.drop (encodeLines lines).length)) :
    ∃ next, processReadLoop fs entry .open = (.noRequest, next) ∧
      next.Entry received lines (Pool.scanned (received.drop (encodeLines lines).length)) := by
  have condition := loopCondition_open entry
  obtain ⟨status, stopped, scan⟩ := entered.facing.parseLine_stop stuck
  have waits : processReadLoop fs entry .open = _ := processReadLoop_stop (condition.trans scan) stopped
  obtain ⟨next, same, stays, -⟩ := entered.inBody.waits fs short
  cases waits.symm.trans same
  exact ⟨_, waits, stays, entered.facing.stopped, rfl⟩

/-- The CR of the first line that ends in the body is gone. -/
theorem Entry.loop_complete (fs : FileSystem) (entered : entry.Entry received lines count)
    (short : (entry.readIdx : Int) < entry.contentLength + entry.checkedIdx)
    (complete : Complete (received.drop (encodeLines lines).length) line rest) :
    ∃ next, processReadLoop fs entry .open = (.noRequest, next) ∧
      next.readBuf.getD ((encodeLines lines).length + line.length) 0 = 0 := by
  have condition := loopCondition_open entry
  have scan := entered.facing.parseLine_complete complete
  rcases scan_cases (received.drop entry.checkedIdx) with ⟨first, tail, found⟩ | stuck
  · obtain ⟨ready, same, there, -, checked, -, length⟩ := entered.inBody.complete found
    have size := there.size.trans entered.inBody.size.symm
    have later : (ready.readIdx : Int) < ready.contentLength + ready.checkedIdx := by omega
    obtain ⟨next, waiting, -, blanked⟩ := there.moved.waits fs later
    refine ⟨next, ?_, ?_⟩
    · rw [processReadLoop_continue (condition.trans same) (processLine_short there.state later), waiting]
    · cases same.symm.trans scan
      have gone : ((entry.readBuf.set ((encodeLines lines).length + line.length) 0).set
          ((encodeLines lines).length + line.length + 1) 0).getD ((encodeLines lines).length + line.length) 0 = 0 := by
        rw [List.getD_eq_getElem?_getD, List.getElem?_set_ne (by omega), List.getElem?_set_self']
        cases entry.readBuf[(encodeLines lines).length + line.length]? with
        | none => rfl
        | some byte => rfl
      rcases blanked.2 ((encodeLines lines).length + line.length) with zero | kept
      · exact zero
      · exact kept.trans gone
  · obtain ⟨status, next, stopped, other, -⟩ := entered.inBody.stop stuck
    cases other.symm.trans scan
    exact (stopped rfl).elim

/-- The end of the body is marked behind its bytes. -/
theorem paresContent_body (conn : HttpConn) {text base : Nat} (behind : base ≤ text)
    (length : conn.contentLength = (count : Int)) :
    ((conn.paresContent text).2.readBuf.drop base).take count = (conn.readBuf.drop base).take count := by
  have place : ((text : Int) + count).toNat = text + count := by omega
  have nonneg : 0 ≤ (text : Int) + count := by omega
  unfold paresContent
  split_ifs
  · simp only [length, nonneg, if_true, place]
    rw [List.drop_set, if_neg (by omega), List.take_set_of_le (by omega)]
  · rfl

theorem Entry.contentLength (accepted : Accepted lines .connect length) (entered : entry.Entry received lines count) :
    entry.contentLength = length := (entered.inBody.accepted.unique accepted).2

/-- A body of which not enough is there behind the place where the scan stands. -/
theorem Entry.short (accepted : Accepted lines .connect length) (entered : entry.Entry received lines count)
    (missing : received.length < (encodeLines lines).length + length + count) :
    (entry.readIdx : Int) < entry.contentLength + entry.checkedIdx := by
  rw [entered.contentLength accepted, entered.checked, entered.inBody.size]
  omega

theorem Entry.call_enough (fs : FileSystem) (accepted : Accepted lines .connect length)
    (entered : entry.Entry received lines count)
    (enough : (encodeLines lines).length + length + count ≤ received.length) :
    (processRead fs entry).1 ≠ .noRequest ∧
      ((processRead fs entry).2.readBuf.drop (encodeLines lines).length).take length =
        (received.drop (encodeLines lines).length).take length := by
  have contentLength := entered.contentLength accepted
  obtain ⟨code, next, called, returned, buffer⟩ := entered.inBody.call_enough fs (by
    rw [contentLength, entered.checked, entered.inBody.size]
    omega)
  rw [called]
  refine ⟨returned, ?_⟩
  rw [buffer, ← entered.facing.buffer]
  exact paresContent_body { entry with startLine := entry.checkedIdx } entered.inBody.start contentLength

/-- A call that comes too early waits, and then the bytes are as they were unless a line ends
among them. -/
theorem Entry.call_short (fs : FileSystem) (accepted : Accepted lines .connect length)
    (entered : entry.Entry received lines count)
    (missing : received.length < (encodeLines lines).length + length + count) :
    (processRead fs entry).1 = .noRequest ∧
      ((¬ ∃ line rest, Complete (received.drop (encodeLines lines).length) line rest) →
        (processRead fs entry).2.Entry received lines (Pool.scanned (received.drop (encodeLines lines).length))) := by
  have short := entered.short accepted missing
  rw [entered.inBody.call_short fs short]
  rcases scan_cases (received.drop (encodeLines lines).length) with ⟨line, rest, complete⟩ | stuck
  · obtain ⟨next, waits, -⟩ := entered.moved.loop_complete fs short complete
    rw [waits]
    exact ⟨rfl, fun none => (none ⟨line, rest, complete⟩).elim⟩
  · obtain ⟨next, waits, stays⟩ := entered.moved.loop_stuck fs short stuck
    rw [waits]
    exact ⟨rfl, fun _ => stays⟩

/-- A line that ends in a body that is not complete is damaged. -/
theorem Entry.call_damage (fs : FileSystem) (accepted : Accepted lines .connect length)
    (entered : entry.Entry received lines count)
    (missing : received.length < (encodeLines lines).length + length)
    (complete : Complete (received.drop (encodeLines lines).length) line rest) :
    ((processRead fs entry).2.readBuf.drop (encodeLines lines).length).take length ≠
      (received.drop (encodeLines lines).length).take length := by
  have short := entered.short accepted (by omega)
  rw [entered.inBody.call_short fs short]
  obtain ⟨next, waits, gone⟩ := entered.moved.loop_complete fs short complete
  rw [waits]
  intro same
  have size := congrArg List.length complete.2
  rw [List.length_drop, List.length_append, List.length_cons, List.length_cons] at size
  have byte := congrArg (·[line.length]?) same
  simp only [List.getElem?_take_of_lt (show line.length < length by omega), List.getElem?_drop] at byte
  have cr : received[(encodeLines lines).length + line.length]? = some 13 := by
    rw [← List.getElem?_drop, complete.2]
    simp
  rw [List.getD_eq_getElem?_getD, byte, cr] at gone
  cases gone

theorem Entry.extend (entered : conn.Entry received lines count) (more : List UInt8) :
    (conn.extend more).Entry (received ++ more) lines count := by
  have inside := entered.inBody.head.length_le
  refine ⟨entered.inBody.extend more, ?_, entered.checked⟩
  rw [List.drop_append_of_le_length inside]
  exact entered.facing.extend more

/-- At the end of the head nothing of the body has been scanned. -/
theorem Entry.fresh (inBody : conn.InBody received lines) (fresh : conn.checkedIdx = (encodeLines lines).length) :
    conn.Entry received lines 0 := ⟨inBody, fresh ▸ inBody.facing, fresh⟩

end HttpConn

/-! ## Runs -/

namespace Reception

/-- The bytes received are a part of the head or begin with it. -/
def Agrees (head received : List UInt8) : Prop := received <+: head ∨ head <+: received

instance (head received : List UInt8) : Decidable (Agrees head received) := inferInstanceAs (Decidable (_ ∨ _))

theorem Agrees.begins {head : List UInt8} (agrees : Agrees head received) (whole : head.length ≤ received.length) :
    head <+: received := by
  rcases agrees with part | begins
  · exact part.eq_of_length_le whole ▸ List.prefix_rfl
  · exact begins

/-- What a call promises: it returns a result just when the head and the body are there, and the
bytes of the body in the buffer are the ones received. -/
def Completes (head : List UInt8) (length : Nat) (code : HttpCode) (after : Reception) : Prop :=
  (code ≠ .noRequest ↔ head.length + length ≤ after.received.length) ∧
    (after.conn.readBuf.drop head.length).take length = (after.received.drop head.length).take length

/-- The bytes before and after a `read`: while the body is incomplete no line ends in it, and
when it becomes complete in a later call than the head, the bytes scanned before are there once more. -/
def Favourable (head : List UInt8) (length : Nat) (before after : List UInt8) : Prop :=
  if head.length + length ≤ after.length then
    head.length ≤ before.length → head.length + length + scanned (before.drop head.length) ≤ after.length
  else head.length ≤ after.length → ¬ ∃ line rest, Complete (after.drop head.length) line rest

/-- What a `read` takes in belongs to a request with this head. -/
def Sends (head : List UInt8) (reception : Reception) (outcomes : List HttpConn.Recv) : Prop :=
  ∀ arrived ∈ reception.read outcomes, Agrees head arrived.received

/-- The call after a `read` keeps the promise. -/
def Keeps (fs : FileSystem) (head : List UInt8) (length : Nat) (reception : Reception)
    (outcomes : List HttpConn.Recv) : Prop :=
  ∀ result ∈ reception.call fs outcomes, Completes head length result.1 result.2

instance (head : List UInt8) (reception : Reception) (outcomes : List HttpConn.Recv) :
    Decidable (Sends head reception outcomes) :=
  inferInstanceAs (Decidable (∀ arrived ∈ reception.read outcomes, Agrees head arrived.received))

instance (head : List UInt8) (length : Nat) (code : HttpCode) (after : Reception) :
    Decidable (Completes head length code after) :=
  inferInstanceAs (Decidable (_ ∧ _))

instance (fs : FileSystem) (head : List UInt8) (length : Nat) (reception : Reception) (outcomes : List HttpConn.Recv) :
    Decidable (Keeps fs head length reception outcomes) :=
  inferInstanceAs (Decidable (∀ result ∈ reception.call fs outcomes, Completes head length result.1 result.2))

/-- What a `read` takes in is favourable. -/
def Suits (head : List UInt8) (length : Nat) (reception : Reception) (outcomes : List HttpConn.Recv) : Prop :=
  ∀ arrived ∈ reception.read outcomes, Favourable head length reception.received arrived.received

/-- Between the calls of a run without damage so far. -/
structure Between (lines : List (List UInt8)) (reception : Reception) : Prop where
  standing : Standing reception
  entry : (encodeLines lines).length ≤ reception.received.length →
    reception.conn.Entry reception.received lines (scanned (reception.received.drop (encodeLines lines).length))

variable {reception arrived next : Reception} {outcomes : List HttpConn.Recv}

/-- Before the end of the head the parser is not in the body. -/
theorem Standing.head_incomplete (accepted : Accepted lines .connect length) (standing : Standing reception)
    (part : reception.received <+: encodeLines lines)
    (short : reception.received.length < (encodeLines lines).length) : reception.conn.checkState ≠ .connect := by
  cases standing with
  | head place head => exact head
  | body inBody =>
    obtain ⟨body, split⟩ := inBody.head
    exact (accepted.not_yet part short inBody.accepted (fun more => .connect _ _) split.symm).elim

theorem Between.enters (fs : FileSystem) (accepted : Accepted lines .connect length)
    (between : Between lines reception) (taken : reception.read outcomes = some arrived)
    (whole : encodeLines lines <+: arrived.received) :
    ∃ entry, HttpConn.processRead fs arrived.conn = HttpConn.processRead fs entry ∧
      entry.Entry arrived.received lines
        (if (encodeLines lines).length ≤ reception.received.length
          then scanned (reception.received.drop (encodeLines lines).length) else 0) := by
  obtain ⟨entry, goesOn, inBody, entered⟩ :=
    ((between.standing.read taken).called fs).head_complete accepted whole
  obtain ⟨more, rfl⟩ := read_cases taken
  refine ⟨entry, goesOn, ?_⟩
  split_ifs with early
  · have there := between.entry early
    rcases entered with rfl | ⟨head, -⟩
    · exact there.extend more
    · exact (head there.inBody.state).elim
  · rcases entered with rfl | ⟨-, checked⟩
    · have part : reception.received <+: encodeLines lines :=
        List.prefix_of_prefix_length_le (List.prefix_append _ _) whole (by omega)
      exact (between.standing.head_incomplete accepted part (by omega) inBody.state).elim
    · exact .fresh inBody checked

/-- A call of such a run keeps its promise exactly when the bytes are favourable. -/
theorem Between.completes_iff (fs : FileSystem) (accepted : Accepted lines .connect length)
    (between : Between lines reception) (taken : reception.read outcomes = some arrived)
    (agrees : Agrees (encodeLines lines) arrived.received) :
    Completes (encodeLines lines) length (HttpConn.processRead fs arrived.conn).1
        ⟨(HttpConn.processRead fs arrived.conn).2, arrived.received⟩ ↔
      Favourable (encodeLines lines) length reception.received arrived.received := by
  unfold Completes Favourable
  dsimp only
  by_cases whole : (encodeLines lines).length ≤ arrived.received.length
  · obtain ⟨entry, goesOn, entered⟩ := between.enters fs accepted taken (agrees.begins whole)
    rw [goesOn]
    generalize counted : (if (encodeLines lines).length ≤ reception.received.length
      then scanned (reception.received.drop (encodeLines lines).length) else 0) = count at entered
    by_cases complete : (encodeLines lines).length + length ≤ arrived.received.length
    · have condition : ((encodeLines lines).length ≤ reception.received.length →
          (encodeLines lines).length + length + scanned (reception.received.drop (encodeLines lines).length) ≤
            arrived.received.length) ↔ (encodeLines lines).length + length + count ≤ arrived.received.length := by
        subst counted
        split_ifs with early
        · simp [early]
        · simp [early, complete]
      rw [if_pos complete, condition]
      simp only [complete, iff_true]
      by_cases enough : (encodeLines lines).length + length + count ≤ arrived.received.length
      · exact iff_of_true (entered.call_enough fs accepted enough) enough
      · have waits := (entered.call_short fs accepted (Nat.not_le.mp enough)).1
        exact iff_of_false (fun promise => promise.1 waits) enough
    · obtain ⟨waits, stays⟩ := entered.call_short fs accepted (by omega)
      rw [if_neg complete]
      simp only [complete, waits, ne_eq, not_true, true_and, whole, true_imp_iff]
      constructor
      · rintro same ⟨line, rest, found⟩
        exact entered.call_damage fs accepted (by omega) found same
      · intro none
        rw [(stays none).facing.buffer]
  · have part : arrived.received <+: encodeLines lines := by
      rcases agrees with part | begins
      · exact part
      · exact (whole begins.length_le).elim
    have waits := ((between.standing.read taken).called fs).head_incomplete accepted part (by omega)
    have size : (HttpConn.processRead fs arrived.conn).2.readBuf.length = arrived.received.length :=
      (HttpConn.processReadLoop_readIdx arrived.conn .ok).trans (between.standing.read taken).size
    rw [if_neg (by omega), waits, List.drop_of_length_le (by omega), List.drop_of_length_le (by omega)]
    refine iff_of_true ⟨?_, rfl⟩ fun there => (whole there).elim
    simp only [ne_eq, not_true, false_iff]
    omega

theorem Between.step (accepted : Accepted lines .connect length) (between : Between lines reception)
    (sends : Sends (encodeLines lines) reception outcomes)
    (keeps : Keeps fs (encodeLines lines) length reception outcomes)
    (taken : reception.step fs outcomes = some next) : Between lines next := by
  refine ⟨between.standing.step taken, fun whole => ?_⟩
  have called := step_call taken
  obtain ⟨arrived, arrives, same, parsed⟩ := call_cases called
  have promise := keeps _ called
  have result : next = ⟨(HttpConn.processRead fs arrived.conn).2, arrived.received⟩ := by
    rw [parsed, ← same]
  have missing : ¬ (encodeLines lines).length + length ≤ next.received.length := fun complete =>
    promise.1.mpr complete rfl
  subst result
  obtain ⟨entry, goesOn, entered⟩ := between.enters fs accepted arrives ((sends arrived arrives).begins whole)
  dsimp only at *
  have none : ¬ ∃ line rest, Complete (arrived.received.drop (encodeLines lines).length) line rest := by
    rintro ⟨line, rest, found⟩
    refine entered.call_damage fs accepted (by omega) found ?_
    rw [← goesOn]
    exact promise.2
  rw [goesOn]
  exact (entered.call_short fs accepted (by omega)).2 none

theorem Between.start (conn : HttpConn) (accepted : Accepted lines .connect length) : Between lines (start conn) := by
  refine ⟨.start conn, fun empty => ?_⟩
  match lines with
  | [] => cases accepted.2
  | line :: lines => simp [Reception.start, encodeLines_cons] at empty

/-- Over all calls of a run with a request of this head, the promise about its body is kept
exactly when the bytes are favourable in every call. -/
theorem body_completes_iff (fs : FileSystem) (conn : HttpConn) (accepted : Accepted lines .connect length)
    {arrivals : List (List HttpConn.Recv)}
    (request : Meets (Reception.step fs) (Sends (encodeLines lines)) (Reception.start conn) arrivals) :
    Meets (Reception.step fs) (Keeps fs (encodeLines lines) length) (Reception.start conn) arrivals ↔
      Meets (Reception.step fs) (Suits (encodeLines lines) length) (Reception.start conn) arrivals := by
  refine meets_congr ?_ ?_ (Between.start conn accepted) request
  · intro reception outcomes between sends
    unfold Keeps Suits call
    cases taken : reception.read outcomes with
    | none => simp
    | some arrived =>
      have same := between.completes_iff fs accepted taken (sends arrived taken)
      simpa using same
  · intro reception outcomes next between sends keeps taken
    exact between.step accepted sends keeps taken

/-- The head in one call, and the body in the next. -/
theorem body_completes_iff_two_calls :
    Meets (Reception.step ⟨fun _ => none, fun _ => none⟩)
        (Keeps ⟨fun _ => none, fun _ => none⟩
          (encodeLines [bytes "GET / HTTP/1.1", bytes "Content-Length: 4", []]) 4) (Reception.start .zeroed)
        [[.data (bytes "GET / HTTP/1.1\r\nContent-Length: 4\r\n\r\n")], [.data (bytes "abcd")]] ↔
      Meets (Reception.step ⟨fun _ => none, fun _ => none⟩)
        (Suits (encodeLines [bytes "GET / HTTP/1.1", bytes "Content-Length: 4", []]) 4) (Reception.start .zeroed)
        [[.data (bytes "GET / HTTP/1.1\r\nContent-Length: 4\r\n\r\n")], [.data (bytes "abcd")]] :=
  body_completes_iff _ _ ⟨by decide +kernel, by decide +kernel⟩ (by decide +kernel)

/-- With the first half of the body in the same call as the head, the second half is not enough. -/
theorem body_in_halves_waits :
    Accepted [bytes "GET / HTTP/1.1", bytes "Content-Length: 4", []] .connect 4 ∧
      Meets (Reception.step ⟨fun _ => none, fun _ => none⟩)
        (Sends (encodeLines [bytes "GET / HTTP/1.1", bytes "Content-Length: 4", []])) (Reception.start .zeroed)
        [[.data (bytes "GET / HTTP/1.1\r\nContent-Length: 4\r\n\r\nab")], [.data (bytes "cd")]] ∧
      ¬ Meets (Reception.step ⟨fun _ => none, fun _ => none⟩)
        (Keeps ⟨fun _ => none, fun _ => none⟩
          (encodeLines [bytes "GET / HTTP/1.1", bytes "Content-Length: 4", []]) 4) (Reception.start .zeroed)
        [[.data (bytes "GET / HTTP/1.1\r\nContent-Length: 4\r\n\r\nab")], [.data (bytes "cd")]] :=
  ⟨⟨by decide +kernel, by decide +kernel⟩, by decide +kernel, by decide +kernel⟩

end Reception
end UnixProgramming.Pool

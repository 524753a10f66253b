import UnixProgramming.Pool.Request
import UnixProgramming.Pool.Transmission
import UnixProgramming.Pool.Framing

/-! A client's stream of requests on a connection that is kept alive. `write()` resets
the connection as a whole once a response is sent, so what `read()` has taken in of the
next request by then is gone; as long as it never takes in more than the request at
hand, every request is answered, in order. -/

namespace UnixProgramming.Pool

open UnixProgramming.Lib HttpConn

/-! ## The stream -/

/-- A connection with the bytes that have arrived but are not read, those the client
has yet to get through, and the responses sent so far. -/
structure Stream where
  session : Session
  socket : List UInt8
  coming : List UInt8
  responses : List (List UInt8)
deriving DecidableEq, Repr

/-- Bytes arrive, `read()` takes in what is there in some pieces, `process()` runs,
and `write()` gets the whole response through or nothing. -/
inductive StreamEvent where
  | arrive (count : Nat)
  | read (pieces : List (List UInt8))
  | process
  | write
  | blocked
deriving DecidableEq, Repr

section

variable (fs : FileSystem) (memory : Address → List UInt8)

def Stream.step (stream : Stream) : StreamEvent → Option Stream
  | .arrive count =>
    some { stream with
      socket := stream.socket ++ stream.coming.take count
      coming := stream.coming.drop count }
  | .read pieces =>
    if pieces.flatten = stream.socket ∧ ∀ piece ∈ pieces, piece ≠ [] then
      (stream.session.step (.readable (pieces.map .data) true)).map fun session =>
        { stream with
          session := session
          socket := stream.socket.drop (session.conn.readIdx - stream.session.conn.readIdx) }
    else none
  | .process => (stream.session.step (.process fs)).map fun session => { stream with session := session }
  | .write =>
    let outcomes := [.accepted (stream.session.conn.gather memory).length]
    match stream.session.conn.write memory outcomes, stream.session.step (.writable memory outcomes) with
    | some result, some session => some { stream with session := session, responses := stream.responses ++ [result.sent] }
    | _, _ => none
  | .blocked => (stream.session.step (.writable memory [.again])).map fun session => { stream with session := session }

end

/-- The bytes of some requests, one behind the other. -/
def wire (requests : List GetRequest) : List UInt8 := (requests.map GetRequest.encode).flatten

/-- The connection has been accepted, and all requests are on their way. -/
def Stream.start (conn : HttpConn) (sockfd : Nat) (requests : List GetRequest) : Stream :=
  ⟨⟨conn.initConn sockfd, .armed .epollin⟩, [], wire requests, []⟩

/-- The response to a request for a file with the given contents. -/
def answer (contents : List UInt8 → List UInt8) (request : GetRequest) : List UInt8 :=
  fileHeader (contents request.path).length true ++ contents request.path

/-- The file the request names is there, can be read and mapped, and is not empty. -/
structure Served (fs : FileSystem) (memory : Address → List UInt8) (contents : List UInt8 → List UInt8)
    (request : GetRequest) : Prop where
  nonempty : contents request.path ≠ []
  found : fs.stat (realPath request.path) = some ⟨(contents request.path).length, true, false⟩
  mapped : ∃ address, fs.mmap (realPath request.path) = some address ∧
    memory (.mapped address) = contents request.path

/-- Every response so far is the one to the next request, no byte of the others is
lost, the connection goes on, and when nothing is left to do every request has been
answered. -/
structure Lawful (fs : FileSystem) (memory : Address → List UInt8) (contents : List UInt8 → List UInt8)
    (requests : List GetRequest) (stream : Stream) : Prop where
  ordered : stream.responses = (requests.take stream.responses.length).map (answer contents)
  accounted : stream.session.conn.readIdx + stream.socket.length + stream.coming.length =
    (wire (requests.drop stream.responses.length)).length
  alive : stream.session.phase = .armed .epollin ∨ stream.session.phase = .queued ∨
    (stream.session.phase = .armed .epollout ∧ (stream.step fs memory .write).isSome = true)
  complete : stream.coming = [] → stream.socket = [] → stream.session.phase = .armed .epollin →
    stream.responses = requests.map (answer contents)

/-- What has been read and what waits in the socket does not go beyond the end of the
request at hand. -/
def Patient (requests : List GetRequest) (stream : Stream) : StreamEvent → Prop
  | .read _ => stream.session.conn.readIdx + stream.socket.length ≤
      (wire (requests.drop stream.responses.length |>.take 1)).length
  | _ => True

/-! ## Parsing on the way -/

variable {fs : FileSystem} {memory : Address → List UInt8} {contents : List UInt8 → List UInt8}
variable {request : GetRequest} {conn base : HttpConn} {text more : List UInt8}

/-- A whole request is answered with its file. -/
theorem processRead_whole (base : HttpConn) (wellFormed : request.WellFormed) (served : Served fs memory contents request) :
    ∃ parsed address, processRead fs (base.init.extend request.encode) = (.fileRequest, parsed) ∧
      parsed.checkedIdx = request.encode.length ∧ parsed.checkState = .header ∧ parsed.linger = true ∧
      parsed.fileStat = ⟨(contents request.path).length, true, false⟩ ∧ parsed.fileAddress = .mapped address ∧
      memory (.mapped address) = contents request.path := by
  obtain ⟨final, result, path, checked, state, linger⟩ := processRead_request fs base wellFormed
  obtain ⟨address, mapped, held⟩ := served.mapped
  have done : doRequest fs final = (.fileRequest, { final with
      realFile := realPath request.path
      fileStat := ⟨(contents request.path).length, true, false⟩
      fileAddress := .mapped address
      mapCalls := final.mapCalls ++ [.mmap (some address) (contents request.path).length] }) := by
    unfold doRequest
    simp [path, served.found, mapped]
  exact ⟨_, address, result.trans done, checked, state, linger, rfl, rfl, held⟩

/-- The parser does not get to a body in a part of a request. -/
theorem processRead_head (base : HttpConn) (wellFormed : request.WellFormed) (served : Served fs memory contents request)
    (split : request.encode = text ++ more) : (processRead fs (base.init.extend text)).2.checkState ≠ .connect := by
  obtain ⟨parsed, address, result, -, state, -⟩ := processRead_whole base wellFormed served
  intro inBody
  have later := ((Sound.init base).extend text).connect_extend .ok inBody more
  rw [extend_extend, ← split] at later
  simp only [processRead] at result
  rw [result, state] at later
  cases later

/-- A request that is not complete has to wait. -/
theorem processRead_part (base : HttpConn) (wellFormed : request.WellFormed) (served : Served fs memory contents request)
    (split : request.encode = text ++ more) (nonempty : more ≠ []) :
    (processRead fs (base.init.extend text)).1 = .noRequest := by
  by_contra isResult
  have head := processRead_head base wellFormed served split
  obtain ⟨parsed, address, result, checked, -⟩ := processRead_whole base wellFormed served
  obtain ⟨sound, -, ends⟩ := ((Sound.init base).extend text).processReadLoop_extend .ok head more
  have same := ends isResult
  have bound := sound.checked
  rw [processReadLoop_readIdx, readIdx_extend] at bound
  rw [extend_extend, ← split] at same
  simp only [processRead] at result
  rw [result] at same
  have early := congrArg (fun pair => pair.2.checkedIdx) same
  simp only [checked, HttpConn.extend, split, List.length_append] at early
  have fresh : base.init.readIdx = 0 := rfl
  have positive := List.length_pos_of_ne_nil nonempty
  simp only [HttpConn.extend] at bound
  omega

/-! ## The invariant -/

/-- The connection has read some bytes since it was reset, and parsing any further
ones gives what parsing all of them at once gives. -/
structure Buffered (fs : FileSystem) (base : HttpConn) (text : List UInt8) (conn : HttpConn) : Prop where
  sound : Sound conn
  readIdx : conn.readIdx = text.length
  unwritten : conn.writeBuf = []
  resumes : ∀ more, processRead fs (conn.extend more) = processRead fs (base.init.extend (text ++ more))

theorem Buffered.init (fs : FileSystem) (base : HttpConn) : Buffered fs base [] base.init :=
  ⟨Sound.init base, rfl, rfl, fun _ => rfl⟩

theorem Buffered.extend (buffered : Buffered fs base text conn) (more : List UInt8) :
    Buffered fs base (text ++ more) (conn.extend more) where
  sound := buffered.sound.extend more
  readIdx := by rw [readIdx_extend, buffered.readIdx, List.length_append]
  unwritten := buffered.unwritten
  resumes := by
    intro later
    rw [extend_extend, buffered.resumes, List.append_assoc]

theorem Buffered.parsed (buffered : Buffered fs base text conn) :
    processRead fs conn = processRead fs (base.init.extend text) := by
  simpa [extend_nil] using buffered.resumes []

/-- Parsing an incomplete request changes nothing about what is to come. -/
theorem Buffered.processRead (buffered : Buffered fs base text conn)
    (waiting : (processRead fs (base.init.extend text)).1 = .noRequest)
    (head : (processRead fs (base.init.extend text)).2.checkState ≠ .connect) :
    Buffered fs base text (processRead fs conn).2 where
  sound := (buffered.sound.processReadLoop_extend .ok (by rw [← HttpConn.processRead, buffered.parsed]; exact head) []).1
  readIdx := (processReadLoop_readIdx conn .ok).trans buffered.readIdx
  unwritten := (processReadLoop_requested fs conn .ok).2.1.trans buffered.unwritten
  resumes := by
    intro more
    rw [← buffered.parsed] at waiting head
    rw [← buffered.resumes]
    exact ((buffered.sound.processReadLoop_extend .ok head more).2.1 waiting).symm

/-- A complete response waits to be sent on a connection that is to be kept. -/
structure Prepared (memory : Address → List UInt8) (contents : List UInt8 → List UInt8) (request : GetRequest)
    (conn : HttpConn) : Prop where
  readIdx : conn.readIdx = request.encode.length
  writeBuf : conn.writeBuf = fileHeader (contents request.path).length true
  whole : conn.gather memory = answer contents request
  linger : conn.linger = true

theorem fileHeader_nonempty (size : Nat) (linger : Bool) : 17 ≤ (fileHeader size linger).length := by
  have first : statusText.length = 17 := by decide
  simp only [fileHeader, List.length_append]
  omega

/-- `process()` on a complete request prepares the response. -/
theorem Buffered.process (buffered : Buffered fs base request.encode conn) (wellFormed : request.WellFormed)
    (served : Served fs memory contents request) :
    ∃ ready, conn.process fs = ⟨ready, some .epollout⟩ ∧ Prepared memory contents request ready := by
  obtain ⟨parsed, address, result, -, -, linger, stat, mapped, held⟩ := processRead_whole base wellFormed served
  have unwritten : parsed.writeBuf = [] := by
    have kept : (HttpConn.processRead fs conn).2.writeBuf = conn.writeBuf :=
      (processReadLoop_requested fs conn .ok).2.1
    rw [buffered.parsed, result] at kept
    exact kept.trans buffered.unwritten
  have length : parsed.readIdx = request.encode.length := by
    have kept : (HttpConn.processRead fs conn).2.readIdx = conn.readIdx := processReadLoop_readIdx conn .ok
    rw [buffered.parsed, result] at kept
    exact kept.trans buffered.readIdx
  have nonempty : parsed.fileStat.size ≠ 0 := by
    simpa [stat] using served.nonempty
  have written : parsed.processWrite .fileRequest = _ := fileResponse_eq unwritten nonempty
  have processed : conn.process fs = ⟨(parsed.processWrite .fileRequest).2, some .epollout⟩ := by
    unfold HttpConn.process
    rw [buffered.parsed, result]
    simp only [reduceCtorEq, if_false, written, if_true]
  rw [written] at processed
  refine ⟨_, processed, length, ?_, ?_, linger⟩
  · simp [stat, linger]
  · simp [gather, stat, linger, mapped, held, answer]

/-- `write()` sends the response and resets the connection. -/
theorem Prepared.write (prepared : Prepared memory contents request conn) :
    conn.write memory [.accepted (conn.gather memory).length] =
      some ⟨true, conn.unmap.init, some .epollin, answer contents request⟩ := by
  have header := fileHeader_nonempty (contents request.path).length true
  have length : conn.writeBuf.length ≤ (conn.gather memory).length := by
    simp [prepared.writeBuf, prepared.whole, answer]
  unfold HttpConn.write
  rw [if_neg (by rw [prepared.writeBuf]; omega)]
  unfold writeLoop
  have keeps : conn.unmap.linger = true := by
    unfold HttpConn.unmap
    split_ifs <;> exact prepared.linger
  simp only [keeps, if_true]
  rw [if_pos (by omega), List.take_length, prepared.whole]


/-- The stream between two requests or in one of them, or with a response to be sent.
The requests before the one at hand have been answered. -/
inductive Following (fs : FileSystem) (memory : Address → List UInt8) (contents : List UInt8 → List UInt8)
    (requests : List GetRequest) (stream : Stream) : Prop where
  | receiving (base : HttpConn) (text : List UInt8) (answered left : List GetRequest)
      (split : requests = answered ++ left) (responses : stream.responses = answered.map (answer contents))
      (phase : stream.session.phase = .armed .epollin ∨ stream.session.phase = .queued)
      (buffered : Buffered fs base text stream.session.conn)
      (unread : text ++ (stream.socket ++ stream.coming) = wire left)
      (atHand : text <+: wire (left.take 1))
      (incomplete : stream.session.phase = .armed .epollin → text ≠ wire (left.take 1) ∨ left = [])
  | answering (request : GetRequest) (answered left : List GetRequest)
      (split : requests = answered ++ request :: left) (responses : stream.responses = answered.map (answer contents))
      (phase : stream.session.phase = .armed .epollout)
      (prepared : Prepared memory contents request stream.session.conn)
      (unread : stream.socket ++ stream.coming = wire left)

variable {requests : List GetRequest} {stream next : Stream}

theorem wire_cons (request : GetRequest) (left : List GetRequest) :
    wire (request :: left) = request.encode ++ wire left := by simp [wire]

theorem wire_take_one (request : GetRequest) (left : List GetRequest) :
    wire ((request :: left).take 1) = request.encode := by simp [wire]

theorem encode_nonempty (request : GetRequest) : request.encode ≠ [] := by simp [GetRequest.encode]

theorem Following.start (conn : HttpConn) (sockfd : Nat) (requests : List GetRequest) :
    Following fs memory contents requests (Stream.start conn sockfd requests) := by
  refine .receiving _ [] [] requests rfl rfl (.inl rfl) (Buffered.init fs _) (by simp [Stream.start]) (by simp) ?_
  intro _
  cases requests with
  | nil => exact .inr rfl
  | cons request left =>
    rw [wire_take_one]
    exact .inl (encode_nonempty request).symm

theorem Following.lawful (following : Following fs memory contents requests stream) :
    Lawful fs memory contents requests stream := by
  cases following with
  | receiving base text answered left split responses phase buffered unread atHand incomplete =>
    have count : stream.responses.length = answered.length := by simp [responses]
    refine ⟨?_, ?_, ?_, ?_⟩
    · simp [split, responses]
    · rw [count, split, List.drop_left, ← unread, buffered.readIdx]
      simp only [List.length_append]
      omega
    · rcases phase with armed | queued
      · exact .inl armed
      · exact .inr (.inl queued)
    · intro arrived read armed
      have whole : text = wire left := by simpa [arrived, read] using unread
      cases left with
      | nil => simp [split, responses]
      | cons request others =>
        rw [wire_take_one] at atHand
        have short := atHand.length_le
        have waiting := incomplete armed
        rw [wire_take_one] at waiting
        rw [whole, wire_cons] at short waiting
        have rest : wire others = [] := by
          apply List.eq_nil_of_length_eq_zero
          rw [List.length_append] at short
          omega
        simp [rest] at waiting
  | answering request answered left split responses phase prepared unread =>
    have count : stream.responses.length = answered.length := by simp [responses]
    refine ⟨?_, ?_, ?_, ?_⟩
    · simp [split, responses]
    · rw [count, split, List.drop_left, wire_cons, ← unread, prepared.readIdx]
      simp only [List.length_append]
      omega
    · refine .inr (.inr ⟨phase, ?_⟩)
      simp [Stream.step, Session.step, phase, prepared.write]
    · intro _ _ armed
      simp [phase] at armed

/-! ## Steps -/

theorem Following.arrive (following : Following fs memory contents requests stream) (count : Nat) :
    Following fs memory contents requests { stream with
      socket := stream.socket ++ stream.coming.take count
      coming := stream.coming.drop count } := by
  cases following with
  | receiving base text answered left split responses phase buffered unread atHand incomplete =>
    exact .receiving base text answered left split responses phase buffered (by simpa using unread) atHand incomplete
  | answering request answered left split responses phase prepared unread =>
    exact .answering request answered left split responses phase prepared (by simpa using unread)

theorem wire_take_front (requests : List GetRequest) (count : Nat) : wire (requests.take count) <+: wire requests :=
  ⟨wire (requests.drop count),
    by simp only [wire, ← List.flatten_append, ← List.map_append, List.take_append_drop]⟩

theorem Following.read (following : Following fs memory contents requests stream)
    (short : (wire requests).length < readBufferSize) {pieces : List (List UInt8)}
    (patient : Patient requests stream (.read pieces)) (taken : stream.step fs memory (.read pieces) = some next) :
    Following fs memory contents requests next := by
  simp only [Stream.step] at taken
  split_ifs at taken with whole
  obtain ⟨whole, nonempty⟩ := whole
  obtain ⟨session, received, rfl⟩ := Option.map_eq_some_iff.mp taken
  simp only [Session.step] at received
  by_cases armed : stream.session.phase = .armed .epollin
  swap
  · simp [armed] at received
  cases following with
  | answering request answered left split responses phase prepared unread => simp [phase] at armed
  | receiving base text answered left split responses phase buffered unread atHand incomplete =>
    have count : stream.responses.length = answered.length := by simp [responses]
    have bound : text.length + stream.socket.length ≤ (wire (left.take 1)).length := by
      simpa [Patient, count, split, buffered.readIdx] using patient
    have room : stream.session.conn.readIdx + pieces.flatten.length < readBufferSize := by
      have first := (wire_take_front left 1).length_le
      have later : (wire left).length ≤ (wire requests).length := by simp [split, wire]
      rw [whole, buffered.readIdx]
      omega
    rw [if_pos armed, read_extend _ _ nonempty room, whole] at received
    cases received
    refine .receiving base (text ++ stream.socket) answered left split responses (.inr rfl)
      (buffered.extend stream.socket) ?_ ?_ (by simp)
    · rw [← unread]
      simp [readIdx_extend]
    · have atFront : text ++ stream.socket <+: wire left := ⟨stream.coming, by simpa using unread⟩
      exact List.prefix_of_prefix_length_le atFront (wire_take_front left 1) (by simpa using bound)

theorem Following.process (following : Following fs memory contents requests stream)
    (wellFormed : ∀ request ∈ requests, request.WellFormed)
    (served : ∀ request ∈ requests, Served fs memory contents request)
    (taken : stream.step fs memory .process = some next) : Following fs memory contents requests next := by
  simp only [Stream.step] at taken
  obtain ⟨session, processed, rfl⟩ := Option.map_eq_some_iff.mp taken
  simp only [Session.step] at processed
  split_ifs at processed with queued
  cases following with
  | answering request answered left split responses phase prepared unread => simp [phase] at queued
  | receiving base text answered left split responses phase buffered unread atHand incomplete =>
    -- the parser waits unless the request at hand is complete
    have waits : (processRead fs (base.init.extend text)).1 = .noRequest →
        (processRead fs (base.init.extend text)).2.checkState ≠ .connect →
        (text ≠ wire (left.take 1) ∨ left = []) → Following fs memory contents requests { stream with session := session } := by
      intro waiting head open_
      have kept := buffered.processRead waiting head
      rw [← buffered.parsed] at waiting
      unfold HttpConn.process at processed
      simp only [waiting, if_true] at processed
      cases processed
      exact .receiving base text answered left split responses (.inl rfl) kept unread atHand fun _ => open_
    cases left with
    | nil =>
      have empty : text = [] := by simpa [wire] using atHand
      subst empty
      exact waits (by rw [extend_nil]; exact processRead_init fs base) (by
        rw [extend_nil, processRead, processReadLoop_stop (show base.init.loopCondition .ok = (.open, base.init) from rfl)
          (by decide)]
        simp [HttpConn.init]) (.inr rfl)
    | cons request left =>
      have member : request ∈ requests := by simp [split]
      rw [wire_take_one] at atHand waits
      obtain ⟨more, rest⟩ := atHand
      by_cases complete : more = []
      · obtain rfl : text = request.encode := by simpa [complete] using rest
        obtain ⟨ready, answered', prepared⟩ := buffered.process (wellFormed request member) (served request member)
        rw [answered'] at processed
        cases processed
        refine .answering request answered left split responses rfl prepared ?_
        rw [wire_cons] at unread
        exact List.append_cancel_left unread
      · exact waits (processRead_part base (wellFormed request member) (served request member) rest.symm complete)
          (processRead_head base (wellFormed request member) (served request member) rest.symm)
          (.inl fun same => complete (by simpa [same] using rest))

theorem Following.write (following : Following fs memory contents requests stream)
    (taken : stream.step fs memory .write = some next) : Following fs memory contents requests next := by
  cases following with
  | receiving base text answered left split responses phase buffered unread atHand incomplete =>
    rcases phase with armed | queued
    · simp [Stream.step, Session.step, armed] at taken
    · simp [Stream.step, Session.step, queued] at taken
  | answering request answered left split responses phase prepared unread =>
    simp only [Stream.step, Session.step, phase, prepared.write, if_true] at taken
    cases taken
    refine .receiving stream.session.conn.unmap [] (answered ++ [request]) left (by simp [split]) (by simp [responses])
      (.inl rfl) (Buffered.init fs _) unread (by simp) fun _ => ?_
    cases left with
    | nil => exact .inr rfl
    | cons later others =>
      rw [wire_take_one]
      exact .inl (encode_nonempty later).symm

theorem Following.blocked (following : Following fs memory contents requests stream)
    (taken : stream.step fs memory .blocked = some next) : Following fs memory contents requests next := by
  cases following with
  | receiving base text answered left split responses phase buffered unread atHand incomplete =>
    rcases phase with armed | queued
    · simp [Stream.step, Session.step, armed] at taken
    · simp [Stream.step, Session.step, queued] at taken
  | answering request answered left split responses phase prepared unread =>
    have header := fileHeader_nonempty (contents request.path).length true
    have same : stream.session.conn.write memory [.again] = some ⟨true, stream.session.conn, some .epollout, []⟩ := by
      unfold HttpConn.write
      rw [if_neg (by rw [prepared.writeBuf]; omega)]
      rfl
    simp only [Stream.step, Session.step, phase, same, if_true, Option.map_some] at taken
    cases taken
    exact .answering request answered left split responses rfl prepared unread

/-- As long as `read()` does not take in more than the request at hand, the requests
of a client are answered one by one, however their bytes arrive. -/
theorem responses_lawful (fs : FileSystem) (memory : Address → List UInt8) (contents : List UInt8 → List UInt8)
    (conn : HttpConn) (sockfd : Nat) (requests : List GetRequest)
    (wellFormed : ∀ request ∈ requests, request.WellFormed)
    (served : ∀ request ∈ requests, Served fs memory contents request)
    (short : (wire requests).length < readBufferSize) (events : List StreamEvent)
    (patient : Meets (Stream.step fs memory) (Patient requests) (Stream.start conn sockfd requests) events)
    (final : Stream) (reached : run (Stream.step fs memory) (Stream.start conn sockfd requests) events = some final) :
    Lawful fs memory contents requests final := by
  have following : Following fs memory contents requests final := by
    refine run_invariant_of_meets ?_ (Following.start conn sockfd requests) patient reached
    intro stream event next following guard taken
    cases event with
    | arrive count =>
      cases taken
      exact following.arrive count
    | read pieces => exact following.read short guard taken
    | process => exact following.process wellFormed served taken
    | write => exact following.write taken
    | blocked => exact following.blocked taken
  exact following.lawful

/-! ## Two requests -/

/-- A file system in which every path is a file that can be mapped. -/
def helloFiles : FileSystem := ⟨fun _ => some ⟨5, true, false⟩, fun _ => some 0⟩

/-- A request for the given path that keeps the connection. -/
def plainRequest (path : String) : GetRequest := ⟨bytes path, [GetRequest.keepAlive]⟩

theorem plainRequest_headers (path : String) :
    ∀ line ∈ (plainRequest path).headers, GetRequest.HeaderLine line := by
  intro line member
  obtain rfl : line = GetRequest.keepAlive := by simpa [plainRequest] using member
  exact ⟨by decide, List.all_eq_true.mp (by decide), by decide⟩

theorem twoRequests_wellFormed : ∀ request ∈ [plainRequest "/a", plainRequest "/b"], request.WellFormed := by
  intro request member
  rcases List.mem_pair.mp member with rfl | rfl
  · exact ⟨by simp [plainRequest, bytes, plain, isBlank], by decide, plainRequest_headers "/a", by decide⟩
  · exact ⟨by simp [plainRequest, bytes, plain, isBlank], by decide, plainRequest_headers "/b", by decide⟩

theorem helloFiles_served (request : GetRequest) :
    Served helloFiles (fun _ => bytes "hello") (fun _ => bytes "hello") request :=
  ⟨by decide, rfl, 0, rfl, rfl⟩

instance (requests : List GetRequest) (stream : Stream) (event : StreamEvent) :
    Decidable (Patient requests stream event) :=
  match event with
  | .read _ => inferInstanceAs (Decidable (_ ≤ _))
  | .arrive _ | .process | .write | .blocked => .isTrue trivial

/-- The first request comes in two pieces, and the second one while the response to
the first is being sent. -/
def oneByOne : List StreamEvent :=
  [.arrive 10, .read [(plainRequest "/a").encode.take 10], .process, .arrive 33,
    .read [(plainRequest "/a").encode.drop 10], .process, .blocked, .arrive 43, .write,
    .read [(plainRequest "/b").encode], .process, .write]

theorem responses_lawful_one_by_one : ∃ final,
    run (Stream.step helloFiles fun _ => bytes "hello")
      (Stream.start zeroed 5 [plainRequest "/a", plainRequest "/b"]) oneByOne = some final ∧
    final.responses.length = 2 ∧ Lawful helloFiles (fun _ => bytes "hello") (fun _ => bytes "hello")
      [plainRequest "/a", plainRequest "/b"] final := by
  have patient : Meets (Stream.step helloFiles fun _ => bytes "hello") (Patient [plainRequest "/a", plainRequest "/b"])
      (Stream.start zeroed 5 [plainRequest "/a", plainRequest "/b"]) oneByOne := by decide +kernel
  have twice : (run (Stream.step helloFiles fun _ => bytes "hello")
      (Stream.start zeroed 5 [plainRequest "/a", plainRequest "/b"]) oneByOne).map
      (fun final => final.responses.length) = some 2 := by decide +kernel
  obtain ⟨final, reached, count⟩ := Option.map_eq_some_iff.mp twice
  exact ⟨final, reached, count, responses_lawful helloFiles _ _ zeroed 5 _ twoRequests_wellFormed
    (fun request _ => helloFiles_served request) (by decide) oneByOne patient final reached⟩

/-- Both requests arrive in one segment: the second one is read along with the first
and forgotten when the connection is reset. -/
theorem responses_not_lawful : ¬ ∀ (fs : FileSystem) (memory : Address → List UInt8)
    (contents : List UInt8 → List UInt8) (conn : HttpConn) (sockfd : Nat) (requests : List GetRequest),
    (∀ request ∈ requests, request.WellFormed) → (∀ request ∈ requests, Served fs memory contents request) →
    (wire requests).length < readBufferSize → ∀ (events : List StreamEvent) (final : Stream),
    run (Stream.step fs memory) (Stream.start conn sockfd requests) events = some final →
    Lawful fs memory contents requests final := by
  intro lawful
  have lost : (run (Stream.step helloFiles fun _ => bytes "hello")
      (Stream.start zeroed 5 [plainRequest "/a", plainRequest "/b"])
      [.arrive 86, .read [wire [plainRequest "/a", plainRequest "/b"]], .process, .write]).map
      (fun final => (final.coming, final.socket, final.session.phase, final.responses.length)) =
      some ([], [], .armed .epollin, 1) := by decide +kernel
  obtain ⟨final, reached, found⟩ := Option.map_eq_some_iff.mp lost
  simp only [Prod.mk.injEq] at found
  obtain ⟨coming, socket, phase, count⟩ := found
  have held := lawful helloFiles _ (fun _ => bytes "hello") zeroed 5 _ twoRequests_wellFormed
    (fun request _ => helloFiles_served request) (by decide) _ final reached
  have every := congrArg List.length (held.complete coming socket phase)
  simp [count] at every

end UnixProgramming.Pool

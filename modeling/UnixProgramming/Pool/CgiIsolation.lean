import UnixProgramming.Pool.CgiChild

/-! What the child keeps about its clients: a descriptor that is open belongs to one
client, and an object reads the bytes of the client its descriptor belongs to. -/

namespace UnixProgramming.Pool

open UnixProgramming.Lib HttpConn

variable {access : List UInt8 → Bool} {fork : Bool} {count : Nat} {fails : Bool}

/-- What one `recv` of a socket brings into so much room. -/
theorem received_cases (socket : Socket) (count : Nat) (fails : Bool) (room : Nat) :
    (∃ byte bytes, CgiConn.received room (recvOutcome socket count fails) = .data (byte :: bytes) ∧
      byte :: bytes <+: socket.incoming) ∨
    (CgiConn.received room (recvOutcome socket count fails) = .data [] ∧
      (room = 0 ∨ socket.incoming = [] ∧ socket.ended = true)) ∨
    CgiConn.received room (recvOutcome socket count fails) = .error ∨
    (CgiConn.received room (recvOutcome socket count fails) = .again ∧ 0 < room ∧ socket.ready = false) := by
  by_cases full : room = 0
  · exact .inr (.inl ⟨by simp [CgiConn.received, full], .inl full⟩)
  cases fails with
  | true => exact .inr (.inr (.inl (by simp [CgiConn.received, full, recvOutcome])))
  | false =>
    cases found : socket.recv (max 1 count) with
    | none =>
      refine .inr (.inr (.inr ⟨by simp [CgiConn.received, full, recvOutcome, found], by omega, ?_⟩))
      exact Socket.recv_none.mp found
    | some bytes =>
      have brings : CgiConn.received room (recvOutcome socket count false) = .data (bytes.take room) := by
        simp [CgiConn.received, full, recvOutcome, found]
      cases bytes with
      | nil =>
        have finished := (Socket.recv_nil (by omega)).mp found
        exact .inr (.inl ⟨by simpa using brings, .inr finished⟩)
      | cons byte rest =>
        have front : (byte :: rest).take room <+: socket.incoming :=
          (List.take_prefix _ _).trans ⟨_, Socket.recv_prefix found⟩
        obtain ⟨space, rfl⟩ := Nat.exists_eq_succ_of_ne_zero full
        exact .inl ⟨byte, rest.take space, brings, front⟩

/-- Why a descriptor was given up: the request was run, `recv` failed, the buffer was
full without a line, or the client had closed and nothing was left. -/
inductive Closed (socket : Socket) (calls : List CgiCall) : Prop
  | executed (conn : CgiConn) (done : Executed (arrived calls) ⟨conn, calls, false⟩)
  | failed (conn : CgiConn) (stopped : Reading (arrived calls) ⟨conn, calls, false⟩) (length : Nat)
    (error : .recv length .error ∈ calls)
  | full (conn : CgiConn) (stopped : Reading (arrived calls) ⟨conn, calls, false⟩)
    (full : (arrived calls).length = CgiConn.bufferSize - 1)
  | drained (conn : CgiConn) (stopped : Reading (arrived calls) ⟨conn, calls, false⟩)
    (empty : socket.incoming = []) (ended : socket.ended = true)

/-- What one iteration comes to for a client whose request is not complete. -/
inductive After (socket : Socket) (calls : List CgiCall) (turn : CgiResult × Bool) : Prop
  | goes (continues : turn.2 = true) (connected : turn.1.connected = true)
    (reading : Reading (arrived (calls ++ turn.1.calls)) ⟨turn.1.conn, calls ++ turn.1.calls, true⟩)
  | waits (leaves : turn.2 = false) (connected : turn.1.connected = true)
    (reading : Reading (arrived (calls ++ turn.1.calls)) ⟨turn.1.conn, calls ++ turn.1.calls, true⟩)
    (short : (arrived (calls ++ turn.1.calls)).length < CgiConn.bufferSize - 1)
    (quiet : (socket.take (arrived turn.1.calls).length).ready = false)
  | ends (leaves : turn.2 = false) (disconnected : turn.1.connected = false)
    (closed : Closed (socket.take (arrived turn.1.calls).length) (calls ++ turn.1.calls))

theorem CgiConn.turn_finish {conn : CgiConn} {outcome : Recv}
    (none : ∀ byte bytes, received conn.room outcome ≠ .data (byte :: bytes)) :
    conn.turn access fork outcome = (conn.finish (received conn.room outcome), false) := by
  unfold turn
  split
  · next byte bytes brings => exact (none byte bytes brings).elim
  · rfl

theorem Reading.own {received : List UInt8} {state : CgiResult} (reading : Reading received state) :
    Reading (arrived state.calls) state := by
  rw [reading.bytes]
  exact reading

theorem Executed.own {received : List UInt8} {state : CgiResult} (executed : Executed received state) :
    Executed (arrived state.calls) state := by
  rw [executed.bytes]
  exact executed

section Turn
variable {conn : CgiConn} {calls : List CgiCall}

/-- Once the descriptor is given up for lack of a line, the reason stands. -/
theorem Reading.closed_turn (reading : Reading (arrived calls) ⟨conn, calls, true⟩) (socket : Socket)
    {outcome : Recv} (ended : (CgiCall.recv conn.room outcome).ended = true)
    (cause : outcome = .error ∨ conn.room = 0 ∨ socket.incoming = [] ∧ socket.ended = true) :
    Closed socket (calls ++ [.recv conn.room outcome, .removefd]) := by
  have none : arrived [.recv conn.room outcome, .removefd] = [] := by
    cases outcome with
    | data bytes =>
      have empty : bytes = [] := by simpa [CgiCall.ended] using ended
      simp [arrived, empty]
    | again => rfl
    | error => rfl
  have same : arrived (calls ++ [.recv conn.room outcome, .removefd]) = arrived calls := by
    rw [arrived_append, none, List.append_nil]
  have stopped := (reading.close ended none).own
  rcases cause with rfl | full | ⟨empty, closed⟩
  · exact .failed conn stopped conn.room (by simp)
  · have room : conn.room = CgiConn.bufferSize - 1 - (arrived calls).length := reading.room
    have fits := reading.fits
    refine .full conn stopped ?_
    rw [same]
    omega
  · exact .drained conn stopped empty closed

/-- One iteration on a socket, from a request that is not complete. -/
theorem Reading.after_turn (reading : Reading (arrived calls) ⟨conn, calls, true⟩) (socket : Socket) :
    After socket calls (conn.turn access fork (recvOutcome socket count fails)) := by
  have room : conn.room = CgiConn.bufferSize - 1 - (arrived calls).length := reading.room
  rcases received_cases socket count fails conn.room with
    ⟨byte, bytes, brings, -⟩ | ⟨brings, cause⟩ | brings | ⟨brings, roomy, quiet⟩
  · rcases @Reading.turn_data access fork _ _ reading rfl _ _ _ brings with
      ⟨continues, connected, more, later⟩ | ⟨leaves, all, done⟩
    · have kept := later.own
      simp only [CgiResult.after, connected] at kept
      exact .goes continues connected kept
    · have disconnected : (conn.turn access fork (recvOutcome socket count fails)).1.connected = false := done.closed
      have kept := done.own
      simp only [CgiResult.after, disconnected] at kept
      exact .ends leaves disconnected (.executed _ kept)
  · rw [CgiConn.turn_finish (by simp [brings]), brings]
    exact .ends rfl rfl (reading.closed_turn (socket.take 0) (by simp [CgiCall.ended]) (.inr cause))
  · rw [CgiConn.turn_finish (by simp [brings]), brings]
    exact .ends rfl rfl (reading.closed_turn (socket.take 0) (by simp [CgiCall.ended]) (.inl rfl))
  · rw [CgiConn.turn_finish (by simp [brings]), brings]
    have kept := (@Reading.finish _ _ reading rfl .again (by simp)).1.own
    have same : arrived (calls ++ [.recv conn.room .again]) = arrived calls := by simp [arrived]
    refine .waits rfl rfl kept ?_ quiet
    rw [CgiConn.finish, same]
    omega

/-- What an iteration takes for the client is the front of what waits in its socket. -/
theorem CgiConn.turn_takes (conn : CgiConn) (socket : Socket) :
    arrived (conn.turn access fork (recvOutcome socket count fails)).1.calls ++
      (socket.take (arrived (conn.turn access fork (recvOutcome socket count fails)).1.calls).length).incoming =
      socket.incoming := by
  rw [arrived_turn]
  have front : Recv.bytes (received conn.room (recvOutcome socket count fails)) <+: socket.incoming := by
    rcases received_cases socket count fails conn.room with
      ⟨byte, bytes, brings, starts⟩ | ⟨brings, -⟩ | brings | ⟨brings, -⟩
    · rw [brings]
      exact starts
    all_goals
      rw [brings]
      exact List.nil_prefix
  obtain ⟨rest, whole⟩ := front
  rw [Socket.take, ← whole, List.drop_left]

end Turn

/-! ## The child -/

/-- A client whose descriptor is open: its object holds what it has sent, and unless its
object is being processed, what is there to be received is announced. -/
structure Serving (child : CgiChild) (fd client : Nat) : Prop where
  reading : Reading (arrived (child.calls client)) ⟨child.users fd, child.calls client, true⟩
  short : child.stage.current ≠ some fd → (arrived (child.calls client)).length < CgiConn.bufferSize - 1
  announced : child.stage.current ≠ some fd → (child.sockets client).ready = true →
    (child.sockets client).edge = true ∨ .client fd ∈ child.stage.pending

/-- Where a client stands with the child. -/
inductive Standing (child : CgiChild) (client : Nat) : Prop
  | unknown (absent : client ∉ child.accepted) (closed : ∀ fd, child.files fd ≠ some client)
    (untouched : child.calls client = [])
  | served (fd : Nat) (known : client ∈ child.accepted)
    (only : ∀ other, child.files other = some client ↔ other = fd) (serving : Serving child fd client)
  | closed (known : client ∈ child.accepted) (gone : ∀ fd, child.files fd ≠ some client)
    (closed : Closed (child.sockets client) (child.calls client))
    (once : (child.calls client).count .removefd = 1)

/-- The child serves its clients apart: events are for descriptors that are open, and no
byte a client has sent is lost. -/
structure Isolated (child : CgiChild) : Prop where
  standing : ∀ client, Standing child client
  conserved : ∀ client, arrived (child.calls client) ++ (child.sockets client).incoming = (child.sockets client).sent
  awaited : ∀ fd, .client fd ∈ child.stage.pending → child.files fd ≠ none
  busy : ∀ fd, child.stage.current = some fd → child.files fd ≠ none ∧ .client fd ∉ child.stage.pending
  once : child.stage.pending.Nodup
  stray : child.stray = []

theorem Isolated.start (users : Nat → CgiConn) : Isolated (.start users) where
  standing := fun client => .unknown (by simp [CgiChild.start]) (by simp [CgiChild.start]) rfl
  conserved := fun client => rfl
  awaited := by simp [CgiChild.start, ServeStage.pending]
  busy := by simp [CgiChild.start, ServeStage.current]
  once := List.nodup_nil
  stray := rfl

section Steps
variable {child next : CgiChild} {client : Nat}

/-- A step that leaves a client's descriptor and calls alone. -/
theorem Standing.frame (standing : Standing child client) (files : next.files = child.files)
    (accepted : next.accepted = child.accepted) (calls : next.calls client = child.calls client)
    (serving : ∀ fd, child.files fd = some client → Serving child fd client → Serving next fd client)
    (closed : Closed (child.sockets client) (child.calls client) → Closed (next.sockets client) (child.calls client)) :
    Standing next client := by
  cases standing with
  | unknown absent gone untouched =>
    exact .unknown (accepted ▸ absent) (files ▸ gone) (calls ▸ untouched)
  | served fd known only serves =>
    exact .served fd (accepted ▸ known) (files ▸ only) (serving fd ((only fd).mpr rfl) serves)
  | closed known gone reason once =>
    exact .closed (accepted ▸ known) (files ▸ gone) (calls ▸ closed reason) (calls ▸ once)

/-- A step that changes nothing but the stage, and drops no client's event. -/
theorem Serving.stage {fd : Nat} (serving : Serving child fd client) (users : next.users = child.users)
    (calls : next.calls = child.calls) (sockets : next.sockets = child.sockets)
    (current : next.stage.current ≠ some fd → child.stage.current ≠ some fd)
    (pending : next.stage.current ≠ some fd → .client fd ∈ child.stage.pending → .client fd ∈ next.stage.pending) :
    Serving next fd client where
  reading := by
    rw [users, calls]
    exact serving.reading
  short := by
    intro idle
    rw [calls]
    exact serving.short (current idle)
  announced := by
    intro idle ready
    rw [sockets] at ready ⊢
    exact (serving.announced (current idle) ready).imp id (pending idle)

/-- Steps of the loop itself: the stage moves on and a client's event is never dropped. -/
theorem Isolated.advance (isolated : Isolated child) {stage : ServeStage} {stop : Bool}
    (current : ∀ fd, stage.current ≠ some fd → child.stage.current ≠ some fd)
    (kept : ∀ fd, stage.current ≠ some fd → .client fd ∈ child.stage.pending → .client fd ∈ stage.pending)
    (awaited : ∀ fd, .client fd ∈ stage.pending → .client fd ∈ child.stage.pending)
    (busy : ∀ fd, stage.current = some fd → child.files fd ≠ none ∧ .client fd ∉ stage.pending)
    (once : stage.pending.Nodup) :
    Isolated { child with stage := stage, stop := stop } where
  standing := fun client => (isolated.standing client).frame rfl rfl rfl
    (fun fd _ serving => serving.stage rfl rfl rfl (current fd) (kept fd)) id
  conserved := isolated.conserved
  awaited := fun fd member => isolated.awaited fd (awaited fd member)
  busy := busy
  once := once
  stray := isolated.stray

/-- What a client does to its socket: more to be received, and an edge. -/
theorem Isolated.stir (isolated : Isolated child) {socket : Socket}
    (still : (child.sockets client).ended = false) (edge : socket.edge = true)
    (conserved : arrived (child.calls client) ++ socket.incoming = socket.sent) :
    Isolated { child with sockets := Function.update child.sockets client socket } where
  standing := by
    intro other
    refine (isolated.standing other).frame rfl rfl rfl (fun fd known serving => ?_) (fun closed => ?_)
    · refine ⟨serving.reading, serving.short, fun idle ready => ?_⟩
      by_cases same : other = client
      · subst same
        exact .inl (by simpa using edge)
      · simp only [Function.update_of_ne same] at ready ⊢
        exact serving.announced idle ready
    · by_cases same : other = client
      · subst same
        cases closed with
        | executed conn done => exact .executed conn done
        | failed conn stopped length error => exact .failed conn stopped length error
        | full conn stopped full => exact .full conn stopped full
        | drained conn stopped empty ended =>
          rw [still] at ended
          cases ended
      · simpa only [Function.update_of_ne same] using closed
  conserved := by
    intro other
    by_cases same : other = client
    · subst same
      simpa using conserved
    · simpa only [Function.update_of_ne same] using isolated.conserved other
  awaited := isolated.awaited
  busy := isolated.busy
  once := isolated.once
  stray := isolated.stray

theorem CgiChild.reported_iff (child : CgiChild) (events : List ChildSource) (client : Nat) :
    child.reported events client = true ↔ ∃ fd, .client fd ∈ events ∧ child.files fd = some client := by
  simp only [CgiChild.reported, List.any_eq_true]
  constructor
  · rintro ⟨event, member, same⟩
    cases event with
    | client fd => exact ⟨fd, member, by simpa using same⟩
    | pipe => cases same
    | signals => cases same
  · rintro ⟨fd, member, same⟩
    exact ⟨.client fd, member, by simp [same]⟩

/-- An edge that a fetch takes away has become an event. -/
theorem Isolated.fetch (isolated : Isolated child) {events : List ChildSource} (waits : child.stage = .events [])
    (distinct : events.Nodup) (fetchable : ∀ event ∈ events, child.Fetchable event) :
    Isolated { child with
      stage := .events events
      sockets := fun client => { child.sockets client with
        edge := fetched (child.sockets client).edge (child.reported events client) } } where
  standing := by
    intro client
    refine (isolated.standing client).frame rfl rfl rfl (fun fd known serving => ?_) (fun closed => ?_)
    · have idle : child.stage.current ≠ some fd := by simp [waits, ServeStage.current]
      refine ⟨serving.reading, fun _ => serving.short idle, fun _ ready => ?_⟩
      have edge : (child.sockets client).edge = true := by
        rcases serving.announced idle ready with edge | member
        · exact edge
        · simp [waits, ServeStage.pending] at member
      by_cases reports : child.reported events client = true
      · obtain ⟨other, member, same⟩ := (child.reported_iff events client).mp reports
        have here : other = fd := by
          cases isolated.standing client with
          | unknown absent gone untouched => exact (gone fd known).elim
          | served own known' only serves => rw [(only other).mp same, (only fd).mp known]
          | closed known' gone reason once => exact (gone fd known).elim
        exact .inr (here ▸ member)
      · exact .inl (by simp [fetched, edge, reports])
    · cases closed with
      | executed conn done => exact .executed conn done
      | failed conn stopped length error => exact .failed conn stopped length error
      | full conn stopped full => exact .full conn stopped full
      | drained conn stopped empty ended => exact .drained conn stopped empty ended
  conserved := isolated.conserved
  awaited := by
    intro fd member
    obtain ⟨client, known, -⟩ := fetchable _ member
    rw [Option.mem_def.mp known]
    exact Option.some_ne_none client
  busy := by simp [ServeStage.current]
  once := distinct
  stray := isolated.stray

/-- A new client gets a descriptor that is nobody's and an object that is cleared. -/
theorem Isolated.accept (isolated : Isolated child) {pending : List ChildSource} {connfd : Nat}
    (stage : child.stage = .accepting pending) (free : child.files connfd = none) (new : client ∉ child.accepted) :
    Isolated { child with
      stage := .events pending
      files := Function.update child.files connfd (some client)
      sockets := Function.update child.sockets client
        (child.sockets client).watch
      users := Function.update child.users connfd .init
      accepted := client :: child.accepted } where
  standing := by
    intro other
    have idle : ∀ fd, child.stage.current ≠ some fd := by simp [stage, ServeStage.current]
    by_cases same : other = client
    · subst same
      cases isolated.standing other with
      | unknown absent gone untouched =>
        refine .served connfd List.mem_cons_self (fun fd => ?_) ⟨?_, ?_, ?_⟩
        · by_cases here : fd = connfd
          · simp [here]
          · simp [gone fd, here]
        · simpa [untouched, CgiResult.start] using Reading.start.own
        · simp [untouched, arrived, CgiConn.bufferSize]
        · intro _ ready
          exact .inl (by simpa [Socket.ready] using ready)
      | served fd known only serves => exact (new known).elim
      | closed known gone reason once => exact (new known).elim
    · have sockets : Function.update child.sockets client
          (child.sockets client).watch other = child.sockets other :=
        Function.update_of_ne same _ _
      cases isolated.standing other with
      | unknown absent gone untouched =>
        refine .unknown (by simp [same, absent]) (fun fd => ?_) untouched
        by_cases here : fd = connfd
        · simp [here, Ne.symm same]
        · simpa [Function.update_of_ne here] using gone fd
      | served fd known only serves =>
        have apart : fd ≠ connfd := by
          rintro rfl
          rw [(only fd).mpr rfl] at free
          cases free
        refine .served fd (by simp [known]) (fun otherFd => ?_) ⟨?_, ?_, ?_⟩
        · by_cases here : otherFd = connfd
          · simp [here, Ne.symm same, Ne.symm apart]
          · simpa [Function.update_of_ne here] using only otherFd
        · simpa [Function.update_of_ne apart] using serves.reading
        · exact fun _ => serves.short (idle fd)
        · intro _ ready
          simp only [sockets] at ready ⊢
          simpa [stage, ServeStage.pending] using serves.announced (idle fd) ready
      | closed known gone reason once =>
        refine .closed (by simp [known]) (fun fd => ?_) ?_ once
        · by_cases here : fd = connfd
          · simp [here, Ne.symm same]
          · simpa [Function.update_of_ne here] using gone fd
        · simpa only [sockets] using reason
  conserved := by
    intro other
    by_cases same : other = client
    · subst same
      simpa using isolated.conserved other
    · simpa only [Function.update_of_ne same] using isolated.conserved other
  awaited := by
    intro fd member
    by_cases here : fd = connfd
    · simp [here]
    · simpa [Function.update_of_ne here] using isolated.awaited fd (by simpa [stage, ServeStage.pending] using member)
  busy := by simp [ServeStage.current]
  once := by simpa [stage, ServeStage.pending] using isolated.once
  stray := isolated.stray

section Turned
variable {fd : Nat} {pending : List ChildSource} {turn : CgiResult × Bool}

/-- The client whose object is processed, after one iteration. -/
theorem Standing.turned (standing : Standing child client) (known : child.files fd = some client)
    (after : After (child.sockets client) (child.calls client) turn)
    (removals : turn.1.calls.count .removefd = if turn.1.connected = true then 0 else 1) :
    Standing (child.turned fd client pending turn) client := by
  cases standing with
  | unknown absent gone untouched => exact (gone fd known).elim
  | closed accepted gone reason once => exact (gone fd known).elim
  | served own accepted only serves =>
    obtain rfl := (only fd).mp known
    cases after with
    | goes continues connected reading =>
      refine .served fd accepted (by simpa [CgiChild.turned, connected] using only) ⟨?_, ?_, ?_⟩
      · simpa [CgiChild.turned] using reading
      · exact fun idle => (idle (by simp [CgiChild.turned, continues, ServeStage.current])).elim
      · exact fun idle => (idle (by simp [CgiChild.turned, continues, ServeStage.current])).elim
    | waits leaves connected reading short quiet =>
      refine .served fd accepted (by simpa [CgiChild.turned, connected] using only) ⟨?_, ?_, ?_⟩
      · simpa [CgiChild.turned] using reading
      · exact fun _ => by simpa [CgiChild.turned] using short
      · intro _ ready
        simp only [CgiChild.turned, Function.update_self, quiet] at ready
        cases ready
    | ends leaves disconnected closed =>
      refine .closed accepted (fun other => ?_) (by simpa [CgiChild.turned] using closed) ?_
      · by_cases here : other = fd
        · simp [CgiChild.turned, disconnected, here]
        · simp [CgiChild.turned, disconnected, here, only]
      · have none : CgiCall.removefd ∉ child.calls client := by
          intro removed
          have closed := serves.reading.removed.mpr removed
          cases closed
        rw [disconnected] at removals
        simpa [CgiChild.turned, List.count_append, List.count_eq_zero_of_not_mem none] using removals

/-- The other clients notice nothing of an iteration. -/
theorem Standing.turned_other {other : Nat} (standing : Standing child other) (different : other ≠ client)
    (stage : child.stage = .processing fd pending) (known : child.files fd = some client) :
    Standing (child.turned fd client pending turn) other := by
  have sockets : (child.turned fd client pending turn).sockets other = child.sockets other :=
    Function.update_of_ne different _ _
  have calls : (child.turned fd client pending turn).calls other = child.calls other :=
    Function.update_of_ne different _ _
  have files : ∀ otherFd, (child.turned fd client pending turn).files otherFd = some other ↔
      child.files otherFd = some other := by
    intro otherFd
    unfold CgiChild.turned
    dsimp only
    split_ifs
    · exact Iff.rfl
    · by_cases here : otherFd = fd
      · simp [here, known, Ne.symm different]
      · rw [Function.update_of_ne here]
  cases standing with
  | unknown absent gone untouched =>
    exact .unknown absent (fun otherFd same => gone otherFd ((files otherFd).mp same)) (calls.trans untouched)
  | served own accepted only serves =>
    have apart : own ≠ fd := by
      rintro rfl
      have mine := (only own).mpr rfl
      rw [known, Option.some.injEq] at mine
      exact different mine.symm
    have idle : child.stage.current ≠ some own := by simp [stage, ServeStage.current, Ne.symm apart]
    refine .served own accepted (fun otherFd => (files otherFd).trans (only otherFd)) ⟨?_, fun _ => ?_, fun _ ready => ?_⟩
    · rw [calls, show (child.turned fd client pending turn).users own = child.users own from
        Function.update_of_ne apart _ _]
      exact serves.reading
    · rw [calls]
      exact serves.short idle
    · rw [sockets] at ready ⊢
      refine (serves.announced idle ready).imp id fun member => ?_
      rw [stage] at member
      unfold CgiChild.turned
      dsimp only
      split_ifs
      all_goals exact member
  | closed accepted gone reason once =>
    refine .closed accepted (fun otherFd same => gone otherFd ((files otherFd).mp same)) ?_ (by rwa [calls])
    rw [sockets, calls]
    exact reason

theorem Isolated.turned (isolated : Isolated child) (stage : child.stage = .processing fd pending)
    (known : child.files fd = some client) (after : After (child.sockets client) (child.calls client) turn)
    (removals : turn.1.calls.count .removefd = if turn.1.connected = true then 0 else 1)
    (takes : arrived turn.1.calls ++ ((child.sockets client).take (arrived turn.1.calls).length).incoming =
      (child.sockets client).incoming) :
    Isolated (child.turned fd client pending turn) := by
  have here : child.stage.pending = pending := by rw [stage, ServeStage.pending]
  have later : (child.turned fd client pending turn).stage.pending = pending := by
    unfold CgiChild.turned
    dsimp only
    split_ifs <;> rfl
  have notAgain : .client fd ∉ pending := here ▸ (isolated.busy fd (by rw [stage, ServeStage.current])).2
  refine ⟨?_, ?_, ?_, ?_, by rw [later, ← here]; exact isolated.once, isolated.stray⟩
  · intro other
    by_cases same : other = client
    · subst same
      exact (isolated.standing other).turned known after removals
    · exact (isolated.standing other).turned_other same stage known
  · intro other
    by_cases same : other = client
    · subst same
      have whole := isolated.conserved other
      rw [← takes, ← List.append_assoc, ← arrived_append] at whole
      simpa [CgiChild.turned] using whole
    · simpa only [CgiChild.turned, Function.update_of_ne same] using isolated.conserved other
  · intro otherFd member
    rw [later] at member
    have apart : otherFd ≠ fd := by
      rintro rfl
      exact notAgain member
    have open' := isolated.awaited otherFd (here ▸ member)
    unfold CgiChild.turned
    dsimp only
    split_ifs
    · exact open'
    · rwa [Function.update_of_ne apart]
  · intro otherFd current
    rw [later]
    cases after with
    | goes continues connected reading =>
      have same : fd = otherFd := by simpa [CgiChild.turned, continues, ServeStage.current] using current
      subst same
      refine ⟨?_, notAgain⟩
      simp [CgiChild.turned, connected, known]
    | waits leaves => simp [CgiChild.turned, leaves, ServeStage.current] at current
    | ends leaves => simp [CgiChild.turned, leaves, ServeStage.current] at current

end Turned

/-- Every step keeps the clients apart. -/
theorem Isolated.step (isolated : Isolated child) {label : ChildLabel} (taken : child.step label = some next) :
    Isolated next := by
  cases label with
  | send client bytes =>
    simp only [CgiChild.step] at taken
    split_ifs at taken with ended
    cases taken
    refine isolated.stir (by simpa using ended) rfl ?_
    rw [Socket.send, ← List.append_assoc, isolated.conserved]
  | close client =>
    simp only [CgiChild.step] at taken
    split_ifs at taken with ended
    cases taken
    exact isolated.stir (by simpa using ended) rfl (isolated.conserved client)
  | fetch events =>
    simp only [CgiChild.step] at taken
    split_ifs at taken with ready
    cases taken
    exact isolated.fetch ready.1 ready.2.2.1 ready.2.2.2.2
  | epollFailure =>
    simp only [CgiChild.step] at taken
    split_ifs at taken with ready
    cases taken
    exact isolated.advance (by simp [ready.1, ServeStage.current]) (by simp [ready.1, ServeStage.pending])
      (by simp [ServeStage.pending]) (by simp [ServeStage.current]) List.nodup_nil
  | notified fails =>
    simp only [CgiChild.step] at taken
    split at taken
    · next pending stage =>
      cases taken
      have once := isolated.once
      rw [stage, ServeStage.pending] at once
      cases fails
      all_goals
        exact isolated.advance (by simp [stage, ServeStage.current]) (by simp [stage, ServeStage.pending])
          (by simp [stage, ServeStage.pending]) (by simp [ServeStage.current]) once.of_cons
    · cases taken
  | accept result =>
    simp only [CgiChild.step] at taken
    split at taken
    · next pending stage =>
      have once := isolated.once
      rw [stage, ServeStage.pending] at once
      split at taken
      · cases taken
        exact isolated.advance (by simp [stage, ServeStage.current]) (by simp [stage, ServeStage.pending])
          (by simp [stage, ServeStage.pending]) (by simp [ServeStage.current]) once
      · next connfd client =>
        split_ifs at taken with valid
        cases taken
        exact isolated.accept stage valid.2.1 valid.2.2
    · cases taken
  | signals received =>
    simp only [CgiChild.step] at taken
    split at taken
    · next pending stage =>
      cases taken
      have once := isolated.once
      rw [stage, ServeStage.pending] at once
      exact isolated.advance (by simp [stage, ServeStage.current]) (by simp [stage, ServeStage.pending])
        (by simp [stage, ServeStage.pending]) (by simp [ServeStage.current]) once.of_cons
    · cases taken
  | process =>
    simp only [CgiChild.step] at taken
    split at taken
    · next sockfd pending stage =>
      cases taken
      have once := isolated.once
      rw [stage, ServeStage.pending] at once
      refine isolated.advance (by simp [stage, ServeStage.current]) ?_ (by simp [stage, ServeStage.pending]; tauto) ?_
        once.of_cons
      · intro fd idle member
        rw [stage, ServeStage.pending, List.mem_cons] at member
        refine member.resolve_left fun same => ?_
        cases same
        exact idle rfl
      · intro fd current
        obtain rfl : sockfd = fd := Option.some.inj current
        exact ⟨isolated.awaited sockfd (by simp [stage, ServeStage.pending]), (List.nodup_cons.mp once).1⟩
    · cases taken
  | turn count fails access fork =>
    simp only [CgiChild.step] at taken
    split at taken
    · next sockfd pending stage =>
      split at taken
      · next missing => exact ((isolated.busy sockfd (by rw [stage, ServeStage.current])).1 missing).elim
      · next client known =>
        cases taken
        have serving : Serving child sockfd client := by
          cases isolated.standing client with
          | unknown absent gone untouched => exact (gone sockfd known).elim
          | served own accepted only serves => exact (only sockfd).mp known ▸ serves
          | closed accepted gone reason once => exact (gone sockfd known).elim
        exact isolated.turned stage known (serving.reading.after_turn _) (count_removefd_turn _ _)
          (CgiConn.turn_takes _ _)
    · cases taken
  | leave =>
    simp only [CgiChild.step] at taken
    split_ifs at taken with ready
    cases taken
    exact isolated.advance (by simp [ready.1, ServeStage.current]) (by simp [ready.1, ServeStage.pending])
      (by simp [ServeStage.pending]) (by simp [ServeStage.current]) List.nodup_nil

end Steps

end UnixProgramming.Pool

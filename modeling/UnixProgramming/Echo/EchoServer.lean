import UnixProgramming.Echo.ByteEcho

/-! The iterative echo server with any number of clients. What a client prints is what it has
read, and whether all of them finish is decided by what the two directions of a connection hold
together. -/

namespace UnixProgramming.Echo

open UnixProgramming.Lib

namespace Conn

def phase (conn : Conn) : Phase :=
  match conn.server with
  | .pending => if conn.client = .connecting then .outside else .waiting
  | .closed => .finished
  | _ => .served

theorem phase_outside {conn : Conn} :
    conn.phase = .outside ↔ conn.server = .pending ∧ conn.client = .connecting := by
  unfold phase
  cases conn.server <;> simp

theorem phase_waiting {conn : Conn} :
    conn.phase = .waiting ↔ conn.server = .pending ∧ conn.client ≠ .connecting := by
  unfold phase
  cases conn.server <;> simp

theorem phase_finished {conn : Conn} : conn.phase = .finished ↔ conn.server = .closed := by
  unfold phase
  cases conn.server <;> simp
  split <;> simp

variable {capacity : Capacity} {input : List UInt8} {conn next : Conn} {label : Label}

theorem phase_advances (conn : Conn) (label : Label) (next : Conn) (taken : conn.step capacity label = some next) :
    conn.phase.Advances next.phase := by
  cases steps_of_step taken with
  | connect connecting => cases same : conn.server <;> simp [phase, Phase.Advances, same, connecting]
  | input limit reading positive =>
    split <;> cases same : conn.server <;> simp [phase, Phase.Advances, same, reading]
  | send total sent count writing positive fits room =>
    split <;> cases same : conn.server <;> simp [phase, Phase.Advances, same, writing]
  | short total got count receiving empty closed => simp [phase, Phase.Advances, closed]
  | recv total got count receiving positive present fits =>
    split <;> cases same : conn.server <;> simp [phase, Phase.Advances, same, receiving]
  | print total printing => cases same : conn.server <;> simp [phase, Phase.Advances, same, printing]
  | accept pending connected => simp [phase, Phase.Advances, pending, connected]
  | fetch limit reading positive ready => split <;> simp [phase, Phase.Advances, reading]
  | log total logging => simp [phase, Phase.Advances, logging]
  | reply total sent count writing positive fits room => split <;> simp [phase, Phase.Advances, writing]

/-- Every byte is worth less the further it has come, and so is every stage before an end. -/
def left (conn : Conn) : Nat :=
  7 * conn.stdin.length + 6 * conn.unsent.length + 5 * conn.toServer.length + 2 * conn.toClient.length +
    (match conn.server with
      | .logging count => 4 * count + 1
      | .writing count sent => 3 * (count - sent) + 1
      | .pending => 2
      | .reading => 1
      | .closed => 0) +
    match conn.client with
      | .connecting => 2
      | .reading => 1
      | .writing _ _ => 1
      | .receiving _ received => received + 1
      | .printing count => count + 1
      | .closed => 0

theorem left_lower (sound : Sound input conn) (taken : conn.step capacity label = some next) :
    next.left < conn.left := by
  have clientFits := sound.clientFits
  have serverFits := sound.serverFits
  cases steps_of_step taken with
  | connect connecting => simp [left, unsent, connecting]
  | input limit reading positive =>
    have whole := congrArg List.length (List.take_append_drop (min limit bufSize) conn.stdin)
    have same := take_overwrite conn.clientBuf (conn.stdin.take (min limit bufSize))
    rw [List.length_append] at whole
    by_cases empty : conn.stdin.take (min limit bufSize) = []
    · simp_all [left, unsent]
    · have some := List.length_pos_iff.mpr empty
      simp only [left, unsent, if_neg empty, same, List.drop_zero, reading, List.length_nil]
      omega
  | send total sent count writing positive fits room =>
    have size := sound.clientSize
    rw [writing] at clientFits
    obtain ⟨before, small⟩ := clientFits
    by_cases all : sent + count = total <;>
      simp [left, unsent, writing, all, size] <;> omega
  | short total got count receiving empty closed =>
    have shut := sound.served closed
    rw [receiving] at shut
    cases shut
  | recv total got count receiving positive present fits =>
    by_cases all : got + count = total <;> simp [left, unsent, receiving, all] <;> omega
  | print total printing => 
    rw [printing] at clientFits
    have positive := clientFits.1
    simp [left, unsent, printing]
    omega
  | accept pending connected => simp [left, unsent, pending]
  | fetch limit reading positive ready =>
    have whole := congrArg List.length (List.take_append_drop (min limit bufSize) conn.toServer)
    rw [List.length_append] at whole
    by_cases empty : conn.toServer.take (min limit bufSize) = []
    · simp only [left, unsent, if_pos empty, reading]
      omega
    · have some := List.length_pos_iff.mpr empty
      simp only [left, unsent, if_neg empty, reading]
      omega
  | log total logging =>
    rw [logging] at serverFits
    have positive := serverFits.1
    simp only [left, unsent, logging]
    omega
  | reply total sent count writing positive fits room =>
    have size := sound.serverSize
    rw [writing] at serverFits
    obtain ⟨before, small⟩ := serverFits
    by_cases all : sent + count = total <;> simp [left, unsent, writing, all, size] <;> omega

theorem send_enabled {total sent : Nat} (writing : conn.client = .writing total sent) (before : sent < total)
    (room : conn.toServer.length < capacity.toServer) : Enabled (step capacity) conn :=
  @enabled_of_isSome _ _ _ _ (.send 1) (by simp [step, writing, Nat.succ_le_of_lt before, Nat.succ_le_of_lt room])

theorem recv_enabled {total got : Nat} (receiving : conn.client = .receiving total got) (before : got < total)
    (present : conn.toClient ≠ []) : Enabled (step capacity) conn :=
  @enabled_of_isSome _ _ _ _ (.recv 1) (by
    simp [step, receiving, present, Nat.succ_le_of_lt before, Nat.succ_le_of_lt (List.length_pos_iff.mpr present)])

theorem print_enabled {total : Nat} (printing : conn.client = .printing total) : Enabled (step capacity) conn :=
  @enabled_of_isSome _ _ _ _ .print (by simp [step, printing])

theorem input_enabled (reading : conn.client = .reading) : Enabled (step capacity) conn :=
  @enabled_of_isSome _ _ _ _ (.input 1) (by simp [step, reading])

theorem fetch_enabled (reading : conn.server = .reading) (ready : conn.toServer ≠ [] ∨ conn.client = .closed) :
    Enabled (step capacity) conn :=
  @enabled_of_isSome _ _ _ _ (.fetch 1) (by simp [step, reading, ready])

theorem reply_enabled {total sent : Nat} (writing : conn.server = .writing total sent) (before : sent < total)
    (room : conn.toClient.length < capacity.toClient) : Enabled (step capacity) conn :=
  @enabled_of_isSome _ _ _ _ (.reply 1) (by simp [step, writing, Nat.succ_le_of_lt before, Nat.succ_le_of_lt room])

/-- The bytes on their way and the ones the client has not sent fit into one buffer. -/
theorem Sound.flight_le (sound : Sound input conn) :
    conn.toClient.length + conn.unreplied.length + conn.toServer.length + conn.unsent.length ≤ bufSize := by
  have lengths := congrArg List.length sound.flight
  have small : conn.chunk.length ≤ bufSize := by
    have size := sound.clientSize
    unfold chunk
    split <;> simp <;> omega
  simp only [List.length_append, List.length_drop] at lengths
  omega

/-- With room for all but one byte of a full buffer on the way, a served connection goes on: two
sides that both wait for room would have more bytes between them than the buffer holds. -/
theorem Sound.progress (sound : Sound input conn) (toServer : 0 < capacity.toServer) (toClient : 0 < capacity.toClient)
    (wide : bufSize - 1 ≤ capacity.toServer + capacity.toClient) (served : conn.phase = .served) :
    Enabled (step capacity) conn := by
  have clientFits := sound.clientFits
  have serverFits := sound.serverFits
  have flight := sound.flight
  cases server : conn.server with
  | pending =>
    simp only [phase, server] at served
    split at served <;> cases served
  | closed => simp [phase, server] at served
  | logging total => exact @enabled_of_isSome _ _ _ _ .log (by simp [step, server])
  | reading =>
    by_cases empty : conn.toServer = []
    · cases client : conn.client with
      | connecting =>
        have shut := sound.outside client
        rw [server] at shut
        cases shut
      | reading => exact input_enabled client
      | writing total sent =>
        rw [client] at clientFits
        exact send_enabled client clientFits.1 (by simpa [empty] using toServer)
      | receiving total got =>
        rw [client] at clientFits
        obtain ⟨before, small⟩ := clientFits
        refine recv_enabled client before fun none => ?_
        have lengths := congrArg List.length flight
        simp [none, empty, unreplied, server, unsent, chunk, received, client, sound.clientSize] at lengths
        omega
      | printing total => exact print_enabled client
      | closed => exact fetch_enabled server (.inr client)
    · exact fetch_enabled server (.inl empty)
  | writing total sent =>
    rw [server] at serverFits
    by_cases room : conn.toClient.length < capacity.toClient
    · exact reply_enabled server serverFits.1 room
    -- The server waits for the client to receive.
    have waiting : conn.unreplied.length = total - sent := by
      simp [unreplied, server, sound.serverSize, serverFits.2]
    have present : conn.toClient ≠ [] := by
      rintro none
      simp [none] at room
      omega
    cases client : conn.client with
    | connecting =>
      have shut := sound.outside client
      rw [server] at shut
      cases shut
    | writing count gone =>
      rw [client] at clientFits
      refine send_enabled client clientFits.1 ?_
      have most := sound.flight_le
      have unsent : conn.unsent.length = count - gone := by
        simp [unsent, client, sound.clientSize, clientFits.2]
      have bound := clientFits.1
      have other := serverFits.1
      omega
    | receiving count got =>
      rw [client] at clientFits
      exact recv_enabled client clientFits.1 present
    | _ => simp [present, chunk, received, client] at flight

end Conn

/-- The connections of the echo server. -/
def echoService (capacity : Capacity) : Service Conn Label where
  step := Conn.step capacity
  phase := Conn.phase
  advances := Conn.phase_advances

/-- The length of the queue given to `listen()`. -/
def backlog : Nat := 5

def EchoServer.start {n : Nat} (input clientBuf serverBuf : Fin n → List UInt8) : Listening n Conn where
  conns := fun row => .create (input row) (clientBuf row) (serverBuf row)
  queue := []

/-- The server's loop: one connection at a time. -/
def EchoServer.step {n : Nat} (capacity : Capacity) : Listening n Conn → Fin n × Label → Option (Listening n Conn) :=
  (echoService capacity).listen backlog true

namespace EchoServer
variable {n : Nat} {capacity : Capacity} {input clientBuf serverBuf : Fin n → List UInt8}

theorem serves (capacity : Capacity) :
    (echoService capacity).Serves (fun conn => ∃ input, conn.Sound input) Conn.left where
  preserved := by
    rintro conn label next ⟨input, sound⟩ taken
    exact ⟨input, sound.after taken⟩
  lower := by
    rintro conn label next ⟨input, sound⟩ taken
    exact Conn.left_lower sound taken
  connects := by
    rintro conn - outside
    obtain ⟨pending, connecting⟩ := Conn.phase_outside.mp outside
    refine ⟨.connect, { conn with client := .reading }, by simp [echoService, Conn.step, connecting], ?_⟩
    exact Conn.phase_waiting.mpr ⟨pending, by simp⟩
  accepted := by
    rintro conn - waiting
    obtain ⟨pending, connected⟩ := Conn.phase_waiting.mp waiting
    refine ⟨.accept, { conn with server := .reading }, by simp [echoService, Conn.step, pending, connected], ?_⟩
    rfl

theorem queued_start : (echoService capacity).Queued (start input clientBuf serverBuf) where
  distinct := List.nodup_nil
  member := by simp [start, echoService, Conn.create, Conn.phase]

theorem sound_after {state : Listening n Conn} {labels : List (Fin n × Label)}
    (clientSize : ∀ row, (clientBuf row).length = bufSize) (serverSize : ∀ row, (serverBuf row).length = bufSize)
    (reached : run (step capacity) (start input clientBuf serverBuf) labels = some state) (row : Fin n) :
    (state.conns row).Sound (input row) := by
  have each : run ((echoService capacity).listen backlog true) (start input clientBuf serverBuf) labels = some state :=
    reached
  refine Service.run_each (fun row conn => conn.Sound (input row)) (fun row conn label next sound taken => ?_)
    (fun row => ?_) each row
  · exact Conn.Sound.after sound taken
  · exact .start (clientSize row) (serverSize row)

/-- Whatever the clients, the server and the kernel do in turn, each client has printed a first
part of what it has read, and the server too. A client that closes has printed all of it. -/
theorem echo_exact (clientSize : ∀ row, (clientBuf row).length = bufSize)
    (serverSize : ∀ row, (serverBuf row).length = bufSize) {labels : List (Fin n × Label)}
    {state : Listening n Conn} (reached : run (step capacity) (start input clientBuf serverBuf) labels = some state)
    (row : Fin n) :
    (state.conns row).stdout <+: input row ∧ (state.conns row).logged <+: input row ∧
      ((state.conns row).client = .closed → (state.conns row).stdout = input row) ∧
      ((state.conns row).server = .closed → (state.conns row).logged = input row) := by
  have sound := sound_after clientSize serverSize reached row
  generalize state.conns row = conn at sound
  have printed := sound.printed
  have logs := sound.logs
  simp only [List.append_assoc] at printed logs
  refine ⟨⟨_, printed⟩, ⟨_, logs⟩, fun closed => ?_, fun closed => ?_⟩
  · simpa [Conn.chunk, closed, sound.ended closed] using printed
  · have ended := sound.served closed
    have flight := sound.flight
    simp only [Conn.chunk, ended, List.drop_nil, List.append_eq_nil_iff] at flight
    simpa [flight, sound.ended ended, Conn.unlogged, closed] using logs

/-- A client sends two bytes in two pieces, prints them and closes. -/
def oneClient : List (Fin 1 × Label) :=
  [.connect, .input 2, .accept, .send 1, .fetch 9, .send 1, .log, .reply 1, .fetch 9, .recv 1, .log, .reply 1, .recv 1,
    .print, .input 2, .fetch 9].map (Prod.mk ⟨0, Nat.zero_lt_one⟩)

theorem echo_exact_two_pieces :
    ∃ state, run (step ⟨1, 1⟩) (start (fun _ => [104, 10]) (fun _ => List.replicate bufSize 0)
        (fun _ => List.replicate bufSize 7)) oneClient = some state ∧
      (state.conns ⟨0, Nat.zero_lt_one⟩).stdout = [104, 10] := by
  have closed : (run (step ⟨1, 1⟩) (start (fun _ => [104, 10]) (fun _ => List.replicate bufSize 0)
      (fun _ => List.replicate bufSize 7)) oneClient).map
        (fun state => (state.conns ⟨0, Nat.zero_lt_one⟩).client) = some .closed := by decide +kernel
  obtain ⟨state, reached, closed⟩ := Option.map_eq_some_iff.mp closed
  have exact := echo_exact (fun _ => List.length_replicate) (fun _ => List.length_replicate) reached
  exact ⟨state, reached, (exact ⟨0, Nat.zero_lt_one⟩).2.2.1 closed⟩

/-- With room for all but one byte of a buffer every run can be continued until all clients are
served. -/
theorem completes_of_wide (toServer : 0 < capacity.toServer) (toClient : 0 < capacity.toClient)
    (wide : bufSize - 1 ≤ capacity.toServer + capacity.toClient)
    (clientSize : ∀ row, (clientBuf row).length = bufSize) (serverSize : ∀ row, (serverBuf row).length = bufSize)
    {labels : List (Fin n × Label)} {state : Listening n Conn}
    (reached : run (step capacity) (start input clientBuf serverBuf) labels = some state) :
    Completes (step capacity) (echoService capacity).Finished state := by
  refine Service.finishes (serves capacity) ?_ ⟨Service.run_queued queued_start reached, fun row => ?_⟩
  · rintro conn ⟨input, sound⟩ served
    exact sound.progress toServer toClient wide served
  · exact ⟨input row, sound_after clientSize serverSize reached row⟩

end EchoServer

/-! With less room both sides can end up waiting for the other. -/

namespace Conn
variable {capacity : Capacity} {conn : Conn} {total : Nat}

/-- The client is in a `write()` of `total` bytes, and the first `sent` of them are on their way back. -/
structure Filled (total sent : Nat) (conn : Conn) : Prop where
  client : conn.client = .writing total sent
  server : conn.server = .reading
  empty : conn.toServer = []
  full : conn.toClient.length = sent
  size : conn.clientBuf.length = bufSize

/-- One byte goes to the server, which reads it and writes it to its terminal. -/
def carry : List Label := [.send 1, .fetch 1, .log]

theorem Filled.carry {sent : Nat} (filled : Filled total sent conn) (before : sent + 1 < total)
    (small : total ≤ bufSize) (room : 0 < capacity.toServer) :
    ∃ next, run (step capacity) conn Echo.Conn.carry = some next ∧ next.client = .writing total (sent + 1) ∧
      next.server = .writing 1 0 ∧ next.toServer = [] ∧ next.toClient = conn.toClient ∧
      next.clientBuf.length = bufSize ∧ next.serverBuf ≠ [] := by
  obtain ⟨client, server, empty, full, size⟩ := filled
  have inside : sent < conn.clientBuf.length := by omega
  obtain ⟨byte, rest, split⟩ : ∃ byte rest, conn.clientBuf.drop sent = byte :: rest :=
    List.exists_cons_of_ne_nil (by simpa using inside)
  refine ⟨{ conn with
    client := .writing total (sent + 1), server := .writing 1 0, toServer := []
    serverBuf := overwrite conn.serverBuf 0 [byte]
    logged := conn.logged ++ [byte] }, ?_, rfl, rfl, rfl, rfl, size, by simp [overwrite]⟩
  have sends : sent + 1 ≠ total := by omega
  have fits : sent + 1 ≤ total := by omega
  simp [Echo.Conn.carry, run_cons, step, client, server, empty, split, sends, fits, room, Nat.succ_le_of_lt, bufSize, overwrite]

theorem Filled.more {sent : Nat} (filled : Filled total sent conn) (before : sent + 1 < total)
    (small : total ≤ bufSize) (toServer : 0 < capacity.toServer) (toClient : sent < capacity.toClient) :
    ∃ labels next, run (step capacity) conn labels = some next ∧ Filled total (sent + 1) next := by
  obtain ⟨next, reached, client, server, empty, same, size, some⟩ := filled.carry before small toServer
  have full : next.toClient.length = sent := by rw [same, filled.full]
  refine ⟨Echo.Conn.carry ++ [.reply 1], { next with
    server := .reading, toClient := next.toClient ++ (next.serverBuf.drop 0).take 1 }, ?_, client, rfl, empty, ?_, size⟩
  · rw [run_append, reached]
    simp [run_cons, step, server, full, toClient, Nat.succ_le_of_lt]
  · simp [full, Nat.one_le_iff_ne_zero, some]

theorem Filled.upTo (filled : Filled total 0 conn) (small : total ≤ bufSize) (toServer : 0 < capacity.toServer)
    (sent : Nat) (before : sent < total) (toClient : sent ≤ capacity.toClient) :
    ∃ labels next, run (step capacity) conn labels = some next ∧ Filled total sent next := by
  induction sent with
  | zero => exact ⟨[], conn, rfl, filled⟩
  | succ sent ih =>
    obtain ⟨labels, middle, reached, partly⟩ := ih (by omega) (by omega)
    obtain ⟨more, next, further, filled⟩ := partly.more (by omega) small toServer (by omega)
    exact ⟨labels ++ more, next, run_append_some.mpr ⟨middle, reached, further⟩, filled⟩

/-- Both directions are full, and each side waits in `write()` for the other to read. -/
theorem not_enabled_of_full {sent count gone : Nat} (client : conn.client = .writing total sent)
    (server : conn.server = .writing count gone) (toServer : capacity.toServer ≤ conn.toServer.length)
    (toClient : capacity.toClient ≤ conn.toClient.length) : ¬ Enabled (step capacity) conn := by
  rintro ⟨label, next, taken⟩
  cases steps_of_step taken with
  | connect connecting => simp [client] at connecting
  | input limit reading positive => simp [client] at reading
  | send total sent count writing positive fits room => omega
  | short total got count receiving empty closed => simp [client] at receiving
  | recv total got count receiving positive present fits => simp [client] at receiving
  | print total printing => simp [client] at printing
  | accept pending connected => simp [server] at pending
  | fetch limit reading positive ready => simp [server] at reading
  | log total logging => simp [server] at logging
  | reply total sent count writing positive fits room => omega

/-- A client that reads two bytes more than a connection holds can end up waiting for ever. -/
theorem stuck_reached (toServer : 0 < capacity.toServer)
    (narrow : capacity.toServer + capacity.toClient < bufSize - 1) {clientBuf serverBuf : List UInt8}
    (size : clientBuf.length = bufSize) :
    ∃ labels conn, run (step capacity)
        (create (List.replicate (capacity.toServer + capacity.toClient + 2) 0) clientBuf serverBuf) labels = some conn ∧
      ¬ Enabled (step capacity) conn ∧ conn.phase = .served := by
  generalize long : capacity.toServer + capacity.toClient + 2 = total
  have small : total ≤ bufSize := by omega
  have begun : ∃ labels conn, run (step capacity) (create (List.replicate total 0) clientBuf serverBuf) labels = some conn ∧
      Filled total 0 conn := by
    refine ⟨[.connect, .accept, .input total], { create [] (overwrite clientBuf 0 (List.replicate total 0)) serverBuf with
      client := .writing total 0, server := .reading }, ?_, rfl, rfl, rfl, rfl, ?_⟩
    · have some : total ≠ 0 := by omega
      simp [run_cons, step, create, small, some, Nat.pos_of_ne_zero some]
    · exact length_overwrite size (by simpa using small)
  obtain ⟨labels, conn, reached, filled⟩ := begun
  obtain ⟨more, next, further, full⟩ := filled.upTo small toServer capacity.toClient (by omega) le_rfl
  obtain ⟨last, carried, client, server, empty, same, buf, -⟩ := full.carry (by omega) small toServer
  have room : capacity.toClient + 1 + capacity.toServer < total := by omega
  refine ⟨labels ++ (more ++ (carry ++ [.send capacity.toServer])), { last with
    client := .writing total (capacity.toClient + 1 + capacity.toServer)
    toServer := (last.clientBuf.drop (capacity.toClient + 1)).take capacity.toServer }, ?_, ?_, ?_⟩
  · rw [run_append_some]
    refine ⟨conn, reached, run_append_some.mpr ⟨next, further, run_append_some.mpr ⟨last, carried, ?_⟩⟩⟩
    simp [run_cons, step, client, empty, toServer, room.le, room.ne]
  · refine not_enabled_of_full rfl server ?_ ?_
    · simp [buf]
      omega
    · simp [same, full.full]
  · simp [phase, server]

end Conn

namespace EchoServer

/-- The echo protocol is free of deadlock exactly when the two directions of a connection hold all
but one byte of a buffer. Then every run can be continued until every client is served. -/
theorem echo_completes_iff (capacity : Capacity) (toServer : 0 < capacity.toServer) (toClient : 0 < capacity.toClient) :
    (∀ (n : Nat) (input clientBuf serverBuf : Fin n → List UInt8),
      (∀ row, (clientBuf row).length = bufSize) → (∀ row, (serverBuf row).length = bufSize) →
      ∀ labels state, run (step capacity) (start input clientBuf serverBuf) labels = some state →
        Completes (step capacity) (echoService capacity).Finished state) ↔
      bufSize - 1 ≤ capacity.toServer + capacity.toClient := by
  constructor
  · intro always
    by_contra narrow
    have size : (List.replicate bufSize (0 : UInt8)).length = bufSize := List.length_replicate
    obtain ⟨labels, conn, reached, stuck, served⟩ :=
      @Conn.stuck_reached capacity toServer (Nat.lt_of_not_le narrow) _ (List.replicate bufSize 0) size
    have alone : run (step capacity) (start (fun _ => _) (fun _ => _) (fun _ => _)) _ = some _ :=
      (echoService capacity).run_alone reached
    have completes := always 1 _ _ _ (fun _ => size) (fun _ => size) _ _ alone
    refine not_completes_of_stuck stuck ?_ (Service.completes_each completes ⟨0, Nat.zero_lt_one⟩)
    simp [echoService, served]
  · intro wide n input clientBuf serverBuf clientSize serverSize labels state reached
    exact completes_of_wide toServer toClient wide clientSize serverSize reached

theorem echo_completes_iff_narrow :
    ¬ ∀ (n : Nat) (input clientBuf serverBuf : Fin n → List UInt8),
      (∀ row, (clientBuf row).length = bufSize) → (∀ row, (serverBuf row).length = bufSize) →
      ∀ labels state, run (step ⟨511, 511⟩) (start input clientBuf serverBuf) labels = some state →
        Completes (step ⟨511, 511⟩) (echoService ⟨511, 511⟩).Finished state :=
  fun always => absurd ((echo_completes_iff ⟨511, 511⟩ (by decide) (by decide)).mp always) (by decide)

end EchoServer
end UnixProgramming.Echo

import UnixProgramming.Csapp.LineEchoSound

/-! The line echo servers with any number of clients: the iterative one, and the ones that give each
client a process or a thread. A client gets its input back as long as each piece `fgets` makes of
it is one that the server reads as a line; with the first other piece both sides wait for ever. -/

namespace UnixProgramming.Csapp.LineEcho

open UnixProgramming.Lib Rio

namespace Conn

def phase (conn : Conn) : Phase :=
  match conn.server with
  | .pending => if conn.client = .connecting then .outside else .waiting
  | .closed => .finished
  | _ => .served

theorem phase_outside {conn : Conn} :
    conn.phase = .outside ↔ conn.server = .pending ∧ conn.client = .connecting := by
  unfold phase
  cases conn.server <;> simp

theorem phase_waiting {conn : Conn} :
    conn.phase = .waiting ↔ conn.server = .pending ∧ conn.client ≠ .connecting := by
  unfold phase
  cases conn.server <;> simp

theorem phase_finished {conn : Conn} : conn.phase = .finished ↔ conn.server = .closed := by
  unfold phase
  cases conn.server <;> simp
  split <;> simp

variable {capacity : Capacity} {input line : List UInt8} {conn next : Conn} {label : Label} {stored : List UInt8}

/-- The phase stays when the server's stage does and the client is connected before and after. -/
theorem phase_stays (server : next.server = conn.server) (before : conn.client ≠ .connecting)
    (after : next.client ≠ .connecting) : conn.phase.Advances next.phase := by
  rw [phase, phase, server]
  cases conn.server <;> simp [Phase.Advances, before, after]

/-- A connection that is being served stays so until its server closes it. -/
theorem phase_served (before : conn.server ≠ .pending ∧ conn.server ≠ .closed) (after : next.server ≠ .pending) :
    conn.phase.Advances next.phase := by
  rw [phase, phase]
  cases here : conn.server <;> cases there : next.server <;> simp_all [Phase.Advances]

theorem phase_advances (conn : Conn) (label : Label) (next : Conn) (taken : conn.step capacity label = some next) :
    conn.phase.Advances next.phase := by
  cases steps_of_step taken with
  | connect connecting => cases same : conn.server <;> simp [phase, Phase.Advances, same, connecting]
  | close reading nothing => exact phase_stays rfl (by simp [reading]) (by simp)
  | fgets read reading same more =>
    refine phase_stays rfl (by simp [reading]) ?_
    simp only [writing]
    split <;> simp
  | send n sent count writing positive fits room =>
    refine phase_stays rfl (by simp [writing]) ?_
    dsimp only
    split <;> simp
  | receive stored limit next receiving positive offers same =>
    unfold received at same
    split at same <;> cases same
    · exact phase_stays rfl (by simp [receiving]) (by simp)
    · exact phase_stays rfl (by simp [receiving]) (by simp)
  | fputs printing => exact phase_stays rfl (by simp [printing]) (by simp)
  | accept pending connected => simp [phase, Phase.Advances, pending, connected]
  | fetch stored limit next reading positive offers same =>
    unfold fetched at same
    split at same <;> cases same
    · exact phase_served (by simp [reading]) (by simp)
    · refine phase_served (by simp [reading]) ?_
      dsimp only
      split <;> simp
  | reply n sent count writing positive fits room =>
    refine phase_served (by simp [writing]) ?_
    dsimp only
    split <;> simp

/-- Every byte is worth less the further it has come, and so is every stage before an end. -/
def left (conn : Conn) : Nat :=
  9 * conn.stdin.length + 6 * (conn.client.unsent conn.clientBuf).length + 5 * conn.serverRio.remaining.length +
    4 * conn.server.held.length + 3 * (conn.server.unreplied conn.serverBuf).length +
    2 * conn.clientRio.remaining.length + conn.client.got.length +
    (match conn.server with
      | .pending => 2
      | .closed => 0
      | _ => 1) +
    match conn.client with
      | .connecting => 2
      | .reading => 1
      | .printing => 2
      | .closed => 0
      | _ => 3

theorem left_fgets {read : List UInt8} (reading : conn.client = .reading) (more : read ≠ [])
    (initial : read <+: conn.stdin) :
    Conn.left { conn with
      client := writing (str (overwrite conn.clientBuf 0 (read ++ [0])) 0).length
      stdin := conn.stdin.drop read.length
      clientBuf := overwrite conn.clientBuf 0 (read ++ [0]) } < conn.left := by
  have positive := List.length_pos_iff.mpr more
  have fits := initial.length_le
  have cut : (str (overwrite conn.clientBuf 0 (read ++ [0])) 0).length ≤ read.length := by
    rw [str_cut]
    exact (List.takeWhile_prefix _).length_le
  generalize overwrite conn.clientBuf 0 (read ++ [0]) = buf at cut
  by_cases empty : (str buf 0).length = 0
  · simp [left, writing, empty, reading, ClientStage.unsent, ClientStage.got]
    omega
  · simp [left, writing, empty, reading, ClientStage.unsent, ClientStage.got]
    omega

theorem left_received (receiving : conn.client = .receiving stored) {result : Rio.Turn × Rio} {ended : Bool}
    (turned : conn.clientRio.Turned stored ended result) (opened : ended = false)
    (taken : conn.received result = some next) : next.left < conn.left := by
  cases turned with
  | full rp room same =>
    cases taken
    simp only [left, receiving, ClientStage.unsent, ClientStage.got, remaining_rested, same, List.length_nil]
    omega
  | shut rp nothing same shut =>
    rw [opened] at shut
    cases shut
  | line rp room bytes =>
    cases taken
    simp [left, receiving, ClientStage.unsent, ClientStage.got, bytes]
    omega
  | more rp byte inner room bytes =>
    cases taken
    simp [left, receiving, ClientStage.unsent, ClientStage.got, bytes]
    omega

/-- A line the server has read is worth less when it is to be sent back. -/
theorem left_answers {stored part : List UInt8} {rp : Rio} (reading : conn.server = .reading stored)
    (nonempty : part ≠ []) (short : part.length < maxline)
    (fewer : 5 * rp.remaining.length + 3 * part.length < 5 * conn.serverRio.remaining.length + 4 * stored.length)
    (taken : conn.fetched (.returned ⟨some part.length, part, true⟩, rp) = some next) : next.left < conn.left := by
  have positive := List.length_pos_iff.mpr nonempty
  obtain ⟨front, size⟩ := take_stores conn.serverBuf part
  simp only [Conn.fetched, Option.getD_some, size_of_length short, if_neg positive.ne', Option.some.injEq] at taken
  subst taken
  simp only [left, reading, ServerStage.held, ServerStage.unreplied, front, remaining_rested, List.drop_zero,
    List.length_nil]
  omega

theorem left_fetched (reading : conn.server = .reading stored) {result : Rio.Turn × Rio} {ended : Bool}
    (turned : conn.serverRio.Turned stored ended result) (short : stored.length < maxline)
    (quiet : ended = true → stored = []) (taken : conn.fetched result = some next) : next.left < conn.left := by
  cases turned with
  | full rp room same =>
    have long : 0 < stored.length := by
      rw [maxline] at room
      omega
    refine left_answers reading (List.length_pos_iff.mp long) short ?_ taken
    rw [same]
    omega
  | shut rp nothing same shut =>
    obtain rfl := quiet shut
    obtain rfl : { conn with
        server := .closed, serverBuf := stores conn.serverBuf ⟨some 0, [], false⟩, serverRio := rp.rested } = next :=
      Option.some.inj taken
    simp only [left, reading, ServerStage.held, ServerStage.unreplied, remaining_rested, same, nothing, List.length_nil]
    omega
  | line rp room bytes =>
    have long : (stored ++ [newline]).length = stored.length + 1 := by simp
    refine @left_answers conn next stored (stored ++ [newline]) rp reading (by simp) (by rwa [long]) ?_ ?_
    · rw [long, bytes, List.length_cons]
      omega
    · rw [← taken, long]
      rfl
  | more rp byte inner room bytes =>
    cases taken
    simp [left, reading, ServerStage.held, ServerStage.unreplied, bytes]
    omega

theorem left_lower (sound : Sound input line conn) (taken : conn.step capacity label = some next) :
    next.left < conn.left := by
  have clientFits := sound.clientFits
  have serverFits := sound.serverFits
  cases steps_of_step taken with
  | connect connecting => simp [left, connecting, ClientStage.unsent, ClientStage.got]
  | close reading nothing => simp [left, reading, ClientStage.unsent, ClientStage.got]
  | fgets read reading same more =>
    refine left_fgets reading more ?_
    rw [same]
    exact (lineOf_next _ _).1.front
  | send n sent count writing positive fits room =>
    have front := congrArg List.length (take_str conn.clientBuf)
    rw [writing] at clientFits
    obtain ⟨rfl, before⟩ := clientFits
    rw [List.length_take] at front
    by_cases all : sent + count = (str conn.clientBuf 0).length
    · simp [left, writing, all, ClientStage.unsent, ClientStage.got, remaining_feed]
      omega
    · simp [left, writing, all, ClientStage.unsent, ClientStage.got, remaining_feed]
      omega
  | receive stored limit next receiving positive offers same =>
    rw [receiving] at clientFits
    refine left_received receiving (turn_turned sound.clientRests positive clientFits.2 offers).1 ?_ same
    refine decide_eq_false fun closed => ?_
    have shut := sound.served closed
    rw [receiving] at shut
    cases shut
  | fputs printing => simp [left, printing, ClientStage.unsent, ClientStage.got]
  | accept pending connected => simp [left, pending, ServerStage.held, ServerStage.unreplied]
  | fetch stored limit next reading positive offers same =>
    rw [reading] at serverFits
    refine left_fetched reading (turn_turned sound.serverRests positive serverFits.2 offers).1 serverFits.2 ?_ same
    intro shut
    have quiet := sound.flight
    simp only [of_decide_eq_true shut, ClientStage.text, there, reading, ServerStage.held, List.append_eq_nil_iff] at quiet
    exact quiet.2.1
  | reply n sent count writing positive fits room =>
    rw [writing] at serverFits
    obtain ⟨before, size⟩ := serverFits
    by_cases all : sent + count = n
    · simp [left, writing, all, ServerStage.held, ServerStage.unreplied, remaining_feed]
      omega
    · simp [left, writing, all, ServerStage.held, ServerStage.unreplied, remaining_feed]
      omega

theorem fgets_enabled (reading : conn.client = .reading) : Enabled (step capacity) conn :=
  @enabled_of_isSome _ _ _ _ .fgets (by
    simp only [step, reading, if_true]
    split <;> rfl)

theorem fputs_enabled (printing : conn.client = .printing) : Enabled (step capacity) conn :=
  @enabled_of_isSome _ _ _ _ .fputs (by simp [step, printing])

theorem send_enabled {n sent : Nat} (writing : conn.client = .writing n sent) (before : sent < n)
    (room : conn.serverRio.fd.source.length < capacity.toServer) : Enabled (step capacity) conn :=
  @enabled_of_isSome _ _ _ _ (.send 1) (by simp [step, writing, Nat.succ_le_of_lt before, Nat.succ_le_of_lt room])

theorem reply_enabled {n sent : Nat} (writing : conn.server = .writing n sent) (before : sent < n)
    (room : conn.clientRio.fd.source.length < capacity.toClient) : Enabled (step capacity) conn :=
  @enabled_of_isSome _ _ _ _ (.reply 1) (by simp [step, writing, Nat.succ_le_of_lt before, Nat.succ_le_of_lt room])

theorem received_isSome {rp : Rio} {result : Rio.Turn × Rio} {ended : Bool} (turned : rp.Turned stored ended result) :
    (conn.received result).isSome := by
  cases turned <;> rfl

theorem fetched_isSome {rp : Rio} {result : Rio.Turn × Rio} {ended : Bool} (turned : rp.Turned stored ended result) :
    (conn.fetched result).isSome := by
  cases turned <;> rfl

theorem Sound.receive_enabled (sound : Sound input line conn) (receiving : conn.client = .receiving stored)
    (offers : conn.clientRio.Offers stored (decide (conn.server = .closed))) : Enabled (step capacity) conn := by
  have clientFits := sound.clientFits
  rw [receiving] at clientFits
  refine @enabled_of_isSome _ _ _ _ (.receive 1) ?_
  have turned := (turn_turned sound.clientRests Nat.one_pos clientFits.2 offers).1
  simpa only [step, receiving, offers, Nat.one_pos, true_and, if_true] using received_isSome turned

theorem Sound.fetch_enabled (sound : Sound input line conn) (reading : conn.server = .reading stored)
    (offers : conn.serverRio.Offers stored (decide (conn.client = .closed))) : Enabled (step capacity) conn := by
  have serverFits := sound.serverFits
  rw [reading] at serverFits
  refine @enabled_of_isSome _ _ _ _ (.fetch 1) ?_
  have turned := (turn_turned sound.serverRests Nat.one_pos serverFits.2 offers).1
  simpa only [step, reading, offers, Nat.one_pos, true_and, if_true] using fetched_isSome turned

/-- A reader that has nothing to do has seen all that has come, and no end of a line. -/
theorem not_offers {rp : Rio} {ended : Bool} (waits : ¬ rp.Offers stored ended) :
    stored.length < maxline - 1 ∧ rp.remaining = [] ∧ rp.fd.source = [] ∧ ended = false := by
  simp only [Offers, not_or, Decidable.not_not, Bool.not_eq_true] at waits
  obtain ⟨room, unseen, source, opened⟩ := waits
  refine ⟨by omega, ?_, source, opened⟩
  rw [remaining, unread_of_nonpos (by omega), source]
  rfl

/-- The line in progress comes to its end when the input is complete. -/
theorem Sound.whole_of_complete (sound : Sound input line conn) (complete : Complete input) (nonempty : line ≠ []) :
    Whole line := by
  have stream : line ++ conn.stdin ≠ [] := by simp [nonempty]
  have chunks := (complete_lineOf stream).mp (sound.sofar.mpr complete)
  rw [← sound.isLine nonempty] at chunks
  exact chunks.1

theorem takeWhile_plain (plain : 0 ∉ line) : line.takeWhile (· ≠ 0) = line := by
  refine List.takeWhile_eq_self_iff.mpr fun byte member => ?_
  simpa using fun zero : byte = 0 => plain (zero ▸ member)

/-- The reader of a text cannot wait inside it when the text is a whole line. -/
theorem Sound.not_both_wait (sound : Sound input line conn) (complete : Complete input) {part : List UInt8}
    (nonempty : line ≠ []) (text : str conn.clientBuf 0 = line.takeWhile (· ≠ 0)) (same : str conn.clientBuf 0 = part)
    (short : part.length < maxline - 1) (inner : newline ∉ part) : False := by
  obtain ⟨plain, ends⟩ := sound.whole_of_complete complete nonempty
  rw [same, takeWhile_plain plain] at text
  subst text
  rcases ends with last | full
  · exact inner (List.mem_of_getLast? last)
  · omega

/-- With a complete input a served connection goes on. -/
theorem Sound.progress (sound : Sound input line conn) (toServer : 0 < capacity.toServer) (toClient : 0 < capacity.toClient)
    (complete : Complete input) (served : conn.phase = .served) : Enabled (step capacity) conn := by
  have clientFits := sound.clientFits
  have serverFits := sound.serverFits
  have flight := sound.flight
  have oneWay := sound.oneWay
  have holds := sound.holds
  cases server : conn.server with
  | pending =>
    simp only [phase, server] at served
    split at served <;> cases served
  | closed => simp [phase, server] at served
  | reading stored =>
    by_cases offers : conn.serverRio.Offers stored (decide (conn.client = .closed))
    · exact sound.fetch_enabled server offers
    obtain ⟨short, nothing, source, opened⟩ := not_offers offers
    cases client : conn.client with
    | connecting =>
      have shut := sound.outside client
      rw [server] at shut
      cases shut
    | reading => exact fgets_enabled client
    | writing n sent =>
      rw [client] at clientFits
      exact send_enabled client clientFits.2 (by simpa [source] using toServer)
    | receiving part =>
      by_cases more : conn.clientRio.Offers part (decide (conn.server = .closed))
      · exact sound.receive_enabled client more
      obtain ⟨less, none, -, -⟩ := not_offers more
      rw [client] at clientFits holds flight
      rw [server] at serverFits
      simp [back, there, client, server, ClientStage.got, ClientStage.unsent, ServerStage.held, ServerStage.unreplied,
        none, nothing, ClientStage.text] at flight oneWay
      exfalso
      rcases oneWay with rfl | rfl
      · exact sound.not_both_wait complete holds.1 holds.2 (by simpa using flight.symm) short serverFits.1
      · exact sound.not_both_wait complete holds.1 holds.2 (by simpa using flight.symm) less clientFits.1
    | printing => exact fputs_enabled client
    | closed => simp [client] at opened
  | writing n sent =>
    rw [server] at serverFits
    by_cases room : conn.clientRio.fd.source.length < capacity.toClient
    · exact reply_enabled server serverFits.1 room
    have comes : conn.clientRio.fd.source ≠ [] := by
      rintro nothing
      simp [nothing] at room
      omega
    have waiting : conn.server.unreplied conn.serverBuf ≠ [] := by
      simp [server, ServerStage.unreplied, serverFits.1, serverFits.2]
    have there := oneWay.resolve_left fun nothing => by simp [back, waiting] at nothing
    cases client : conn.client with
    | connecting =>
      have shut := sound.outside client
      rw [server] at shut
      cases shut
    | writing m k =>
      rw [client] at clientFits
      obtain ⟨rfl, before⟩ := clientFits
      simp [Conn.there, client, ClientStage.unsent, take_str] at there
      omega
    | receiving part => exact sound.receive_enabled client (.inr (.inr (.inl comes)))
    | _ =>
      rw [client] at flight
      simp [back, waiting, ClientStage.text] at flight

end Conn

/-- What the memory of a client and of its server holds at first. -/
structure Memory where
  clientBuf : List UInt8
  serverBuf : List UInt8
  clientRio : Rio
  serverRio : Rio
  clientSize : clientRio.buf.length = rioBufsize
  serverSize : serverRio.buf.length = rioBufsize

/-- The connections of the line echo servers. -/
def service (capacity : Capacity) : Service Conn Label where
  step := Conn.step capacity
  phase := Conn.phase
  advances := Conn.phase_advances

/-- The length of the queue given to `open_listenfd`. -/
def backlog : Nat := 5

def start {n : Nat} (input : Fin n → List UInt8) (memory : Fin n → Memory) : Listening n Conn where
  conns := fun row => .create (input row) (memory row).clientBuf (memory row).serverBuf (memory row).clientRio
    (memory row).serverRio
  queue := []

/-- The iterative server calls `echo()` between two calls of `accept()`; with a process or a thread for
each client it can accept at any time. -/
def step {n : Nat} (capacity : Capacity) (iterative : Bool) :
    Listening n Conn → Fin n × Label → Option (Listening n Conn) :=
  (service capacity).listen backlog iterative

variable {n : Nat} {capacity : Capacity} {iterative : Bool} {input : Fin n → List UInt8} {memory : Fin n → Memory}
  {labels : List (Fin n × Label)} {state : Listening n Conn}

theorem serves (capacity : Capacity) (possible : List UInt8 → Prop) :
    (service capacity).Serves (fun conn => ∃ input line, possible input ∧ conn.Sound input line) Conn.left where
  preserved := by
    rintro conn label next ⟨input, line, holds, sound⟩ taken
    obtain ⟨after, kept⟩ := sound.after taken
    exact ⟨input, after, holds, kept⟩
  lower := by
    rintro conn label next ⟨input, line, -, sound⟩ taken
    exact Conn.left_lower sound taken
  connects := by
    rintro conn - outside
    obtain ⟨pending, connecting⟩ := Conn.phase_outside.mp outside
    refine ⟨.connect, { conn with client := .reading }, by simp [service, Conn.step, connecting], ?_⟩
    exact Conn.phase_waiting.mpr ⟨pending, by simp⟩
  accepted := by
    rintro conn - waiting
    obtain ⟨pending, connected⟩ := Conn.phase_waiting.mp waiting
    exact ⟨.accept, { conn with server := .reading [] }, by simp [service, Conn.step, pending, connected], rfl⟩

theorem queued_start : (service capacity).Queued (start input memory) where
  distinct := List.nodup_nil
  member := by simp [start, service, Conn.create, Conn.phase]

theorem sound_after (reached : run (step capacity iterative) (start input memory) labels = some state) (row : Fin n) :
    ∃ line, (state.conns row).Sound (input row) line := by
  have each : run ((service capacity).listen backlog iterative) (start input memory) labels = some state := reached
  refine Service.run_each (fun row conn => ∃ line, conn.Sound (input row) line) ?_ (fun row => ?_) each row
  · rintro row conn label next ⟨line, sound⟩ taken
    exact sound.after taken
  · exact ⟨[], .start (memory row).clientSize (memory row).serverSize⟩

theorem Conn.Sound.of_closed {input line : List UInt8} {conn : Conn} (sound : conn.Sound input line)
    (closed : conn.client = .closed) : conn.stdout = input ∧ Complete input := by
  have holds := sound.holds
  have cut := sound.cut
  have sofar := sound.sofar
  rw [closed] at holds
  have none : line = [] := holds
  simp only [none, sound.ended closed, List.append_nil] at cut sofar
  exact ⟨cut, sofar.mp complete_nil⟩

theorem kept_after (reached : run (step capacity iterative) (start input memory) labels = some state)
    (possible : List UInt8 → Prop) (holds : ∀ row, possible (input row)) :
    (service capacity).Kept (fun conn => ∃ input line, possible input ∧ conn.Sound input line) state := by
  refine ⟨Service.run_queued queued_start reached, fun row => ?_⟩
  obtain ⟨line, sound⟩ := sound_after reached row
  exact ⟨input row, line, holds row, sound⟩

theorem complete_of_finished (reached : run (step capacity iterative) (start input memory) labels = some state) {row : Fin n}
    (finished : (state.conns row).phase = .finished) :
    (state.conns row).stdout = input row ∧ Complete (input row) := by
  obtain ⟨line, sound⟩ := sound_after reached row
  exact sound.of_closed (sound.served (Conn.phase_finished.mp finished))

theorem completes_of_complete (toServer : 0 < capacity.toServer) (toClient : 0 < capacity.toClient)
    (complete : ∀ row, Complete (input row))
    (reached : run (step capacity iterative) (start input memory) labels = some state) :
    Completes (step capacity iterative) (service capacity).Finished state := by
  refine Service.finishes (serves capacity Complete) ?_ (kept_after reached Complete complete)
  rintro conn ⟨input, line, whole, sound⟩ served
  exact sound.progress toServer toClient whole served

def Memory.zeroed : Memory where
  clientBuf := []
  serverBuf := []
  clientRio := ⟨⟨[], [], []⟩, 0, 0, List.replicate rioBufsize 0⟩
  serverRio := ⟨⟨[], [], []⟩, 0, 0, List.replicate rioBufsize 0⟩
  clientSize := List.length_replicate
  serverSize := List.length_replicate

/-- With either server, a client has printed a first part of its input, and one that has closed has
printed a complete input. -/
theorem lines_echoed (reached : run (step capacity iterative) (start input memory) labels = some state) (row : Fin n) :
    (state.conns row).stdout <+: input row ∧
      ((state.conns row).client = .closed → (state.conns row).stdout = input row ∧ Complete (input row)) := by
  obtain ⟨line, sound⟩ := sound_after reached row
  exact ⟨⟨_, sound.cut⟩, sound.of_closed⟩

theorem lines_echoed_two_lines :
    ∃ labels state, run (step ⟨1, 1⟩ true) (start (fun _ : Fin 1 => [104, 10, 105, 10]) fun _ => .zeroed) labels = some state ∧
      ∀ row, (state.conns row).stdout = [104, 10, 105, 10] := by
  obtain ⟨labels, state, reached, finished⟩ :=
    @completes_of_complete 1 ⟨1, 1⟩ true (fun _ => [104, 10, 105, 10]) (fun _ => .zeroed) [] _ (by decide) (by decide)
      (by decide) rfl
  refine ⟨labels, state, reached, fun row => ?_⟩
  obtain ⟨line, sound⟩ := sound_after reached row
  exact ((lines_echoed reached row).2 (sound.served (Conn.phase_finished.mp (finished row)))).1

/-- A server with a process or a thread for each client: every run can be continued until the clients
with a complete input have printed it, and each of the others waits for ever. -/
theorem concurrent_settles (toServer : 0 < capacity.toServer) (toClient : 0 < capacity.toClient)
    (reached : run (step capacity false) (start input memory) labels = some state) :
    ∃ more final, run (step capacity false) state more = some final ∧
      ∀ row, if Complete (input row) then (final.conns row).phase = .finished ∧ (final.conns row).stdout = input row
        else (final.conns row).phase = .served ∧ ¬ Enabled (Conn.step capacity) (final.conns row) := by
  obtain ⟨more, final, further, settled⟩ :=
    Service.settles (serves capacity fun _ => True) (kept_after reached _ fun _ => trivial)
  refine ⟨more, final, further, fun row => ?_⟩
  have whole : run (step capacity false) (start input memory) (labels ++ more) = some final :=
    run_append_some.mpr ⟨state, reached, further⟩
  obtain ⟨line, sound⟩ := sound_after whole row
  split_ifs with complete
  · have finished := (settled row).resolve_right fun stuck =>
      stuck.2 (sound.progress toServer toClient complete stuck.1)
    exact ⟨finished, (complete_of_finished whole finished).1⟩
  · exact (settled row).resolve_left fun finished => complete (complete_of_finished whole finished).2

theorem concurrent_settles_unended :
    ∃ more final, run (step ⟨4096, 4096⟩ false)
        (start (fun row : Fin 2 => if row.val = 0 then [104, 105] else [104, 10]) fun _ => .zeroed) more = some final ∧
      ∀ row : Fin 2, if Complete (if row.val = 0 then [104, 105] else [104, 10]) then
          (final.conns row).phase = .finished ∧ (final.conns row).stdout = if row.val = 0 then [104, 105] else [104, 10]
        else (final.conns row).phase = .served ∧ ¬ Enabled (Conn.step ⟨4096, 4096⟩) (final.conns row) :=
  @concurrent_settles 2 ⟨4096, 4096⟩ (fun row => if row.val = 0 then [104, 105] else [104, 10]) (fun _ => .zeroed) [] _
    (by decide) (by decide) rfl

end UnixProgramming.Csapp.LineEcho

import UnixProgramming.Lib.EventLoop
import UnixProgramming.Timer.InactiveLinkAgreement

/-! The alarm that drives the timers of `handling_inactive_link.cpp`. The signal handler
writes a byte into a pipe that is watched with `EPOLLET`, the main loop reads it and sets
`timeout`, and only `timer_handler` sets the alarm again: a link that breaks is never
mended. -/

namespace UnixProgramming.Timer.InactiveLink

open UnixProgramming.Lib

/-- The server with the time, the alarm, and what of `pipefd` is not read. `due` is when
the alarm set last runs out. -/
structure AlarmServer where
  server : Server
  now : Int
  alarm : Bool
  due : Int
  pipe : List Signal
  edge : Bool

inductive AlarmLabel where
  /-- Time passes. -/
  | wait (time : Int)
  | expire
  | kill
  | loop (label : Step)
deriving DecidableEq, Repr

/-- What `time` returns during a step of the loop. -/
def Step.reading : Step → Option Int
  | .accept _ _ cur => some cur
  | .recv (.data cur) => some cur
  | .endBatch cur => some cur
  | _ => none

namespace AlarmServer

def signalBytes : Nat := 1024

/-- `alarm(TIMESLOT)` stands before the loop. -/
def start (users : Nat → ClientData) (clock : Int) : AlarmServer :=
  ⟨.start users clock, clock, true, clock + timeslot, [], false⟩

/-- `sig_handler`: the pipe has room for so many bytes, and a `send` without room fails. -/
def sigHandler (capacity : Nat) (system : AlarmServer) (signal : Signal) : AlarmServer :=
  if system.pipe.length < capacity then { system with pipe := system.pipe ++ [signal], edge := true } else system

/-- The events and bytes a step of the loop may get. -/
def Feasible (system : AlarmServer) : Step → Prop
  | .epollWait ready => ready.count (.pipe true) ≤ system.edge.toNat ∧ .pipe false ∉ ready
  | .recvSignals signals => signals = system.pipe.take signalBytes
  | _ => True

instance (system : AlarmServer) : (label : Step) → Decidable (system.Feasible label)
  | .epollWait ready => inferInstanceAs (Decidable (_ ∧ _))
  | .recvSignals signals => inferInstanceAs (Decidable (signals = system.pipe.take signalBytes))
  | .accept _ _ _ => .isTrue trivial
  | .recv _ => .isTrue trivial
  | .ignore => .isTrue trivial
  | .endBatch _ => .isTrue trivial

/-- What a step of the loop does outside the server. -/
def after (system : AlarmServer) (label : Step) (next : Server) : AlarmServer :=
  match label with
  | .epollWait ready => { system with server := next, edge := fetched system.edge (ready.contains (.pipe true)) }
  | .recvSignals _ => { system with server := next, pipe := system.pipe.drop signalBytes }
  | .endBatch _ =>
    if system.server.timeout then { system with server := next, alarm := true, due := system.now + timeslot }
    else { system with server := next }
  | _ => { system with server := next }

def step (capacity : Nat) (system : AlarmServer) : AlarmLabel → Option AlarmServer
  | .wait time => if system.now ≤ time then some { system with now := time } else none
  | .expire =>
    if system.alarm = true ∧ system.due ≤ system.now then
      some (sigHandler capacity { system with alarm := false } .sigalrm)
    else none
  | .kill => some (system.sigHandler capacity .sigterm)
  | .loop label =>
    if system.Feasible label ∧ ∀ cur ∈ label.reading, cur = system.now then
      (system.server.step label).map (system.after label)
    else none

/-- The environment keeps its promises, and no tick is more than `lag` seconds late. -/
def Punctual (lag : Nat) (system : AlarmServer) : AlarmLabel → Prop
  | .wait time => time ≤ system.due + lag
  | .loop label => Allowed system.server label
  | _ => True

end AlarmServer

open AlarmServer

/-! ## What the steps of the loop leave alone -/

section Steps
variable {server next : Server} {label : Step}

theorem foldl_handleSignal_flags (signals : List Signal) (server : Server) :
    signals.foldl Server.handleSignal server =
      { server with
        timeout := server.timeout || signals.contains .sigalrm
        stopServer := server.stopServer || signals.contains .sigterm } := by
  induction signals generalizing server with
  | nil => simp
  | cons signal rest ih =>
    rw [List.foldl_cons, ih]
    cases signal <;> simp [Server.handleSignal, Bool.or_assoc]

theorem handleAccept_frame {connfd timer : Nat} {cur : Int} (taken : server.handleAccept connfd timer cur = some next) :
    next.timeout = server.timeout ∧ next.stopServer = server.stopServer ∧ next.batch = server.batch ∧
      next.isOpen = Function.update server.isOpen connfd true ∧
      next.lastActive = Function.update server.lastActive connfd cur := by
  simp only [Server.handleAccept, Option.bind_eq_bind] at taken
  obtain ⟨⟨fired, timerLst⟩, -, same⟩ := Option.bind_eq_some_iff.mp taken
  cases same
  exact ⟨rfl, rfl, rfl, rfl, rfl⟩

theorem closeClient_frame {sockfd : Nat} (taken : server.closeClient sockfd = some next) :
    next.timeout = server.timeout ∧ next.stopServer = server.stopServer ∧ next.batch = server.batch ∧
      (∀ fd, next.isOpen fd = true → server.isOpen fd = true) ∧ next.lastActive = server.lastActive := by
  have closes : ∀ fd, (server.cbFunc sockfd).isOpen fd = true → server.isOpen fd = true := by
    intro fd stillOpen
    simp only [Server.cbFunc, Function.update_apply] at stillOpen
    split_ifs at stillOpen
    exact stillOpen
  simp only [Server.closeClient, Option.bind_eq_bind] at taken
  split at taken
  · cases taken
    exact ⟨rfl, rfl, rfl, closes, rfl⟩
  · obtain ⟨⟨fired, timerLst⟩, -, same⟩ := Option.bind_eq_some_iff.mp taken
    cases same
    exact ⟨rfl, rfl, rfl, closes, rfl⟩

theorem handleRecv_frame {sockfd : Nat} {received : Received} (taken : server.handleRecv sockfd received = some next) :
    next.timeout = server.timeout ∧ next.stopServer = server.stopServer ∧ next.batch = server.batch ∧
      (∀ fd, next.isOpen fd = true → server.isOpen fd = true) ∧
      ∀ fd, next.lastActive fd = server.lastActive fd ∨ received = .data (next.lastActive fd) := by
  have closed : server.closeClient sockfd = some next →
      next.timeout = server.timeout ∧ next.stopServer = server.stopServer ∧ next.batch = server.batch ∧
      (∀ fd, next.isOpen fd = true → server.isOpen fd = true) ∧
      ∀ fd, next.lastActive fd = server.lastActive fd ∨ received = .data (next.lastActive fd) := by
    intro taken
    obtain ⟨timeout, stop, batch, opens, active⟩ := closeClient_frame taken
    exact ⟨timeout, stop, batch, opens, fun fd => .inl (by rw [active])⟩
  cases received with
  | failed => exact closed taken
  | closed => exact closed taken
  | again =>
    cases taken
    exact ⟨rfl, rfl, rfl, fun _ => id, fun _ => .inl rfl⟩
  | data cur =>
    have active : ∀ fd, Function.update server.lastActive sockfd cur fd = server.lastActive fd ∨
        Received.data cur = .data (Function.update server.lastActive sockfd cur fd) := by
      intro fd
      by_cases here : fd = sockfd
      · exact .inr (by simp [here])
      · exact .inl (by simp [here])
    simp only [Server.handleRecv] at taken
    split at taken
    · cases taken
      exact ⟨rfl, rfl, rfl, fun _ => id, active⟩
    · obtain ⟨⟨fired, timerLst⟩, -, same⟩ := Option.bind_eq_some_iff.mp taken
      cases same
      exact ⟨rfl, rfl, rfl, fun _ => id, active⟩

/-- The steps that handle an event of a socket take it off the batch and touch no flag. -/
theorem step_socket (taken : server.step label = some next) (socket : label = .ignore ∨
    (∃ received, label = .recv received) ∨ ∃ connfd timer cur, label = .accept connfd timer cur) :
    next.timeout = server.timeout ∧ next.stopServer = server.stopServer ∧
      ∃ event rest, server.batch = some (event :: rest) ∧ next.batch = some rest ∧ event ≠ .pipe true := by
  rcases socket with rfl | ⟨received, rfl⟩ | ⟨connfd, timer, cur, rfl⟩
  · simp only [Server.step] at taken
    split at taken
    · next sockfd rest batch =>
      cases taken
      exact ⟨rfl, rfl, _, rest, batch, rfl, by simp⟩
    · next rest batch =>
      cases taken
      exact ⟨rfl, rfl, _, rest, batch, rfl, by simp⟩
    · cases taken
  · simp only [Server.step] at taken
    split at taken
    · next sockfd rest batch =>
      obtain ⟨timeout, stop, left, -, -⟩ := handleRecv_frame taken
      exact ⟨timeout, stop, _, rest, batch, left, by simp⟩
    · cases taken
  · simp only [Server.step] at taken
    split at taken
    · next rest batch =>
      obtain ⟨timeout, stop, left, -, -⟩ := handleAccept_frame taken
      exact ⟨timeout, stop, _, rest, batch, left, by simp⟩
    · cases taken

/-- A connection is open after a step because it was, or its activity has just been noted. -/
theorem step_active (taken : server.step label = some next) {fd : Nat} (opened : next.isOpen fd = true) :
    (server.isOpen fd = true ∧ next.lastActive fd = server.lastActive fd) ∨
      next.lastActive fd ∈ label.reading := by
  cases label with
  | epollWait ready =>
    simp only [Server.step] at taken
    split_ifs at taken
    cases taken
    exact .inl ⟨opened, rfl⟩
  | accept connfd timer cur =>
    simp only [Server.step] at taken
    split at taken
    · obtain ⟨-, -, -, opens, active⟩ := handleAccept_frame taken
      by_cases here : fd = connfd
      · exact .inr (by simp [Step.reading, active, here])
      · refine .inl ⟨?_, by simp [active, here]⟩
        simpa [opens, here] using opened
    · cases taken
  | recvSignals signals =>
    simp only [Server.step] at taken
    split at taken
    · cases taken
      rw [foldl_handleSignal_flags] at opened ⊢
      exact .inl ⟨opened, rfl⟩
    · cases taken
  | recv received =>
    simp only [Server.step] at taken
    split at taken
    · obtain ⟨-, -, -, opens, active⟩ := handleRecv_frame taken
      rcases active fd with same | rfl
      · exact .inl ⟨opens fd opened, same⟩
      · exact .inr (by simp [Step.reading])
    · cases taken
  | ignore =>
    simp only [Server.step] at taken
    split at taken
    · cases taken
      exact .inl ⟨opened, rfl⟩
    · cases taken
      exact .inl ⟨opened, rfl⟩
    · cases taken
  | endBatch cur =>
    simp only [Server.step] at taken
    split at taken
    · split_ifs at taken
      · simp only [Server.timerHandler, Option.bind_eq_bind] at taken
        obtain ⟨⟨fired, timerLst⟩, -, same⟩ := Option.bind_eq_some_iff.mp taken
        cases same
        rw [foldl_cbFunc] at opened ⊢
        exact .inl ⟨(Bool.and_eq_true_iff.mp opened).1, rfl⟩
      · cases taken
        exact .inl ⟨opened, rfl⟩
    · cases taken

/-- A tick leaves only connections open that were active in the last three time slots. -/
theorem Agrees.ticked {seq : TimerSeq Nat} (agrees : Agrees server seq) (alarmed : server.timeout = true) {cur : Int}
    (later : server.clock ≤ cur) (taken : server.step (.endBatch cur) = some next) {fd : Nat}
    (opened : next.isOpen fd = true) : cur - 3 * timeslot < next.lastActive fd := by
  have kept : next.lastActive fd = server.lastActive fd ∨ next.lastActive fd = cur := by
    rcases step_active taken opened with ⟨-, same⟩ | read
    · exact .inl same
    · exact .inr (by simpa [Step.reading, eq_comm] using read)
  have slot : timeslot = 5 := rfl
  simp only [Server.step, alarmed, if_true] at taken
  split at taken
  · obtain ⟨other, -, ticked, -, closes⟩ :=
      (agrees.flags none false server.stopServer (by simp)).tick later rfl
    have same : other = next := by simpa using ticked.symm.trans taken
    have active := ((closes fd).mp (same ▸ opened)).2
    dsimp only at active
    omega
  · cases taken

end Steps

/-! ## The chain -/

/-- Until the server is told to stop, the next tick is on its way at exactly one place: the
alarm is set, its byte is in the pipe and announced, or `timeout` is set. -/
structure Chained (system : AlarmServer) : Prop where
  only : ∀ signal ∈ system.pipe, signal = .sigalrm ∨ signal = .sigterm
  token : system.server.stopServer = false → .sigterm ∉ system.pipe →
    system.alarm.toNat + system.pipe.length + system.server.timeout.toNat = 1
  announced : system.server.stopServer = false → .sigterm ∉ system.pipe → system.pipe ≠ [] →
    system.edge = true ∨ ∃ ready, system.server.batch = some ready ∧ .pipe true ∈ ready

/-- Every open connection has been active later than three time slots before the last tick. -/
structure InTime (lag : Nat) (system : AlarmServer) : Prop where
  agrees : ∃ seq, Agrees system.server seq
  soon : system.due ≤ system.now + timeslot
  late : system.now ≤ system.due + lag
  active : ∀ fd, system.server.isOpen fd = true → system.due < system.server.lastActive fd + 4 * timeslot

section Chain
variable {capacity lag : Nat} {system next : AlarmServer} {users : Nat → ClientData} {clock : Int}

theorem Chained.start : Chained (.start users clock) where
  only := by simp [AlarmServer.start]
  token := fun _ _ => rfl
  announced := by simp [AlarmServer.start]

theorem InTime.start : InTime lag (.start users clock) where
  agrees := ⟨[], .start users clock⟩
  soon := Int.le_refl _
  late := by
    have slot : timeslot = 5 := rfl
    simp only [AlarmServer.start]
    omega
  active := by simp [AlarmServer.start, Server.start]

theorem Chained.expire (chained : Chained system) (room : 0 < capacity) (set : system.alarm = true) :
    Chained (sigHandler capacity { system with alarm := false } .sigalrm) := by
  unfold sigHandler
  split_ifs with space
  · refine ⟨fun signal member => ?_, fun running unkilled => ?_, fun _ _ _ => .inl rfl⟩
    · rcases List.mem_append.mp member with old | new
      · exact chained.only signal old
      · exact .inl (List.mem_singleton.mp new)
    · have before : .sigterm ∉ system.pipe := fun member => unkilled (List.mem_append_left _ member)
      have token := chained.token running before
      simp only [set, Bool.toNat_true, Bool.toNat_false, List.length_append, List.length_singleton] at token ⊢
      omega
  · have full : capacity ≤ system.pipe.length := Nat.le_of_not_lt space
    refine ⟨chained.only, fun running unkilled => ?_, chained.announced⟩
    have token := chained.token running unkilled
    simp only [set, Bool.toNat_true] at token
    omega

theorem Chained.kill (chained : Chained system) : Chained (system.sigHandler capacity .sigterm) := by
  unfold sigHandler
  split_ifs
  · refine ⟨fun signal member => ?_, fun _ unkilled => ?_, fun _ _ _ => .inl rfl⟩
    · rcases List.mem_append.mp member with old | new
      · exact chained.only signal old
      · exact .inr (List.mem_singleton.mp new)
    · exact (unkilled (List.mem_append_right _ (List.mem_singleton.mpr rfl))).elim
  · exact chained

/-- The steps that touch no flag leave the announcement in the batch. -/
theorem Chained.socket (chained : Chained system) {server : Server}
    (timeout : server.timeout = system.server.timeout) (stop : server.stopServer = system.server.stopServer)
    (batch : ∃ event rest, system.server.batch = some (event :: rest) ∧ server.batch = some rest ∧ event ≠ .pipe true) :
    Chained { system with server := server } where
  only := chained.only
  token := by
    intro running unkilled
    dsimp only at running ⊢
    rw [stop] at running
    rw [timeout]
    exact chained.token running unkilled
  announced := by
    intro running unkilled some
    dsimp only at running ⊢
    rw [stop] at running
    obtain ⟨event, rest, before, left, other⟩ := batch
    refine (chained.announced running unkilled some).imp id ?_
    rintro ⟨ready, current, member⟩
    rw [before, Option.some.injEq] at current
    subst current
    exact ⟨rest, left, (List.mem_cons.mp member).resolve_left (Ne.symm other)⟩

theorem Chained.loop (chained : Chained system) {label : Step} {server : Server} (feasible : system.Feasible label)
    (taken : system.server.step label = some server) : Chained (system.after label server) := by
  cases label with
  | accept connfd timer cur =>
    obtain ⟨timeout, stop, batch⟩ := step_socket taken (.inr (.inr ⟨connfd, timer, cur, rfl⟩))
    exact chained.socket timeout stop batch
  | recv received =>
    obtain ⟨timeout, stop, batch⟩ := step_socket taken (.inr (.inl ⟨received, rfl⟩))
    exact chained.socket timeout stop batch
  | ignore =>
    obtain ⟨timeout, stop, batch⟩ := step_socket taken (.inl rfl)
    exact chained.socket timeout stop batch
  | epollWait ready =>
    simp only [Server.step] at taken
    split_ifs at taken with idle
    cases taken
    refine ⟨chained.only, chained.token, fun running unkilled some => ?_⟩
    rcases chained.announced running unkilled some with edge | ⟨other, current, -⟩
    · by_cases member : .pipe true ∈ ready
      · exact .inr ⟨ready, rfl, member⟩
      · exact .inl (by simp [AlarmServer.after, fetched, edge, member])
    · rw [idle.1] at current
      cases current
  | recvSignals signals =>
    obtain rfl : signals = system.pipe.take signalBytes := feasible
    simp only [Server.step] at taken
    split at taken
    · next rest batch =>
      cases taken
      rw [foldl_handleSignal_flags]
      have before : (system.server.stopServer || (system.pipe.take signalBytes).contains .sigterm) = false →
          .sigterm ∉ system.pipe.drop signalBytes →
          system.server.stopServer = false ∧ .sigterm ∉ system.pipe := by
        intro running unkilled
        obtain ⟨still, clean⟩ := Bool.or_eq_false_iff.mp running
        refine ⟨still, fun member => ?_⟩
        rw [← List.take_append_drop signalBytes system.pipe, List.mem_append] at member
        rcases member with early | late
        · simp [early] at clean
        · exact unkilled late
      have short : system.server.stopServer = false → .sigterm ∉ system.pipe →
          system.pipe.take signalBytes = system.pipe ∧ system.pipe.drop signalBytes = [] := by
        intro running unkilled
        have token := chained.token running unkilled
        have bytes : signalBytes = 1024 := rfl
        exact ⟨List.take_of_length_le (by omega), List.drop_eq_nil_of_le (by omega)⟩
      refine ⟨fun signal member => chained.only signal (List.mem_of_mem_drop member), fun running unkilled => ?_,
        fun running unkilled some => ?_⟩
      · obtain ⟨still, clean⟩ := before running unkilled
        obtain ⟨whole, none⟩ := short still clean
        have token := chained.token still clean
        simp only [AlarmServer.after, whole, none, List.length_nil, Nat.add_zero]
        cases pipe : system.pipe with
        | nil =>
          rw [pipe] at token
          simpa using token
        | cons signal rest =>
          have alarmed : signal = .sigalrm := by
            refine (chained.only signal (by simp [pipe])).resolve_right fun killed => ?_
            exact clean (by simp [pipe, killed])
          rw [pipe, List.length_cons] at token
          have unset : system.alarm.toNat = 0 ∧ system.server.timeout.toNat = 0 := by omega
          simp [alarmed, unset.1]
      · obtain ⟨still, clean⟩ := before running unkilled
        exact (some (short still clean).2).elim
    · cases taken
  | endBatch cur =>
    simp only [Server.step] at taken
    split at taken
    · next batch =>
      have edge : system.server.stopServer = false → .sigterm ∉ system.pipe → system.pipe ≠ [] →
          system.edge = true := by
        intro running unkilled some
        refine (chained.announced running unkilled some).resolve_right ?_
        rintro ⟨ready, current, member⟩
        rw [batch, Option.some.injEq] at current
        subst current
        cases member
      split_ifs at taken with alarmed
      · simp only [Server.timerHandler, Option.bind_eq_bind] at taken
        obtain ⟨⟨fired, timerLst⟩, -, same⟩ := Option.bind_eq_some_iff.mp taken
        cases same
        rw [foldl_cbFunc]
        simp only [AlarmServer.after, alarmed, if_true]
        refine ⟨chained.only, fun running unkilled => ?_, fun running unkilled some => .inl (edge running unkilled some)⟩
        have token := chained.token running unkilled
        simp only [alarmed, Bool.toNat_true, Bool.toNat_false] at token ⊢
        omega
      · cases taken
        unfold AlarmServer.after
        dsimp only
        rw [if_neg alarmed]
        exact ⟨chained.only, chained.token, fun running unkilled some => .inl (edge running unkilled some)⟩
    · cases taken

theorem Chained.step (chained : Chained system) (room : 0 < capacity) {label : AlarmLabel}
    (taken : system.step capacity label = some next) : Chained next := by
  cases label with
  | wait time =>
    simp only [AlarmServer.step] at taken
    split_ifs at taken
    cases taken
    exact ⟨chained.only, chained.token, chained.announced⟩
  | expire =>
    simp only [AlarmServer.step] at taken
    split_ifs at taken with ready
    cases taken
    exact chained.expire room ready.1
  | kill =>
    cases taken
    exact chained.kill
  | loop label =>
    simp only [AlarmServer.step] at taken
    split_ifs at taken with ready
    obtain ⟨server, stepped, rfl⟩ := Option.map_eq_some_iff.mp taken
    exact chained.loop ready.1 stepped

/-! ## The time a connection may stay silent -/

theorem InTime.sigHandler (inTime : InTime lag system) (signal : Signal) (alarm : Bool) :
    InTime lag (sigHandler capacity { system with alarm := alarm } signal) := by
  unfold AlarmServer.sigHandler
  split_ifs
  · exact ⟨inTime.agrees, inTime.soon, inTime.late, inTime.active⟩
  · exact ⟨inTime.agrees, inTime.soon, inTime.late, inTime.active⟩

theorem InTime.loop (inTime : InTime lag system) {label : Step} {server : Server}
    (allowed : Allowed system.server label) (now : ∀ cur ∈ label.reading, cur = system.now)
    (taken : system.server.step label = some server) : InTime lag (system.after label server) := by
  have slot : timeslot = 5 := rfl
  have soon := inTime.soon
  have late := inTime.late
  obtain ⟨seq, agrees⟩ := inTime.agrees
  have later : ∃ seq, Agrees server seq := by
    obtain ⟨other, seqNext, stepped, kept⟩ := agrees.step label allowed
    obtain rfl := Option.some.inj (stepped.symm.trans taken)
    exact ⟨seqNext, kept⟩
  have active : ∀ fd, server.isOpen fd = true → system.due < server.lastActive fd + 4 * timeslot := by
    intro fd opened
    rcases step_active taken opened with ⟨before, same⟩ | read
    · rw [same]
      exact inTime.active fd before
    · rw [now _ read]
      omega
  cases label with
  | endBatch cur =>
    obtain rfl : cur = system.now := now cur rfl
    unfold AlarmServer.after
    dsimp only
    split_ifs with alarmed
    · refine ⟨later, Int.le_refl _, by dsimp only; omega, fun fd opened => ?_⟩
      have recent := agrees.ticked alarmed allowed.2 taken opened
      dsimp only
      omega
    · exact ⟨later, soon, late, active⟩
  | epollWait ready => exact ⟨later, soon, late, active⟩
  | accept connfd timer cur => exact ⟨later, soon, late, active⟩
  | recvSignals signals => exact ⟨later, soon, late, active⟩
  | recv received => exact ⟨later, soon, late, active⟩
  | ignore => exact ⟨later, soon, late, active⟩

theorem InTime.step (inTime : InTime lag system) {label : AlarmLabel} (punctual : Punctual lag system label)
    (taken : system.step capacity label = some next) : InTime lag next := by
  cases label with
  | wait time =>
    simp only [AlarmServer.step] at taken
    split_ifs at taken with later
    cases taken
    exact ⟨inTime.agrees, inTime.soon.trans (by dsimp only; omega), punctual, inTime.active⟩
  | expire =>
    simp only [AlarmServer.step] at taken
    split_ifs at taken
    cases taken
    exact inTime.sigHandler _ _
  | kill =>
    cases taken
    exact inTime.sigHandler _ system.alarm
  | loop label =>
    simp only [AlarmServer.step] at taken
    split_ifs at taken with ready
    obtain ⟨server, stepped, rfl⟩ := Option.map_eq_some_iff.mp taken
    exact inTime.loop punctual ready.2 stepped

/-- The chain of alarms never breaks before the server is told to stop: the next tick is always on
its way, exactly once, and a byte in the pipe is announced. When no tick is more than `lag` seconds
late, no connection is ever open that has been silent for four time slots and the lag. -/
theorem silent_links_closed (capacity lag : Nat) (room : 0 < capacity) (users : Nat → ClientData) (clock : Int)
    (labels : List AlarmLabel) (system : AlarmServer)
    (punctual : Meets (AlarmServer.step capacity) (Punctual lag) (.start users clock) labels)
    (reached : run (AlarmServer.step capacity) (.start users clock) labels = some system) :
    (system.server.stopServer = false → .sigterm ∉ system.pipe →
      system.alarm.toNat + system.pipe.count .sigalrm + system.server.timeout.toNat = 1 ∧
      (system.pipe ≠ [] → system.edge = true ∨ ∃ ready, system.server.batch = some ready ∧ .pipe true ∈ ready)) ∧
    ∀ fd, system.server.isOpen fd = true → system.now < system.server.lastActive fd + 4 * timeslot + lag := by
  have chained : Chained system :=
    run_invariant (fun _ _ _ chained taken => chained.step room taken) .start reached
  have inTime : InTime lag system :=
    run_invariant_of_meets (fun _ _ _ inTime held taken => inTime.step held taken) .start punctual reached
  refine ⟨fun running unkilled => ⟨?_, chained.announced running unkilled⟩, fun fd opened => ?_⟩
  · have alarms : system.pipe.count .sigalrm = system.pipe.length := by
      apply List.count_eq_length.mpr
      intro signal member
      refine ((chained.only signal member).resolve_right ?_).symm
      rintro rfl
      exact unkilled member
    rw [alarms]
    exact chained.token running unkilled
  · have active := inTime.active fd opened
    have late := inTime.late
    omega

/-- A connection accepted at time 1, and a tick that is two seconds late and leaves it open. -/
theorem silent_links_closed_late_tick :
    ∃ system, run (AlarmServer.step 1) (.start (fun _ => ⟨0, none⟩) 0)
        [.loop (.epollWait [.listen]), .wait 1, .loop (.accept 7 100 1), .loop (.endBatch 1), .wait 5, .expire,
          .loop (.epollWait [.pipe true]), .loop (.recvSignals [.sigalrm]), .wait 7, .loop (.endBatch 7), .wait 12] =
        some system ∧ system.now < system.server.lastActive 7 + 4 * timeslot + (2 : Nat) := by
  have punctual : Meets (AlarmServer.step 1) (Punctual 2) (.start (fun _ => ⟨0, none⟩) 0)
      [.loop (.epollWait [.listen]), .wait 1, .loop (.accept 7 100 1), .loop (.endBatch 1), .wait 5, .expire,
        .loop (.epollWait [.pipe true]), .loop (.recvSignals [.sigalrm]), .wait 7, .loop (.endBatch 7), .wait 12] := by
    refine .cons ⟨rfl, rfl, by simp [clientFds], by simp [clientFds]⟩ rfl ?_
    refine .cons (show (1 : Int) ≤ 7 by decide) rfl ?_
    refine .cons ⟨⟨_, rfl⟩, by decide, rfl, rfl, by decide⟩ rfl ?_
    refine .cons ⟨rfl, by decide⟩ rfl ?_
    refine .cons (show (5 : Int) ≤ 7 by decide) rfl ?_
    refine .cons trivial rfl ?_
    refine .cons ⟨rfl, rfl, by simp [clientFds], by simp [clientFds]⟩ rfl ?_
    refine .cons ⟨_, rfl⟩ rfl ?_
    refine .cons (show (7 : Int) ≤ 7 by decide) rfl ?_
    refine .cons ⟨rfl, by decide⟩ rfl ?_
    exact .cons (show (12 : Int) ≤ 14 by decide) rfl trivial
  exact ⟨_, rfl, (silent_links_closed 1 2 Nat.zero_lt_one _ 0 _ _ punctual rfl).2 7 rfl⟩

end Chain

end UnixProgramming.Timer.InactiveLink

import UnixProgramming.Pool.Server
import UnixProgramming.Pool.Session

/-! Who is in charge of a connection. Re-arming is the last thing a handler does to an
open connection, so that the connection is at one place at a time; only a worker that
closes one goes on working on the object after it has given the descriptor back. -/

namespace UnixProgramming.Pool

open UnixProgramming.Lib HttpConn

/-- The one place where a connection object is. A stranded connection is open, and
nothing will ever come back to it. -/
inductive Place (Worker : Type) where
  | nowhere
  | armed
  | pending
  | main (task : MainTask)
  | queued
  | worker (worker : Worker) (task : WorkerTask)
  | stranded

namespace Slot

/-- An open connection with its epoll entry. -/
structure Standing (fd : Nat) (armed : Bool) (slot : Slot) : Prop where
  sockfd : slot.conn.sockfd = some fd
  opened : slot.opened = true
  connected : slot.connected = true
  registered : slot.registration.isSome = true
  arming : slot.armed = armed

/-- The object has no connection, and its descriptor is free. -/
structure Gone (slot : Slot) : Prop where
  opened : slot.opened = false
  connected : slot.connected = false
  unregistered : slot.registration = none

/-- The descriptor belongs to a connection the object does not have yet. -/
structure Fresh (slot : Slot) : Prop where
  opened : slot.opened = true
  connected : slot.connected = false
  unregistered : slot.registration = none

/-- What is true of the connection before each statement of `close_conn`. -/
def Closing (fd : Nat) (slot : Slot) : CloseStage → Prop
  | .check | .delete => ∃ armed, Standing fd armed slot
  | .shut => slot.conn.sockfd = some fd ∧ slot.opened = true
  | .clear => Gone slot
  | .discount => Gone slot ∧ slot.conn.sockfd = none

/-- What is true of the connection at each point of the main loop. -/
def MainFits (fd : Nat) (slot : Slot) : MainTask → Prop
  | .accepted | .refused | .initSockfd => Fresh slot
  | .initAdd => slot.conn.sockfd = some fd ∧ slot.opened = true ∧ slot.connected = true ∧ slot.registration = none
  | .initCount | .initReset | .idleInit => Standing fd true slot
  | .close generation stage => slot.generation = generation ∧ Closing fd slot stage
  | _ => Standing fd false slot

/-- What is true of the connection at each point of `process`. -/
def WorkerFits (fd : Nat) (slot : Slot) : WorkerTask → Prop
  | .processRead | .processWrite _ => Standing fd false slot
  | .close generation stage => slot.generation = generation ∧ slot.armed = false ∧ Closing fd slot stage
  | .modfd _ => Standing fd false slot ∨ Gone slot ∧ slot.conn.sockfd = none

/-- What is true of a connection at each place. -/
def Fits {Worker : Type} (fd : Nat) (slot : Slot) : Place Worker → Prop
  | .nowhere => Gone slot
  | .armed => Standing fd true slot
  | .pending | .queued | .stranded => Standing fd false slot
  | .main task => MainFits fd slot task
  | .worker _ task => WorkerFits fd slot task

/-- Where a connection is when the thread in charge of it is through. -/
def released (Worker : Type) (slot : Slot) : Place Worker := if slot.armed then .armed else .nowhere

variable {fd : Nat} {armed : Bool} {slot : Slot}

/-- The invariants see `m_sockfd` only. -/
theorem Standing.assign (standing : Standing fd armed slot) {conn : HttpConn}
    (same : conn.sockfd = slot.conn.sockfd) : Standing fd armed { slot with conn := conn } where
  sockfd := same.trans standing.sockfd
  opened := standing.opened
  connected := standing.connected
  registered := standing.registered
  arming := standing.arming

theorem Standing.modfd (standing : Standing fd armed slot) (interest : Interest) :
    Standing fd true (slot.modfd interest) := by
  have applied : slot.modfd interest = { slot with registration := some ⟨interest, true⟩ } := by
    simp [Slot.modfd, standing.sockfd, standing.registered]
  rw [applied]
  exact ⟨standing.sockfd, standing.opened, standing.connected, rfl, rfl⟩

theorem modfd_generation (slot : Slot) (interest : Interest) :
    (slot.modfd interest).generation = slot.generation := by
  unfold Slot.modfd
  split_ifs <;> rfl

theorem Gone.modfd (gone : Gone slot) (interest : Interest) : slot.modfd interest = slot := by
  simp [Slot.modfd, gone.unregistered]

theorem Gone.shut (slot : Slot) : Gone slot.shut := ⟨rfl, rfl, rfl⟩

theorem Gone.released {Worker : Type} (gone : Gone slot) : Fits fd slot (slot.released Worker) := by
  have unarmed : slot.armed = false := by simp [Slot.armed, gone.unregistered]
  simpa [Slot.released, unarmed, Fits] using gone

theorem Standing.released {Worker : Type} (standing : Standing fd true slot) :
    Fits fd slot (slot.released Worker) := by
  simpa [Slot.released, standing.arming, Fits] using standing

/-- Each statement of `close_conn` takes the connection to the next one. -/
theorem Closing.step {stage : CloseStage} (closing : Closing fd slot stage) :
    (slot.closeStep stage).1.generation = slot.generation ∧
      (slot.armed = false → (slot.closeStep stage).1.armed = false) ∧
      match (slot.closeStep stage).2 with
      | some after => Closing fd (slot.closeStep stage).1 after
      | none => Gone (slot.closeStep stage).1 ∧ (slot.closeStep stage).1.conn.sockfd = none := by
  cases stage with
  | check =>
    obtain ⟨armed, standing⟩ := closing
    simp only [closeStep, standing.sockfd, Option.isSome_some, if_true]
    exact ⟨trivial, id, armed, standing⟩
  | delete =>
    obtain ⟨armed, standing⟩ := closing
    exact ⟨rfl, fun _ => rfl, standing.sockfd, standing.opened⟩
  | shut => exact ⟨rfl, fun _ => rfl, Gone.shut slot⟩
  | clear => exact ⟨rfl, id, ⟨closing.opened, closing.connected, closing.unregistered⟩, rfl⟩
  | discount => exact ⟨rfl, id, closing⟩

theorem unmap_sockfd (conn : HttpConn) : conn.unmap.sockfd = conn.sockfd := by
  unfold HttpConn.unmap
  split_ifs <;> rfl

theorem processRead_sockfd (fs : FileSystem) (conn : HttpConn) : (processRead fs conn).2.sockfd = conn.sockfd :=
  (processReadLoop_requested fs conn .ok).1

theorem processWrite_sockfd (conn : HttpConn) (code : HttpCode) :
    (conn.processWrite code).2.sockfd = conn.sockfd := by
  obtain ⟨buf, iv, same⟩ := processWrite_builds conn code
  rw [same]

/-- The start of `close_conn` on an open connection. -/
theorem Standing.closing (standing : Standing fd armed slot) : MainFits fd slot slot.closing :=
  ⟨rfl, armed, standing⟩

theorem Gone.assign (gone : Gone slot) (conn : HttpConn) : Gone { slot with conn := conn } :=
  ⟨gone.opened, gone.connected, gone.unregistered⟩

theorem Closing.assign {stage : CloseStage} {conn : HttpConn} (closing : Closing fd slot stage)
    (same : conn.sockfd = slot.conn.sockfd) : Closing fd { slot with conn := conn } stage := by
  cases stage with
  | check | delete =>
    obtain ⟨armed, standing⟩ := closing
    exact ⟨armed, standing.assign same⟩
  | shut => exact ⟨same.trans closing.1, closing.2⟩
  | clear => exact Gone.assign closing conn
  | discount => exact ⟨closing.1.assign conn, same.trans closing.2⟩

theorem MainFits.assign {task : MainTask} {conn : HttpConn} (fits : MainFits fd slot task)
    (same : conn.sockfd = slot.conn.sockfd) : MainFits fd { slot with conn := conn } task := by
  cases task with
  | accepted | refused | initSockfd => exact ⟨fits.opened, fits.connected, fits.unregistered⟩
  | initAdd => exact ⟨same.trans fits.1, fits.2⟩
  | close generation stage => exact ⟨fits.1, fits.2.assign same⟩
  | _ => exact Standing.assign fits same

theorem WorkerFits.assign {task : WorkerTask} {conn : HttpConn} (fits : WorkerFits fd slot task)
    (same : conn.sockfd = slot.conn.sockfd) : WorkerFits fd { slot with conn := conn } task := by
  cases task with
  | processRead | processWrite => exact Standing.assign fits same
  | close generation stage => exact ⟨fits.1, fits.2.1, fits.2.2.assign same⟩
  | modfd interest =>
    rcases fits with standing | ⟨gone, sockfd⟩
    · exact .inl (standing.assign same)
    · exact .inr ⟨gone.assign conn, same.trans sockfd⟩

/-- A turn of the loop of `read`. -/
theorem MainFits.recv (Worker : Type) {task : MainTask} {outcome : HttpConn.Recv} {next : Slot}
    {after : Option MainTask} (fits : MainFits fd slot task)
    (taken : slot.mainStep fd task (.recv outcome) = some (next, after)) :
    Fits fd next (after.elim (next.released Worker) .main) := by
  cases task with
  | receive =>
    have standing : Standing fd false slot := fits
    cases outcome with
    | again => cases taken; exact standing
    | error => cases taken; exact standing.closing
    | data received =>
      simp only [mainStep] at taken
      split_ifs at taken
      · cases taken; exact standing.closing
      · cases taken; exact standing.assign rfl
  | _ => simp [mainStep] at taken

/-- A turn of the loop of `write`. -/
theorem MainFits.writev (Worker : Type) {task : MainTask} {outcome : HttpConn.Writev} {next : Slot}
    {after : Option MainTask} (fits : MainFits fd slot task)
    (taken : slot.mainStep fd task (.writev outcome) = some (next, after)) :
    Fits fd next (after.elim (next.released Worker) .main) := by
  cases task with
  | sending bytesToSend bytesHaveSend =>
    have standing : Standing fd false slot := fits
    cases outcome with
    | again => cases taken; exact standing
    | error => cases taken; exact standing
    | accepted count =>
      simp only [mainStep, Option.some.injEq, Prod.mk.injEq] at taken
      obtain ⟨rfl, rfl⟩ := taken
      split_ifs <;> exact standing
  | _ => simp [mainStep] at taken

/-- Each statement of the main loop takes the connection to the next one. -/
theorem MainFits.step (Worker : Type) {task : MainTask} {action : Action} {next : Slot} {after : Option MainTask}
    (fits : MainFits fd slot task) (taken : slot.mainStep fd task action = some (next, after)) :
    Fits fd next (after.elim (next.released Worker) .main) := by
  cases action with
  | assign conn =>
    have assigned : conn.sockfd = slot.conn.sockfd ∧ next = { slot with conn := conn } ∧ after = some task := by
      cases task <;> simp [mainStep] at taken <;> grind
    obtain ⟨same, rfl, rfl⟩ := assigned
    exact fits.assign same
  | parse fs => cases task <;> simp [mainStep] at taken
  | recv outcome => exact fits.recv Worker taken
  | writev outcome => exact fits.writev Worker taken
  | next =>
    cases task with
    | accepted | append | receive | sending => simp [mainStep] at taken
    | refused => cases taken; exact (Gone.shut slot).released
    | initSockfd =>
      cases taken
      exact ⟨rfl, fits.opened, rfl, fits.unregistered⟩
    | initAdd =>
      cases taken
      have added : slot.addfd = { slot with registration := some ⟨.epollin, true⟩ } := by
        simp [addfd, fits.2.2.2]
      rw [added]
      exact ⟨fits.1, fits.2.1, fits.2.2.1, rfl, rfl⟩
    | initCount => cases taken; exact fits
    | initReset | idleInit =>
      have standing : Standing fd true { slot with conn := slot.conn.init } := Standing.assign fits rfl
      cases taken
      exact standing.released
    | read =>
      have standing : Standing fd false slot := fits
      simp only [mainStep, Option.some.injEq, Prod.mk.injEq] at taken
      obtain ⟨rfl, rfl⟩ := taken
      split_ifs
      · exact standing.closing
      · exact standing
    | write =>
      have standing : Standing fd false slot := fits
      simp only [mainStep, Option.some.injEq, Prod.mk.injEq] at taken
      obtain ⟨rfl, rfl⟩ := taken
      split_ifs <;> exact standing
    | idleModfd => cases taken; exact Standing.modfd fits .epollin
    | againModfd => cases taken; exact (Standing.modfd fits .epollout).released
    | failUnmap =>
      cases taken
      exact (Standing.assign fits (unmap_sockfd slot.conn)).closing
    | doneUnmap =>
      have standing : Standing fd false { slot with conn := slot.conn.unmap } :=
        Standing.assign fits (unmap_sockfd slot.conn)
      simp only [mainStep, Option.some.injEq, Prod.mk.injEq] at taken
      obtain ⟨rfl, rfl⟩ := taken
      split_ifs <;> exact standing
    | keepInit => cases taken; exact Standing.assign fits rfl
    | keepModfd => cases taken; exact (Standing.modfd fits .epollin).released
    | dropModfd =>
      cases taken
      refine ⟨?_, true, Standing.modfd fits .epollin⟩
      rw [modfd_generation]
    | close generation stage =>
      obtain ⟨rfl, closing⟩ := fits
      obtain ⟨same, -, ends⟩ := closing.step
      simp only [mainStep] at taken
      generalize slot.closeStep stage = result at taken same ends
      obtain ⟨closed, later⟩ := result
      cases taken
      cases later with
      | none => exact ends.1.released
      | some later => exact ⟨same, ends⟩

/-- Each statement of `process` takes the connection to the next one. -/
theorem WorkerFits.step {Worker : Type} (worker : Worker) {task : WorkerTask} {action : Action} {next : Slot}
    {after : Option WorkerTask} (fits : WorkerFits fd slot task)
    (taken : slot.workerStep task action = some (next, after)) :
    Fits fd next (after.elim (next.released Worker) (.worker worker)) := by
  cases action with
  | assign conn =>
    have assigned : conn.sockfd = slot.conn.sockfd ∧ next = { slot with conn := conn } ∧ after = some task := by
      cases task <;> simp [workerStep] at taken <;> grind
    obtain ⟨same, rfl, rfl⟩ := assigned
    exact fits.assign same
  | recv | writev => cases task <;> simp [workerStep] at taken
  | parse fs =>
    cases task with
    | processRead =>
      have standing := Standing.assign fits (processRead_sockfd fs slot.conn)
      simp only [workerStep, Option.some.injEq, Prod.mk.injEq] at taken
      obtain ⟨rfl, rfl⟩ := taken
      split_ifs
      · exact .inl standing
      · exact standing
    | _ => simp [workerStep] at taken
  | next =>
    cases task with
    | processRead => simp [workerStep] at taken
    | processWrite code =>
      have standing := Standing.assign fits (processWrite_sockfd slot.conn code)
      simp only [workerStep, Option.some.injEq, Prod.mk.injEq] at taken
      obtain ⟨rfl, rfl⟩ := taken
      split_ifs
      · exact .inl standing
      · exact ⟨rfl, standing.arming, false, standing⟩
    | close generation stage =>
      obtain ⟨rfl, unarmed, closing⟩ := fits
      obtain ⟨same, quiet, ends⟩ := closing.step
      have silent := quiet unarmed
      simp only [workerStep] at taken
      generalize slot.closeStep stage = result at taken same silent ends
      obtain ⟨closed, later⟩ := result
      cases taken
      cases later with
      | none => exact .inr ends
      | some later => exact ⟨same, silent, ends⟩
    | modfd interest =>
      cases taken
      rcases fits with standing | ⟨gone, -⟩
      · exact (standing.modfd interest).released
      · rw [gone.modfd interest]
        exact gone.released

end Slot

/-- The connection the main loop is in charge of. -/
def MainStage.holds : MainStage → Option (Nat × MainTask)
  | .inside fd task _ => some (fd, task)
  | _ => none

/-- The connection a worker is in charge of. -/
def WorkerStage.fd : WorkerStage → Option Nat
  | .busy fd _ => some fd
  | _ => none

/-- The connections whose events the main loop has yet to handle. -/
def MainStage.pending : MainStage → List Nat
  | .waiting => []
  | .dispatch events => events.filterMap Event.fd
  | .inside _ _ rest | .posting rest => rest.filterMap Event.fd

/-- Every connection object is at one place. -/
structure Placed {Worker : Type} (server : Server Worker) (place : Nat → Place Worker) : Prop where
  main : ∀ fd task, place fd = .main task ↔ server.main.holds = some (fd, task)
  pending : ∀ fd, place fd = .pending ↔ fd ∈ server.main.pending
  once : server.main.pending.Nodup
  queued : ∀ fd, place fd = .queued ↔ fd ∈ server.queue
  queuedOnce : server.queue.Nodup
  worker : ∀ fd worker task, place fd = .worker worker task ↔ server.workers worker = .busy fd task
  fits : ∀ fd, (server.slots fd).Fits fd (place fd)

namespace Placed

variable {Worker : Type} {server : Server Worker} {place : Nat → Place Worker}
variable {fd : Nat} {rest : List Event}

theorem fits_update (fits : ∀ other, (server.slots other).Fits other (place other)) {slot : Slot}
    {target : Place Worker} (arrived : slot.Fits fd target) (other : Nat) :
    (Function.update server.slots fd slot other).Fits other (Function.update place fd target other) := by
  by_cases same : other = fd
  · subst same
    simpa using arrived
  · simpa [same] using fits other

theorem fits_move (fits : ∀ other, (server.slots other).Fits other (place other)) {target : Place Worker}
    (arrived : (server.slots fd).Fits fd target) (other : Nat) :
    (server.slots other).Fits other (Function.update place fd target other) := by
  simpa using fits_update fits arrived other

/-- The main loop goes on inside the method. -/
theorem mainStay (placed : Placed server place) {task after : MainTask} (inside : server.main = .inside fd task rest)
    {slot : Slot} (arrived : slot.MainFits fd after) (count : Int) :
    Placed { server with
      main := .inside fd after rest
      slots := Function.update server.slots fd slot
      userCount := count } (Function.update place fd (.main after)) := by
  obtain ⟨main, pending, once, queued, queuedOnce, worker, fits⟩ := placed
  have here := (main fd task).mpr (by simp [inside, MainStage.holds])
  refine ⟨?_, ?_, ?_, ?_, queuedOnce, ?_, fits_update fits arrived⟩
  all_goals simp only [inside, MainStage.holds, MainStage.pending] at *
  all_goals grind [Function.update_apply]

/-- The main loop is through with the connection. -/
theorem mainLeave (placed : Placed server place) {task : MainTask} (inside : server.main = .inside fd task rest)
    {slot : Slot} {target : Place Worker} (arrived : slot.Fits fd target) (count : Int)
    (free : target = .nowhere ∨ target = .armed ∨ target = .stranded) :
    Placed { server with
      main := .dispatch rest
      slots := Function.update server.slots fd slot
      userCount := count } (Function.update place fd target) := by
  obtain ⟨main, pending, once, queued, queuedOnce, worker, fits⟩ := placed
  have here := (main fd task).mpr (by simp [inside, MainStage.holds])
  refine ⟨?_, ?_, ?_, ?_, queuedOnce, ?_, fits_update fits arrived⟩
  all_goals simp only [inside, MainStage.holds, MainStage.pending] at *
  all_goals grind [Function.update_apply]

/-- The connection joins the work queue. -/
theorem enqueue (placed : Placed server place) {task : MainTask} (inside : server.main = .inside fd task rest)
    (arrived : (server.slots fd).Standing fd false) :
    Placed { server with main := .posting rest, queue := server.queue ++ [fd] } (Function.update place fd .queued) := by
  obtain ⟨main, pending, once, queued, queuedOnce, worker, fits⟩ := placed
  have here := (main fd task).mpr (by simp [inside, MainStage.holds])
  refine ⟨?_, ?_, ?_, ?_, ?_, ?_, fits_move fits arrived⟩
  all_goals simp only [inside, MainStage.holds, MainStage.pending] at *
  all_goals grind [Function.update_apply]

/-- The main loop turns to a connection. -/
theorem enter (placed : Placed server place) {event : Event} (ready : server.main = .dispatch (event :: rest))
    (about : event.fd = some fd) {task : MainTask} (arrived : (server.slots fd).MainFits fd task) :
    Placed (server.handle fd task rest) (Function.update place fd (.main task)) := by
  obtain ⟨main, pending, once, queued, queuedOnce, worker, fits⟩ := placed
  have here := (pending fd).mpr (by simp [ready, MainStage.pending, about])
  simp only [ready, MainStage.holds, MainStage.pending, List.filterMap_cons, about] at main pending once
  refine ⟨?_, ?_, ?_, ?_, queuedOnce, ?_, fits_move fits arrived⟩
  all_goals simp only [Server.handle, MainStage.holds, MainStage.pending] at *
  all_goals grind [Function.update_apply]

/-- The main loop accepts a connection on a descriptor nobody has to do with. -/
theorem accept (placed : Placed server place) (ready : server.main = .dispatch (.incoming :: rest))
    (unused : place fd = .nowhere) :
    Placed { server.handle fd .accepted rest with
      slots := Function.update server.slots fd { server.slots fd with opened := true } }
      (Function.update place fd (.main .accepted)) := by
  obtain ⟨main, pending, once, queued, queuedOnce, worker, fits⟩ := placed
  have gone : (server.slots fd).Gone := by simpa [unused, Slot.Fits] using fits fd
  have arrived : ({ server.slots fd with opened := true } : Slot).Fits fd (.main .accepted : Place Worker) :=
    ⟨rfl, gone.connected, gone.unregistered⟩
  simp only [ready, MainStage.holds, MainStage.pending, List.filterMap_cons, Event.fd] at main pending once
  refine ⟨?_, ?_, ?_, ?_, queuedOnce, ?_, fits_update fits arrived⟩
  all_goals simp only [Server.handle, MainStage.holds, MainStage.pending] at *
  all_goals grind [Function.update_apply]

/-- The main loop moves on without a connection at hand. -/
theorem mainIdle (placed : Placed server place) {stage : MainStage} (posts : Nat)
    (idle : server.main.holds = none) (still : stage.holds = none) (same : stage.pending = server.main.pending) :
    Placed { server with main := stage, posts := posts } place := by
  obtain ⟨main, pending, once, queued, queuedOnce, worker, fits⟩ := placed
  exact ⟨by simpa [still, idle] using main, by simpa [same] using pending, by simpa [same] using once,
    queued, queuedOnce, worker, fits⟩

variable [DecidableEq Worker]

/-- A worker without a connection wakes up or goes back to waiting. -/
theorem workerIdle (placed : Placed server place) {name : Worker} {stage : WorkerStage} (posts : Nat)
    (idle : ∀ fd task, server.workers name ≠ .busy fd task) (still : ∀ fd task, stage ≠ .busy fd task) :
    Placed { server with workers := Function.update server.workers name stage, posts := posts } place := by
  obtain ⟨main, pending, once, queued, queuedOnce, worker, fits⟩ := placed
  refine ⟨main, pending, once, queued, queuedOnce, ?_, fits⟩
  grind [Function.update_apply]

/-- A worker takes the first connection of the queue. -/
theorem take (placed : Placed server place) {name : Worker} {others : List Nat}
    (idle : ∀ fd task, server.workers name ≠ .busy fd task) (first : server.queue = fd :: others) :
    Placed { server with
      workers := Function.update server.workers name (.busy fd .processRead)
      queue := others } (Function.update place fd (.worker name .processRead)) := by
  obtain ⟨main, pending, once, queued, queuedOnce, worker, fits⟩ := placed
  have here := (queued fd).mpr (by simp [first])
  have arrived : (server.slots fd).Standing fd false := by simpa [here, Slot.Fits] using fits fd
  rw [first] at queued queuedOnce
  refine ⟨?_, ?_, once, ?_, ?_, ?_, fits_move fits arrived⟩
  all_goals grind [Function.update_apply]

/-- The worker goes on with `process`. -/
theorem workerStay (placed : Placed server place) {name : Worker} {task after : WorkerTask}
    (busy : server.workers name = .busy fd task) {slot : Slot} (arrived : slot.WorkerFits fd after) (count : Int) :
    Placed { server with
      workers := Function.update server.workers name (.busy fd after)
      slots := Function.update server.slots fd slot
      userCount := count } (Function.update place fd (.worker name after)) := by
  obtain ⟨main, pending, once, queued, queuedOnce, worker, fits⟩ := placed
  have here := (worker fd name task).mpr busy
  refine ⟨?_, ?_, once, ?_, queuedOnce, ?_, fits_update fits arrived⟩
  all_goals grind [Function.update_apply]

/-- The worker is through with the connection. -/
theorem workerLeave (placed : Placed server place) {name : Worker} {task : WorkerTask}
    (busy : server.workers name = .busy fd task) {slot : Slot} {target : Place Worker} (arrived : slot.Fits fd target)
    (count : Int) (free : target = .nowhere ∨ target = .armed) :
    Placed { server with
      workers := Function.update server.workers name .waiting
      slots := Function.update server.slots fd slot
      userCount := count } (Function.update place fd target) := by
  obtain ⟨main, pending, once, queued, queuedOnce, worker, fits⟩ := placed
  have here := (worker fd name task).mpr busy
  refine ⟨?_, ?_, once, ?_, queuedOnce, ?_, fits_update fits arrived⟩
  all_goals grind [Function.update_apply]

end Placed

end UnixProgramming.Pool

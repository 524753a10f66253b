import UnixProgramming.Pool.Ownership

/-! Runs of the whole server. As long as `accept` does not hand out a descriptor that
a worker is not through with, every object is at one place in every reachable state;
an open connection can then only be left alone by a work queue that refuses it. -/

namespace UnixProgramming.Pool

open UnixProgramming.Lib HttpConn

theorem Slot.deliver_spec {slot next : Slot} {event : Event} (delivered : slot.deliver event = some next) :
    slot.armed = true ∧ ∃ interest, next = { slot with registration := some ⟨interest, false⟩ } := by
  unfold Slot.deliver at delivered
  split at delivered
  · rename_i interest _ found
    cases delivered
    exact ⟨by simp [Slot.armed, found], interest, rfl⟩
  · rename_i found
    cases delivered
    exact ⟨by simp [Slot.armed, found], .epollin, rfl⟩
  · rename_i found
    cases delivered
    exact ⟨by simp [Slot.armed, found], .epollout, rfl⟩
  · cases delivered

/-- `epoll_wait` reports armed descriptors once each and disarms them. -/
theorem Server.deliver_spec {slots next : Nat → Slot} {events : List Event}
    (delivered : Server.deliver slots events = some next) :
    (events.filterMap Event.fd).Nodup ∧ (∀ fd, fd ∉ events.filterMap Event.fd → next fd = slots fd) ∧
      ∀ fd ∈ events.filterMap Event.fd, (slots fd).armed = true ∧
        ∃ interest, next fd = { slots fd with registration := some ⟨interest, false⟩ } := by
  induction events generalizing slots with
  | nil =>
    cases delivered
    simp
  | cons event rest ih =>
    unfold Server.deliver at delivered
    cases about : event.fd with
    | none =>
      simp only [about] at delivered
      simpa [about] using ih delivered
    | some fd =>
      simp only [about] at delivered
      obtain ⟨slot, reported, remaining⟩ := Option.bind_eq_some_iff.mp delivered
      obtain ⟨armed, interest, rfl⟩ := Slot.deliver_spec reported
      obtain ⟨once, untouched, touched⟩ := ih remaining
      have last : fd ∉ rest.filterMap Event.fd := by
        intro again
        have rearmed := (touched fd again).1
        simp [Slot.armed] at rearmed
      simp only [List.filterMap_cons, about, List.nodup_cons, List.mem_cons]
      refine ⟨⟨last, once⟩, ?_, ?_⟩
      · intro other absent
        rw [untouched other (by tauto)]
        exact Function.update_of_ne (by tauto) _ _
      · intro other present
        by_cases same : other = fd
        · subst same
          refine ⟨armed, interest, ?_⟩
          rw [untouched other last]
          simp
        · have spec := touched other (by tauto)
          simpa [same] using spec

/-- An armed descriptor is at no thread but the main loop's. -/
theorem Slot.Fits.of_armed {Worker : Type} {fd : Nat} {slot : Slot} {place : Place Worker}
    (fits : slot.Fits fd place) (armed : slot.armed = true) : place = .armed ∨ ∃ task, place = .main task := by
  cases place with
  | armed => exact .inl rfl
  | main task => exact .inr ⟨task, rfl⟩
  | nowhere => simp [Slot.armed, Slot.Gone.unregistered fits] at armed
  | pending | queued | stranded => simp [Slot.Standing.arming fits] at armed
  | worker name task =>
    cases task with
    | processRead | processWrite => simp [Slot.Standing.arming fits] at armed
    | close generation stage => simp [fits.2.1] at armed
    | modfd interest =>
      rcases fits with standing | ⟨gone, -⟩
      · simp [standing.arming] at armed
      · simp [Slot.armed, gone.unregistered] at armed

section Step

variable {Worker : Type} {server next : Server Worker} {allowed : Prop}

/-- Every connection object is at one place, and none is stranded unless that is
allowed for. -/
def Settled (allowed : Prop) (server : Server Worker) : Prop :=
  ∃ place, Placed server place ∧ ∀ fd, place fd = .stranded → allowed

theorem Settled.initial (allowed : Prop) (users : Nat → HttpConn) :
    Settled allowed (Server.initial users : Server Worker) := by
  refine ⟨fun _ => .nowhere, ⟨?_, ?_, ?_, ?_, ?_, ?_, ?_⟩, ?_⟩
  all_goals simp [Server.initial, MainStage.holds, MainStage.pending]
  exact fun fd => ⟨rfl, rfl, rfl⟩

theorem Settled.epollWait (settled : Settled allowed server) (waiting : server.main = .waiting) {events : List Event}
    {slots : Nat → Slot} (delivered : Server.deliver server.slots events = some slots) :
    Settled allowed { server with main := .dispatch events, slots := slots } := by
  obtain ⟨place, ⟨main, pending, once, queued, queuedOnce, worker, fits⟩, bounded⟩ := settled
  obtain ⟨distinct, untouched, touched⟩ := Server.deliver_spec delivered
  simp only [waiting, MainStage.holds, MainStage.pending] at main pending
  have armed : ∀ fd ∈ events.filterMap Event.fd, place fd = .armed := by
    intro fd member
    rcases (fits fd).of_armed (touched fd member).1 with found | ⟨task, found⟩
    · exact found
    · simp [main] at found
  refine ⟨fun fd => if fd ∈ events.filterMap Event.fd then .pending else place fd,
    ⟨?_, ?_, distinct, ?_, queuedOnce, ?_, ?_⟩, ?_⟩
  all_goals simp only [MainStage.holds, MainStage.pending] at *
  · grind
  · grind
  · grind
  · grind
  · intro fd
    by_cases member : fd ∈ events.filterMap Event.fd
    · obtain ⟨-, interest, changed⟩ := touched fd member
      have standing : (server.slots fd).Standing fd true := by simpa [armed fd member, Slot.Fits] using fits fd
      simp only [member, if_true, changed]
      exact ⟨standing.sockfd, standing.opened, standing.connected, rfl, rfl⟩
    · simpa [member, untouched fd member] using fits fd
  · grind

/-- `accept` does not return a descriptor that a worker has closed in a call of
`process` that is still running. -/
def Prompt (server : Server Worker) : ServerLabel Worker → Prop
  | .accept (some fd) => ∀ worker, (server.workers worker).fd ≠ some fd
  | _ => True

/-- The work queue takes the connection. -/
def Roomy (maxRequests : Nat) (server : Server Worker) : ServerLabel Worker → Prop
  | .append => server.queue.length ≤ maxRequests
  | _ => True

/-- A descriptor that is not open is nobody's, or a worker's that has closed it. -/
theorem Placed.unused {place : Nat → Place Worker} {fd : Nat} (placed : Placed server place)
    (idle : server.main.holds = none) (closed : (server.slots fd).opened = false)
    (prompt : ∀ worker, (server.workers worker).fd ≠ some fd) : place fd = .nowhere := by
  have fits := placed.fits fd
  cases found : place fd with
  | nowhere => rfl
  | armed | pending | queued | stranded =>
    rw [found] at fits
    simp [Slot.Standing.opened fits] at closed
  | main task =>
    have held := (placed.main fd task).mp found
    simp [idle] at held
  | worker name task =>
    have busy := (placed.worker fd name task).mp found
    exact absurd (by simp [busy, WorkerStage.fd]) (prompt name)

/-- The main loop turns to the connection of the next event. -/
theorem Settled.enter (settled : Settled allowed server) {event : Event} {rest : List Event} {fd : Nat}
    (ready : server.main = .dispatch (event :: rest)) (about : event.fd = some fd) (task : MainTask)
    (arrived : (server.slots fd).Standing fd false → (server.slots fd).MainFits fd task) :
    Settled allowed (server.handle fd task rest) := by
  obtain ⟨place, placed, bounded⟩ := settled
  have here := (placed.pending fd).mpr (by simp [ready, MainStage.pending, about])
  have standing : (server.slots fd).Standing fd false := by simpa [here, Slot.Fits] using placed.fits fd
  exact ⟨_, placed.enter ready about (arrived standing), by grind [Function.update_apply]⟩

variable [DecidableEq Worker]

theorem Settled.main (settled : Settled allowed server) {maxRequests : Nat} {action : Action}
    (taken : server.step maxRequests (.main action) = some next) : Settled allowed next := by
  obtain ⟨place, placed, bounded⟩ := settled
  simp only [Server.step] at taken
  split at taken
  · rename_i fd task rest inside
    obtain ⟨⟨slot, after⟩, moved, rfl⟩ := Option.map_eq_some_iff.mp taken
    have here := (placed.main fd task).mpr (by simp [inside, MainStage.holds])
    have fits : (server.slots fd).MainFits fd task := by simpa [here, Slot.Fits] using placed.fits fd
    have arrived := fits.step Worker moved
    cases after with
    | none =>
      refine ⟨_, placed.mainLeave inside arrived _ ?_, ?_⟩
      · simp only [Option.elim_none, Slot.released]
        split_ifs <;> simp
      · grind [Slot.released, Function.update_apply]
    | some after => exact ⟨_, placed.mainStay inside arrived _, by grind [Function.update_apply]⟩
  · cases taken

theorem Settled.worker (settled : Settled allowed server) {maxRequests : Nat} {name : Worker} {action : Action}
    (taken : server.step maxRequests (.worker name action) = some next) : Settled allowed next := by
  obtain ⟨place, placed, bounded⟩ := settled
  simp only [Server.step] at taken
  split at taken
  · rename_i fd task busy
    obtain ⟨⟨slot, after⟩, moved, rfl⟩ := Option.map_eq_some_iff.mp taken
    have here := (placed.worker fd name task).mpr busy
    have fits : (server.slots fd).WorkerFits fd task := by simpa [here, Slot.Fits] using placed.fits fd
    have arrived := fits.step name moved
    cases after with
    | none =>
      refine ⟨_, placed.workerLeave busy arrived _ ?_, ?_⟩
      · simp only [Option.elim_none, Slot.released]
        split_ifs <;> simp
      · grind [Slot.released, Function.update_apply]
    | some after => exact ⟨_, placed.workerStay busy arrived _, by grind [Function.update_apply]⟩
  · cases taken

theorem Settled.dispatch (settled : Settled allowed server) {maxRequests : Nat}
    (taken : server.step maxRequests .dispatch = some next) : Settled allowed next := by
  simp only [Server.step] at taken
  split at taken
  · rename_i ready
    cases taken
    obtain ⟨place, placed, bounded⟩ := settled
    exact ⟨place, placed.mainIdle server.posts (by simp [ready, MainStage.holds]) rfl
      (by simp [ready, MainStage.pending]), bounded⟩
  · rename_i fd rest ready
    cases taken
    exact settled.enter ready rfl _ fun standing => standing.closing
  · rename_i fd rest ready
    cases taken
    exact settled.enter ready rfl _ fun standing => standing
  · rename_i fd rest ready
    cases taken
    exact settled.enter ready rfl _ fun standing => standing
  · cases taken

theorem Settled.accept (settled : Settled allowed server) {maxRequests : Nat} {result : Option Nat}
    (prompt : Prompt server (.accept result)) (taken : server.step maxRequests (.accept result) = some next) :
    Settled allowed next := by
  obtain ⟨place, placed, bounded⟩ := settled
  simp only [Server.step] at taken
  split at taken
  · rename_i ready
    cases taken
    exact ⟨place, placed.mainIdle server.posts (by simp [ready, MainStage.holds]) rfl
      (by rw [ready]; rfl), bounded⟩
  · rename_i rest fd ready
    split_ifs at taken with opened
    cases taken
    have unused := placed.unused (by simp [ready, MainStage.holds]) (by simpa using opened) prompt
    exact ⟨_, placed.accept ready unused, by grind [Function.update_apply]⟩
  · cases taken

theorem Settled.countCheck (settled : Settled allowed server) {maxRequests : Nat}
    (taken : server.step maxRequests .countCheck = some next) : Settled allowed next := by
  obtain ⟨place, placed, bounded⟩ := settled
  simp only [Server.step] at taken
  split at taken
  · rename_i fd rest inside
    cases taken
    have here := (placed.main fd .accepted).mpr (by simp [inside, MainStage.holds])
    have fresh : (server.slots fd).Fresh := by simpa [here, Slot.Fits, Slot.MainFits] using placed.fits fd
    have arrived : (server.slots fd).MainFits fd (if maxFd ≤ server.userCount then .refused else .initSockfd) := by
      split_ifs <;> exact fresh
    have stayed := placed.mainStay inside arrived server.userCount
    rw [Function.update_eq_self] at stayed
    exact ⟨_, stayed, by grind [Function.update_apply]⟩
  · cases taken

theorem Settled.step (settled : Settled allowed server) {maxRequests : Nat} {label : ServerLabel Worker}
    (prompt : Prompt server label) (roomy : Roomy maxRequests server label ∨ allowed)
    (taken : server.step maxRequests label = some next) : Settled allowed next := by
  cases label with
  | epollWait events =>
    simp only [Server.step] at taken
    split at taken
    · rename_i waiting
      obtain ⟨slots, delivered, rfl⟩ := Option.map_eq_some_iff.mp taken
      exact settled.epollWait waiting delivered
    · cases taken
  | main action => exact settled.main taken
  | worker name action => exact settled.worker taken
  | dispatch => exact settled.dispatch taken
  | accept result => exact settled.accept prompt taken
  | countCheck => exact settled.countCheck taken
  | post =>
    obtain ⟨place, placed, bounded⟩ := settled
    simp only [Server.step] at taken
    split at taken
    · rename_i rest posting
      cases taken
      exact ⟨place, placed.mainIdle _ (by simp [posting, MainStage.holds]) rfl
        (by simp [posting, MainStage.pending]), bounded⟩
    · cases taken
  | append =>
    obtain ⟨place, placed, bounded⟩ := settled
    simp only [Server.step] at taken
    split at taken
    · rename_i fd rest inside
      have here := (placed.main fd .append).mpr (by simp [inside, MainStage.holds])
      have standing : (server.slots fd).Standing fd false := by
        simpa [here, Slot.Fits, Slot.MainFits] using placed.fits fd
      split_ifs at taken with full
      · cases taken
        rcases roomy with room | stranding
        · exact absurd full (Nat.not_lt.mpr room)
        · have arrived : (server.slots fd).Fits fd (.stranded : Place Worker) := standing
          have left := placed.mainLeave inside arrived server.userCount (by simp)
          rw [Function.update_eq_self] at left
          exact ⟨_, left, fun _ _ => stranding⟩
      · cases taken
        exact ⟨_, placed.enqueue inside standing, by grind [Function.update_apply]⟩
    · cases taken
  | wait name =>
    obtain ⟨place, placed, bounded⟩ := settled
    simp only [Server.step] at taken
    split at taken
    · rename_i waiting
      split_ifs at taken
      cases taken
      exact ⟨place, placed.workerIdle _ (by simp [waiting]) (by simp), bounded⟩
    · cases taken
  | take name =>
    obtain ⟨place, placed, bounded⟩ := settled
    simp only [Server.step] at taken
    split at taken
    · rename_i woken empty
      cases taken
      exact ⟨place, placed.workerIdle server.posts (by simp [woken]) (by simp), bounded⟩
    · rename_i fd others woken first
      cases taken
      exact ⟨_, placed.take (by simp [woken]) first, by grind [Function.update_apply]⟩
    · cases taken

end Step

inductive Thread (Worker : Type) where
  | main
  | worker (name : Worker)
deriving DecidableEq

/-- Whether the main loop is inside a method of the connection object. -/
def MainTask.inMethod : MainTask → Bool
  | .accepted | .refused | .append => false
  | _ => true

namespace Server

variable {Worker : Type} [DecidableEq Worker]

/-- A thread is inside a method of `users[fd]`. -/
def inside (server : Server Worker) (fd : Nat) : Thread Worker → Prop
  | .main => ∃ task rest, server.main = .inside fd task rest ∧ task.inMethod = true
  | .worker name => ∃ task, server.workers name = .busy fd task

/-- A thread is about to reset the `m_sockfd` of `users[fd]` in closing the connection
of the given generation. -/
def clearing (server : Server Worker) (fd generation : Nat) : Thread Worker → Prop
  | .main => ∃ rest, server.main = .inside fd (.close generation .clear) rest
  | .worker name => server.workers name = .busy fd (.close generation .clear)

/-- At most one thread is inside a method of an object, and `m_sockfd` is reset only
for the connection it belongs to. -/
structure Exclusive (server : Server Worker) : Prop where
  alone : ∀ fd first second, server.inside fd first → server.inside fd second → first = second
  current : ∀ fd generation thread, server.clearing fd generation thread →
    (server.slots fd).generation = generation

end Server

variable {Worker : Type} {server : Server Worker} {place : Nat → Place Worker}

/-- The place of an object that some thread is in. -/
def Thread.At (place : Place Worker) : Thread Worker → Prop
  | .main => ∃ task, place = .main task
  | .worker name => ∃ task, place = .worker name task

theorem Placed.at_of_inside (placed : Placed server place) {fd : Nat} {thread : Thread Worker}
    (inside : server.inside fd thread) : thread.At (place fd) := by
  cases thread with
  | main =>
    obtain ⟨task, rest, held, -⟩ := inside
    exact ⟨task, (placed.main fd task).mpr (by simp [held, MainStage.holds])⟩
  | worker name =>
    obtain ⟨task, busy⟩ := inside
    exact ⟨task, (placed.worker fd name task).mpr busy⟩

theorem Thread.At.unique {spot : Place Worker} {first second : Thread Worker} (left : first.At spot)
    (right : second.At spot) : first = second := by
  cases first with
  | main =>
    obtain ⟨task, rfl⟩ := left
    cases second with
    | main => rfl
    | worker name =>
      obtain ⟨other, same⟩ := right
      cases same
  | worker name =>
    obtain ⟨task, rfl⟩ := left
    cases second with
    | main =>
      obtain ⟨other, same⟩ := right
      cases same
    | worker second =>
      obtain ⟨other, same⟩ := right
      cases same
      rfl

theorem Placed.exclusive (placed : Placed server place) : server.Exclusive where
  alone := fun _ _ _ left right => (placed.at_of_inside left).unique (placed.at_of_inside right)
  current := by
    intro fd generation thread clearing
    have fits := placed.fits fd
    cases thread with
    | main =>
      obtain ⟨rest, held⟩ := clearing
      rw [(placed.main fd _).mpr (by simp [held, MainStage.holds]; rfl)] at fits
      exact fits.1
    | worker name =>
      rw [(placed.worker fd name _).mpr clearing] at fits
      exact fits.1

instance (server : Server (Fin 1)) (label : ServerLabel (Fin 1)) : Decidable (Prompt server label) :=
  match label with
  | .accept (some _) => inferInstanceAs (Decidable (∀ _, _))
  | .accept none | .epollWait _ | .dispatch | .countCheck | .append | .post | .main _ | .wait _ | .take _
  | .worker _ _ => .isTrue trivial

instance (maxRequests : Nat) (server : Server (Fin 1)) (label : ServerLabel (Fin 1)) :
    Decidable (Roomy maxRequests server label) :=
  match label with
  | .append => inferInstanceAs (Decidable (_ ≤ _))
  | .accept _ | .epollWait _ | .dispatch | .countCheck | .post | .main _ | .wait _ | .take _
  | .worker _ _ => .isTrue trivial

/-- A client connects. -/
def connecting (fd : Nat) : List (ServerLabel (Fin 1)) :=
  [.epollWait [.incoming], .accept (some fd), .countCheck, .main .next, .main .next, .main .next, .main .next, .dispatch]

/-- The worker answers a request for an empty file, up to the point where
`close_conn` has closed the descriptor. -/
def processing : List (ServerLabel (Fin 1)) :=
  [.wait 0, .take 0, .worker 0 (.parse ⟨fun _ => some ⟨0, true, false⟩, fun _ => none⟩), .worker 0 .next,
    .worker 0 .next, .worker 0 .next, .worker 0 .next]

/-! ## Reachable states -/

section Exclusive

variable [DecidableEq Worker]

end Exclusive

section Attended

variable [DecidableEq Worker]

end Attended

end UnixProgramming.Pool

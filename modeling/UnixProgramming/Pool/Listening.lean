import UnixProgramming.Lib.EventLoop
import UnixProgramming.Pool.Server

/-! The accept queue of the thread-pool web server. The listening socket is registered with
`EPOLLET`, and the main loop accepts once for each event. -/

namespace UnixProgramming.Pool

open UnixProgramming.Lib

/-- The server with its listening socket. -/
structure Listening (Worker : Type) where
  server : Server Worker
  /-- The clients in the accept queue. -/
  backlog : Nat
  /-- An edge of the listening socket is not fetched. -/
  edge : Bool

inductive ListeningLabel (Worker : Type) where
  | arrive
  | server (label : ServerLabel Worker)

/-- The events on the listening socket still to be handled. -/
def MainStage.incoming : MainStage → Nat
  | .waiting => 0
  | .dispatch events => events.count .incoming
  | .inside _ _ rest => rest.count .incoming
  | .posting rest => rest.count .incoming

namespace Listening
variable {Worker : Type} [DecidableEq Worker]

def initial (users : Nat → HttpConn) : Listening Worker := ⟨Server.initial users, 0, false⟩

def step (maxRequests : Nat) (listening : Listening Worker) : ListeningLabel Worker → Option (Listening Worker)
  | .arrive => some { listening with backlog := listening.backlog + 1, edge := true }
  | .server (.epollWait events) =>
    if events.count .incoming ≤ listening.edge.toNat then
      (listening.server.step maxRequests (.epollWait events)).map fun server =>
        { listening with server := server, edge := fetched listening.edge (events.contains .incoming) }
    else none
  | .server (.accept (some fd)) =>
    match listening.backlog with
    | 0 => none
    | clients + 1 =>
      (listening.server.step maxRequests (.accept (some fd))).map fun server =>
        { listening with server := server, backlog := clients }
  | .server label =>
    (listening.server.step maxRequests label).map fun server => { listening with server := server }

end Listening

variable {Worker : Type} [DecidableEq Worker] {maxRequests : Nat}

theorem Server.step_incoming {server next : Server Worker} {label : ServerLabel Worker}
    (taken : server.step maxRequests label = some next) (fetches : ∀ events, label ≠ .epollWait events)
    (accepts : ∀ result, label ≠ .accept result) : next.main.incoming = server.main.incoming := by
  cases label with
  | epollWait events => exact absurd rfl (fetches events)
  | accept result => exact absurd rfl (accepts result)
  | dispatch =>
    dsimp only [step] at taken
    split at taken
    · next stage => cases taken; simp [stage, MainStage.incoming]
    · next stage => cases taken; simp [stage, handle, MainStage.incoming]
    · next stage => cases taken; simp [stage, handle, MainStage.incoming]
    · next stage => cases taken; simp [stage, handle, MainStage.incoming]
    · cases taken
  | countCheck =>
    dsimp only [step] at taken
    split at taken
    · next stage => cases taken; simp [stage, handle, MainStage.incoming]
    · cases taken
  | append =>
    dsimp only [step] at taken
    split at taken
    · next stage =>
      split_ifs at taken
      · cases taken; simp [stage, MainStage.incoming]
      · cases taken; simp [stage, MainStage.incoming]
    · cases taken
  | post =>
    dsimp only [step] at taken
    split at taken
    · next stage => cases taken; simp [stage, MainStage.incoming]
    · cases taken
  | main action =>
    dsimp only [step] at taken
    split at taken
    · next stage =>
      obtain ⟨⟨slot, after⟩, -, rfl⟩ := Option.map_eq_some_iff.mp taken
      cases after <;> simp [stage, MainStage.incoming]
    · cases taken
  | wait worker =>
    dsimp only [step] at taken
    split at taken
    · split_ifs at taken
      cases taken
      rfl
    · cases taken
  | take worker =>
    dsimp only [step] at taken
    split at taken
    · cases taken; rfl
    · cases taken; rfl
    · cases taken
  | worker worker action =>
    dsimp only [step] at taken
    split at taken
    · obtain ⟨⟨slot, after⟩, -, rfl⟩ := Option.map_eq_some_iff.mp taken
      rfl
    · cases taken

namespace Listening
variable {listening next : Listening Worker}

/-- `accept` does not fail. -/
def Faultless (_ : Listening Worker) : ListeningLabel Worker → Prop
  | .server (.accept none) => False
  | _ => True

/-- No two clients arrive on one edge. -/
def Unshared (listening : Listening Worker) : ListeningLabel Worker → Prop
  | .arrive => listening.edge = false
  | .server _ => True

/-- Every client in the accept queue has an edge or an event to come. -/
def Balanced (listening : Listening Worker) : Prop :=
  listening.backlog = listening.edge.toNat + listening.server.main.incoming

omit [DecidableEq Worker] in
theorem Balanced.initial (users : Nat → HttpConn) : (initial users : Listening Worker).Balanced := rfl

theorem Balanced.epollWait (balanced : listening.Balanced) {events : List Event}
    (taken : listening.step maxRequests (.server (.epollWait events)) = some next) : next.Balanced := by
  unfold Balanced at balanced ⊢
  dsimp only [step] at taken
  split_ifs at taken with single
  obtain ⟨server, moved, rfl⟩ := Option.map_eq_some_iff.mp taken
  have event := fetched_toNat single
  dsimp only [Server.step] at moved
  split at moved
  · next waiting =>
    obtain ⟨slots, -, rfl⟩ := Option.map_eq_some_iff.mp moved
    simp only [waiting, MainStage.incoming] at balanced ⊢
    omega
  · cases moved

theorem Balanced.accept (balanced : listening.Balanced) {fd : Nat}
    (taken : listening.step maxRequests (.server (.accept (some fd))) = some next) : next.Balanced := by
  unfold Balanced at balanced ⊢
  dsimp only [step] at taken
  split at taken
  · cases taken
  next clients waiting =>
  obtain ⟨server, moved, rfl⟩ := Option.map_eq_some_iff.mp taken
  dsimp only [Server.step] at moved
  split at moved
  · next other => cases other
  · next stage same =>
    cases same
    split_ifs at moved
    cases moved
    simp only [stage, Server.handle, MainStage.incoming, List.count_cons_self] at balanced ⊢
    omega
  · cases moved

theorem Balanced.step (balanced : listening.Balanced) {label : ListeningLabel Worker}
    (faultless : listening.Faultless label) (unshared : listening.Unshared label)
    (taken : listening.step maxRequests label = some next) : next.Balanced := by
  cases label with
  | arrive =>
    cases taken
    unfold Balanced at balanced ⊢
    rw [show listening.edge = false from unshared, Bool.toNat_false] at balanced
    simp only [Bool.toNat_true]
    omega
  | server label =>
    cases label with
    | epollWait events => exact balanced.epollWait taken
    | accept result =>
      cases result with
      | none => exact absurd faultless id
      | some fd => exact balanced.accept taken
    | _ =>
      obtain ⟨server, moved, rfl⟩ := Option.map_eq_some_iff.mp taken
      unfold Balanced at balanced ⊢
      rw [balanced, Server.step_incoming moved (by simp) (by simp)]

/-- No client is forgotten where every arrival has an edge of its own: in every such run,
whenever the main loop is blocked in `epoll_wait` and no event of the listening socket is
pending, the accept queue is empty. -/
theorem backlog_drained (users : Nat → HttpConn) (labels : List (ListeningLabel Worker))
    (held : Meets (step maxRequests) (fun listening label => listening.Faultless label ∧ listening.Unshared label)
      (initial users) labels)
    (reached : run (step maxRequests) (initial users) labels = some listening)
    (waiting : listening.server.main = .waiting) (quiet : listening.edge = false) : listening.backlog = 0 := by
  have balanced : listening.Balanced := run_invariant_of_meets
    (fun _ _ _ kept guard taken => kept.step guard.1 guard.2 taken) (.initial users) held reached
  rw [balanced, waiting, quiet]
  rfl

instance (listening : Listening Worker) : (label : ListeningLabel Worker) → Decidable (listening.Faultless label)
  | .server (.accept none) => .isFalse id
  | .server (.accept (some _)) | .arrive | .server (.epollWait _) | .server .dispatch | .server .countCheck
  | .server .append | .server .post | .server (.main _) | .server (.wait _) | .server (.take _)
  | .server (.worker _ _) => .isTrue trivial

instance (listening : Listening Worker) : (label : ListeningLabel Worker) → Decidable (listening.Unshared label)
  | .arrive => inferInstanceAs (Decidable (_ = false))
  | .server _ => .isTrue trivial

/-- The main loop accepts a client and initialises its object. -/
def accepting (fd : Nat) : List (ListeningLabel (Fin 1)) :=
  [.server (.accept (some fd)), .server .countCheck, .server (.main .next), .server (.main .next),
    .server (.main .next), .server (.main .next)]

/-- The second client comes while the event of the first is handled. -/
theorem backlog_drained_one_by_one :
    ∃ listening : Listening (Fin 1), run (step 1) (initial fun _ => HttpConn.zeroed)
      ([.arrive, .server (.epollWait [.incoming]), .arrive] ++ accepting 5 ++
        [.server .dispatch, .server (.epollWait [.incoming])] ++ accepting 6 ++ [.server .dispatch]) = some listening ∧
      (listening.server.slots 5).connected = true ∧ (listening.server.slots 6).connected = true ∧
      listening.backlog = 0 := by
  have computed :
    (run (step 1) (initial fun _ => HttpConn.zeroed)
      ([.arrive, .server (.epollWait [.incoming]), .arrive] ++ accepting 5 ++
        [.server .dispatch, .server (.epollWait [.incoming])] ++ accepting 6 ++ [.server .dispatch])).map
      (fun listening => (listening.server.main, listening.edge, (listening.server.slots 5).connected,
        (listening.server.slots 6).connected)) = some (.waiting, false, true, true) := by decide +kernel
  obtain ⟨listening, reached, same⟩ := Option.map_eq_some_iff.mp computed
  simp only [Prod.mk.injEq] at same
  obtain ⟨waiting, quiet, first, second⟩ := same
  exact ⟨listening, reached, first, second,
    backlog_drained (fun _ => HttpConn.zeroed) _ (by decide +kernel) reached waiting quiet⟩

/-- Two clients who come before the event is fetched: one of them stays in the queue. -/
theorem backlog_not_drained :
    ¬ ∀ (labels : List (ListeningLabel (Fin 1))) (listening : Listening (Fin 1)),
      Meets (step 1) Faultless (initial fun _ => HttpConn.zeroed) labels →
      run (step 1) (initial fun _ => HttpConn.zeroed) labels = some listening →
      listening.server.main = .waiting → listening.edge = false → listening.backlog = 0 := by
  intro drained
  have computed :
    (run (step 1) (initial fun _ => HttpConn.zeroed)
      ([.arrive, .arrive, .server (.epollWait [.incoming])] ++ accepting 5 ++ [.server .dispatch])).map
      (fun listening => (listening.server.main, listening.edge, listening.backlog)) =
      some (.waiting, false, 1) := by decide +kernel
  obtain ⟨listening, reached, same⟩ := Option.map_eq_some_iff.mp computed
  simp only [Prod.mk.injEq] at same
  obtain ⟨waiting, quiet, left⟩ := same
  have none := drained _ listening (by decide +kernel) reached waiting quiet
  omega

end Listening
end UnixProgramming.Pool

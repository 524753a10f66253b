import Mathlib.Logic.Function.Basic
import UnixProgramming.Lib.EventLoop
import UnixProgramming.Lib.Run
import UnixProgramming.Lib.Socket

/-! The server of `io_epoll2.c`: a thread for each event of a client, `EPOLLONESHOT` to
keep a second one away, and an argument that every thread finds at the same place. -/

namespace UnixProgramming.IoMultiplexing

open UnixProgramming.Lib

/-- A thread that runs `worker`. -/
inductive Worker where
  /-- It has not read its argument yet. -/
  | starting
  | reading (sockfd : Nat)
  /-- `recv` has failed with `EAGAIN`. -/
  | resetting (sockfd : Nat)
  | finished
deriving DecidableEq, Repr

/-- The descriptor a thread uses. -/
def Worker.sockfd : Worker → Option Nat
  | reading sockfd => some sockfd
  | resetting sockfd => some sockfd
  | _ => none

inductive OneshotSource where
  | listen
  | client (fd : Nat)
deriving DecidableEq, Repr

/-- `pending` is the rest of `events`, `slot` is `fds_for_new_worker.sockfd`, which has the
same address in every round; `armed` says whether the event of a client may still be
reported. -/
structure OneshotServer where
  pending : List OneshotSource
  slot : Nat
  workers : List Worker
  files : Nat → Option Nat
  sockets : Nat → Socket
  armed : Nat → Bool
  received : Nat → List UInt8
  accepted : List Nat

inductive OneshotLabel where
  | send (client : Nat) (bytes : List UInt8)
  | close (client : Nat)
  /-- `epoll_wait` returns. -/
  | fetch (events : List OneshotSource)
  | accept (result : Option (Nat × Nat))
  /-- The assignments to `fds_for_new_worker`, and `pthread_create`. -/
  | spawn (created : Bool)
  | begin (index : Nat)
  | recv (index count : Nat) (fails : Bool)
  | reset (index : Nat)
deriving DecidableEq, Repr

namespace OneshotServer

def bufferSize : Nat := 1024

def start : OneshotServer where
  pending := []
  slot := 0
  workers := []
  files := fun _ => none
  sockets := fun _ => .fresh
  armed := fun _ => false
  received := fun _ => []
  accepted := []

/-- A client is reported for an edge, unless its event is used up. -/
def Fetchable (server : OneshotServer) : OneshotSource → Prop
  | .listen => True
  | .client fd => ∃ client ∈ server.files fd, server.armed client = true ∧ (server.sockets client).edge = true

instance (server : OneshotServer) : (event : OneshotSource) → Decidable (server.Fetchable event)
  | .listen => .isTrue trivial
  | .client fd =>
    match files : server.files fd with
    | none => .isFalse (by simp [Fetchable, files])
    | some client =>
      decidable_of_iff (server.armed client = true ∧ (server.sockets client).edge = true) (by simp [Fetchable, files])

def reported (server : OneshotServer) (events : List OneshotSource) (client : Nat) : Bool :=
  events.any fun
    | .client fd => server.files fd == some client
    | .listen => false

def setWorker (server : OneshotServer) (index : Nat) (worker : Worker) : OneshotServer :=
  { server with workers := server.workers.set index worker }

def setSocket (server : OneshotServer) (client : Nat) (socket : Socket) : OneshotServer :=
  { server with sockets := Function.update server.sockets client socket }

/-- One `recv` of the loop of `worker`, where `found` is what it returns. -/
def worked (server : OneshotServer) (index sockfd client : Nat) : Option (List UInt8) → OneshotServer
  | none => server.setWorker index (.resetting sockfd)
  | some [] => { server.setWorker index .finished with files := Function.update server.files sockfd none }
  | some bytes =>
    { server.setSocket client ((server.sockets client).take bytes.length) with
      received := Function.update server.received client (server.received client ++ bytes) }

def step (server : OneshotServer) : OneshotLabel → Option OneshotServer
  | .send client bytes =>
    if (server.sockets client).ended then none
    else some (server.setSocket client ((server.sockets client).send bytes))
  | .close client =>
    if (server.sockets client).ended then none
    else some (server.setSocket client (server.sockets client).close)
  | .fetch events =>
    if server.pending = [] ∧ events.Nodup ∧ ∀ event ∈ events, server.Fetchable event then
      some { server with
        pending := events
        sockets := fun client => { server.sockets client with
          edge := fetched (server.sockets client).edge (server.reported events client) }
        armed := fun client => server.armed client && !server.reported events client }
    else none
  | .accept result =>
    match server.pending with
    | .listen :: pending =>
      match result with
      -- `addfd` of -1 fails
      | none => some { server with pending := pending }
      | some (connfd, client) =>
        if server.files connfd = none ∧ client ∉ server.accepted then
          some { server.setSocket client (server.sockets client).watch with
            pending := pending
            files := Function.update server.files connfd (some client)
            armed := Function.update server.armed client true
            accepted := client :: server.accepted }
        else none
    | _ => none
  | .spawn created =>
    match server.pending with
    | .client sockfd :: pending =>
      some { server with
        pending := pending
        slot := sockfd
        workers := if created then server.workers ++ [.starting] else server.workers }
    | _ => none
  | .begin index =>
    match server.workers[index]? with
    | some .starting => some (server.setWorker index (.reading server.slot))
    | _ => none
  | .recv index count fails =>
    match server.workers[index]? with
    | some (.reading sockfd) =>
      match server.files sockfd with
      -- after any error but `EAGAIN` the loop goes on
      | none => some server
      | some client =>
        if fails then some server
        else some (server.worked index sockfd client
          ((server.sockets client).recv (min (max 1 count) (bufferSize - 1))))
    | _ => none
  | .reset index =>
    match server.workers[index]? with
    | some (.resetting sockfd) =>
      match server.files sockfd with
      | none => some (server.setWorker index .finished)
      | some client =>
        some { (server.setWorker index .finished).setSocket client (server.sockets client).watch with
          armed := Function.update server.armed client true }
    | _ => none

/-- A thread is created, and the one created before has read its argument. -/
def Prompt (server : OneshotServer) : OneshotLabel → Prop
  | .spawn created => created = true ∧ .starting ∉ server.workers
  | _ => True

instance (server : OneshotServer) : (label : OneshotLabel) → Decidable (server.Prompt label)
  | .spawn created => inferInstanceAs (Decidable (created = true ∧ .starting ∉ server.workers))
  | .send _ _ => .isTrue trivial
  | .close _ => .isTrue trivial
  | .fetch _ => .isTrue trivial
  | .accept _ => .isTrue trivial
  | .begin _ => .isTrue trivial
  | .recv _ _ _ => .isTrue trivial
  | .reset _ => .isTrue trivial

/-- The main thread is blocked, no other thread has anything to do, and no event is to be reported. -/
def Idle (server : OneshotServer) : Prop :=
  server.pending = [] ∧ (∀ worker ∈ server.workers, worker = .finished) ∧
    ∀ fd, ¬ server.Fetchable (.client fd)

end OneshotServer
end UnixProgramming.IoMultiplexing

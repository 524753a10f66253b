import UnixProgramming.Lib.EventLoop
import UnixProgramming.Lib.Socket
import UnixProgramming.Pool.CgiTurn

/-! A child of the CGI server: `run_child` with one `cgi_conn` for each descriptor. The
clients' sockets are registered with `EPOLLET`, clients send and close while the child
works, and `accept` gives a new client any descriptor that is not open. -/

namespace UnixProgramming.Pool

open UnixProgramming.Lib HttpConn

/-- What `recv` returns, if it is not to fail: up to so many bytes, at least one of those that wait. -/
def recvOutcome (socket : Socket) (count : Nat) (fails : Bool) : Recv :=
  if fails then .error
  else match socket.recv (max 1 count) with
    | some bytes => .data bytes
    | none => .again

/-- The descriptor of an event. -/
inductive ChildSource where
  | pipe
  | signals
  | client (fd : Nat)
deriving DecidableEq, Repr

inductive ServeStage where
  /-- In the loop over the events; with none left, at `while (!m_stop)`. -/
  | events (pending : List ChildSource)
  /-- Between `recv` on the pipe and `accept`. -/
  | accepting (pending : List ChildSource)
  /-- In `users[fd].process()`. -/
  | processing (fd : Nat) (pending : List ChildSource)
  | left
deriving DecidableEq, Repr

namespace ServeStage

def pending : ServeStage → List ChildSource
  | events pending => pending
  | accepting pending => pending
  | processing _ pending => pending
  | left => []

def current : ServeStage → Option Nat
  | processing fd _ => some fd
  | _ => none

end ServeStage

/-- `files` says whose socket a descriptor is, `calls` what was called on behalf of a
client, and `stray` the descriptors `process()` used when they were not open. -/
structure CgiChild where
  stage : ServeStage
  stop : Bool
  users : Nat → CgiConn
  files : Nat → Option Nat
  sockets : Nat → Socket
  calls : Nat → List CgiCall
  accepted : List Nat
  stray : List Nat

inductive ChildLabel where
  | send (client : Nat) (bytes : List UInt8)
  | close (client : Nat)
  /-- `epoll_wait` returns. -/
  | fetch (events : List ChildSource)
  | epollFailure
  /-- `recv` on the pipe; it fails for another reason than `EAGAIN`, or it is let pass. -/
  | notified (fails : Bool)
  | accept (result : Option (Nat × Nat))
  | signals (received : List Signal)
  /-- The loop over the events gets to a client's. -/
  | process
  | turn (count : Nat) (fails : Bool) (access : List UInt8 → Bool) (fork : Bool)
  | leave

namespace CgiChild

def userPerProcess : Nat := 65536

def maxEventNumber : Nat := 10000

/-- `new T[USER_PER_PROCESS]` leaves the objects as they are. -/
def start (users : Nat → CgiConn) : CgiChild where
  stage := .events []
  stop := false
  users := users
  files := fun _ => none
  sockets := fun _ => .fresh
  calls := fun _ => []
  accepted := []
  stray := []

/-- `epoll_wait` reports a client only for an edge of its socket. -/
def Fetchable (child : CgiChild) : ChildSource → Prop
  | .client fd => ∃ client ∈ child.files fd, (child.sockets client).edge = true
  | _ => True

instance (child : CgiChild) : (event : ChildSource) → Decidable (child.Fetchable event)
  | .client fd =>
    match files : child.files fd with
    | none => .isFalse (by simp [Fetchable, files])
    | some client => decidable_of_iff ((child.sockets client).edge = true) (by simp [Fetchable, files])
  | .pipe => .isTrue trivial
  | .signals => .isTrue trivial

/-- The fetch has reported the client. -/
def reported (child : CgiChild) (events : List ChildSource) (client : Nat) : Bool :=
  events.any fun
    | .client fd => child.files fd == some client
    | _ => false

/-- The assignments of one iteration of `process()` on the client `client` behind `fd`. -/
def turned (child : CgiChild) (fd client : Nat) (pending : List ChildSource) (result : CgiResult × Bool) : CgiChild :=
  { child with
    stage := if result.2 then .processing fd pending else .events pending
    users := Function.update child.users fd result.1.conn
    files := if result.1.connected then child.files else Function.update child.files fd none
    sockets := Function.update child.sockets client
      ((child.sockets client).take (arrived result.1.calls).length)
    calls := Function.update child.calls client (child.calls client ++ result.1.calls) }

def step (child : CgiChild) : ChildLabel → Option CgiChild
  | .send client bytes =>
    if (child.sockets client).ended then none
    else some { child with sockets := Function.update child.sockets client ((child.sockets client).send bytes) }
  | .close client =>
    if (child.sockets client).ended then none
    else some { child with sockets := Function.update child.sockets client (child.sockets client).close }
  | .fetch events =>
    if child.stage = .events [] ∧ child.stop = false ∧ events.Nodup ∧ events.length ≤ maxEventNumber ∧
        ∀ event ∈ events, child.Fetchable event then
      some { child with
        stage := .events events
        sockets := fun client => { child.sockets client with
          edge := fetched (child.sockets client).edge (child.reported events client) } }
    else none
  | .epollFailure =>
    if child.stage = .events [] ∧ child.stop = false then some { child with stage := .left } else none
  | .notified fails =>
    match child.stage with
    | .events (.pipe :: pending) =>
      some { child with stage := if fails then .events pending else .accepting pending }
    | _ => none
  | .accept result =>
    match child.stage with
    | .accepting pending =>
      match result with
      | none => some { child with stage := .events pending }
      | some (connfd, client) =>
        if connfd < userPerProcess ∧ child.files connfd = none ∧ client ∉ child.accepted then
          -- `addfd` finds what has come before it
          some { child with
            stage := .events pending
            files := Function.update child.files connfd (some client)
            sockets := Function.update child.sockets client
              (child.sockets client).watch
            users := Function.update child.users connfd .init
            accepted := client :: child.accepted }
        else none
    | _ => none
  | .signals received =>
    match child.stage with
    | .events (.signals :: pending) =>
      some { child with
        stage := .events pending
        stop := child.stop || received.contains .sigterm || received.contains .sigint }
    | _ => none
  | .process =>
    match child.stage with
    | .events (.client sockfd :: pending) => some { child with stage := .processing sockfd pending }
    | _ => none
  | .turn count fails access fork =>
    match child.stage with
    | .processing sockfd pending =>
      match child.files sockfd with
      -- `recv` fails with `EBADF`, and so does `removefd`
      | none => some { child with stage := .events pending, stray := child.stray ++ [sockfd] }
      | some client =>
        some (child.turned sockfd client pending
          ((child.users sockfd).turn access fork (recvOutcome (child.sockets client) count fails)))
    | _ => none
  | .leave => if child.stage = .events [] ∧ child.stop = true then some { child with stage := .left } else none

/-- The child is blocked in `epoll_wait`, and no client has an edge to be fetched. -/
def Idle (child : CgiChild) : Prop :=
  child.stage = .events [] ∧ child.stop = false ∧
    ∀ fd client, child.files fd = some client → (child.sockets client).edge = false

end CgiChild
end UnixProgramming.Pool

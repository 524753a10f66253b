import Mathlib.Logic.Function.Basic
import UnixProgramming.Timer.ListRefinement

/-! The server of `handling_inactive_link.cpp`: one main loop over epoll batches
that closes connections whose timer in `timer_lst` runs out. -/

namespace UnixProgramming.Timer

open UnixProgramming.Lib

namespace InactiveLink

def fdLimit : Nat := 65535

def timeslot : Int := 5

/-- The address of `cb_func`, the only callback the server installs. -/
def cbFuncAddress : Nat := 1

/-- A slot of `users`; the address and the data buffer play no part here. -/
structure ClientData where
  sockfd : Nat
  timer : Option Nat
deriving DecidableEq, Repr

/-- One entry of `events`, told apart as by the branches of the main loop. -/
inductive Ready where
  | listen
  | pipe (epollin : Bool)
  | client (sockfd : Nat) (epollin : Bool)
deriving DecidableEq, Repr

inductive Signal where
  | sigalrm
  | sigterm
  | other
deriving DecidableEq, Repr

/-- What `recv` on a client socket returns; `data` comes with the clock reading
of the branch that handles it. -/
inductive Received where
  | failed
  | again
  | closed
  | data (cur : Int)
deriving DecidableEq, Repr

/-- `batch` holds the events still to be handled, and is `none` in `epoll_wait`.
`lastActive` records the clock reading of the accept or of the last successful
`recv` of a descriptor, and `clock` the last reading of all. -/
structure Server where
  timerLst : SortTimerList Nat
  users : Nat → ClientData
  isOpen : Nat → Bool
  timeout : Bool
  stopServer : Bool
  batch : Option (List Ready)
  lastActive : Nat → Int
  clock : Int

/-- The state before the main loop; the slots of `users` are not initialised. -/
def Server.start (users : Nat → ClientData) (clock : Int) : Server where
  timerLst := .empty
  users := users
  isOpen := fun _ => false
  timeout := false
  stopServer := false
  batch := none
  lastActive := fun _ => 0
  clock := clock

/-- The choices of the environment, one for each step of the loop. -/
inductive Step where
  | epollWait (ready : List Ready)
  | accept (connfd timer : Nat) (cur : Int)
  | recvSignals (signals : List Signal)
  | recv (received : Received)
  | ignore
  | endBatch (cur : Int)
deriving DecidableEq, Repr

/-- `cb_func`: the static `epollfd` it uses is not the epoll instance of `main`,
so only the `close` has an effect. -/
def Server.cbFunc (server : Server) (user : Nat) : Server :=
  { server with isOpen := Function.update server.isOpen (server.users user).sockfd false }

/-- The branch for the listening socket, once `accept` has returned `connfd` and
`new util_timer` has returned `timer`. -/
def Server.handleAccept (server : Server) (connfd timer : Nat) (cur : Int) : Option Server := do
  let fields : UtilTimer Nat := ⟨cur + 3 * timeslot, some cbFuncAddress, connfd⟩
  let (_, timerLst) ← execList server.timerLst (.add timer fields)
  return { server with
    timerLst := timerLst
    users := Function.update server.users connfd ⟨connfd, some timer⟩
    isOpen := Function.update server.isOpen connfd true
    lastActive := Function.update server.lastActive connfd cur
    clock := cur }

/-- `cb_func(&users[sockfd]); if (timer) timer_lst.del_timer(timer);` -/
def Server.closeClient (server : Server) (sockfd : Nat) : Option Server := do
  let timer := (server.users sockfd).timer
  let server := server.cbFunc sockfd
  match timer with
  | none => return server
  | some timer =>
    let (_, timerLst) ← execList server.timerLst (.del timer)
    return { server with timerLst := timerLst }

def Server.handleRecv (server : Server) (sockfd : Nat) : Received → Option Server
  | .failed => server.closeClient sockfd
  | .again => some server
  | .closed => server.closeClient sockfd
  | .data cur =>
    let server := { server with lastActive := Function.update server.lastActive sockfd cur, clock := cur }
    match (server.users sockfd).timer with
    | none => some server
    | some timer => do
      let (_, timerLst) ← execList server.timerLst (.adjust timer (cur + 3 * timeslot))
      return { server with timerLst := timerLst }

def Server.handleSignal (server : Server) : Signal → Server
  | .sigalrm => { server with timeout := true }
  | .sigterm => { server with stopServer := true }
  | .other => server

/-- `timer_handler`: the callbacks a tick runs close descriptors and leave the
list alone, so they are applied in order to the tick's log. -/
def Server.timerHandler (server : Server) (cur : Int) : Option Server := do
  let (fired, timerLst) ← server.timerLst.tick cur
  let server := fired.foldl (fun server node => server.cbFunc node.2.userData) server
  return { server with timerLst := timerLst, clock := cur }

/-- One step of the main loop; handling an event takes it off the batch. An
interrupted `epoll_wait` gives an empty batch. -/
def Server.step (server : Server) : Step → Option Server
  | .epollWait ready =>
    if server.batch = none ∧ server.stopServer = false then some { server with batch := some ready } else none
  | .accept connfd timer cur =>
    match server.batch with
    | some (.listen :: rest) => Server.handleAccept { server with batch := some rest } connfd timer cur
    | _ => none
  | .recvSignals signals =>
    match server.batch with
    | some (.pipe true :: rest) => some (signals.foldl Server.handleSignal { server with batch := some rest })
    | _ => none
  | .recv received =>
    match server.batch with
    | some (.client sockfd true :: rest) =>
      Server.handleRecv { server with batch := some rest } sockfd received
    | _ => none
  | .ignore =>
    match server.batch with
    | some (.client _ false :: rest) => some { server with batch := some rest }
    | some (.pipe false :: rest) => some { server with batch := some rest }
    | _ => none
  | .endBatch cur =>
    match server.batch with
    | some [] =>
      if server.timeout then
        Server.timerHandler { server with batch := none, timeout := false } cur
      else some { server with batch := none }
    | _ => none

/-- The descriptors of the client events in a batch. -/
def clientFds : List Ready → List Nat
  | [] => []
  | .client sockfd _ :: rest => sockfd :: clientFds rest
  | _ :: rest => clientFds rest

/-- What the environment promises about each step: a batch has at most one event
for a descriptor and none for a closed one, `accept` returns a descriptor below
the limit that is not open, `new` an address that is not in use, and no clock
reading is below an earlier one. -/
def Allowed (server : Server) : Step → Prop
  | .epollWait ready =>
    server.batch = none ∧ server.stopServer = false ∧ (clientFds ready).Nodup ∧
      ∀ fd ∈ clientFds ready, server.isOpen fd = true
  | .accept connfd timer cur =>
    (∃ rest, server.batch = some (.listen :: rest)) ∧ connfd < fdLimit ∧
      server.isOpen connfd = false ∧ server.timerLst.store.load timer = none ∧ server.clock ≤ cur
  | .recvSignals _ => ∃ rest, server.batch = some (.pipe true :: rest)
  | .recv received =>
    (∃ sockfd rest, server.batch = some (.client sockfd true :: rest)) ∧
      ∀ cur, received = .data cur → server.clock ≤ cur
  | .ignore =>
    (∃ sockfd rest, server.batch = some (.client sockfd false :: rest)) ∨
      ∃ rest, server.batch = some (.pipe false :: rest)
  | .endBatch cur => server.batch = some [] ∧ server.clock ≤ cur

end InactiveLink

end UnixProgramming.Timer

import Mathlib.Data.Finset.Card
import UnixProgramming.Csapp.RioWriten

/-! The echo server over `select`. A pool holds the descriptors of the clients and a `rio_t` for
each; a round is one `select`, perhaps one `accept`, and one pass of `check_clients`, which
works on a copy of the client's `rio_t`. -/

namespace UnixProgramming.Csapp

open UnixProgramming.Lib

/-- `FD_SETSIZE`. -/
def fdSetsize : Nat := 1024

/-- `MAXLINE`. -/
def maxline : Nat := 1024

/-- An entry of `clientrio`; `fd` is the number of the descriptor. -/
structure ClientRio where
  fd : Int
  cnt : Int
  bufptr : Nat
  buf : List UInt8
  deriving DecidableEq, Repr

namespace ClientRio

/-- `rio_readinitb`. -/
def rioReadinitb (rp : ClientRio) (fd : Int) : ClientRio := { rp with fd := fd, cnt := 0, bufptr := 0 }

/-- A copy of the entry, with what the kernel has for its descriptor. The pointer of a copy
leads into the original's buffer; it is set anew before it is used, as `rio_cnt` is 0. -/
def copied (rp : ClientRio) (input : Descriptor) : Rio := ⟨input, rp.cnt, rp.bufptr, rp.buf⟩

end ClientRio

structure Pool where
  maxfd : Int
  readSet : Finset Int
  readySet : Finset Int
  nready : Int
  maxi : Int
  clientfd : Nat → Int
  clientrio : Nat → ClientRio

namespace Pool

def initPool (p : Pool) (listenfd : Int) : Pool :=
  { p with
    maxi := -1
    clientfd := fun i => if i < fdSetsize then -1 else p.clientfd i
    maxfd := listenfd
    readSet := {listenfd} }

/-- Where the loop of `add_client` stops. -/
@[irreducible] def freeSlot (p : Pool) : Option Nat := (List.range fdSetsize).find? fun i => p.clientfd i < 0

def addClient (p : Pool) (connfd : Int) : Pool :=
  match p.freeSlot with
  | none => { p with nready := p.nready - 1 }
  | some i => { p with
      nready := p.nready - 1
      clientfd := Function.update p.clientfd i connfd
      clientrio := Function.update p.clientrio i ((p.clientrio i).rioReadinitb connfd)
      readSet := insert connfd p.readSet
      maxfd := if connfd > p.maxfd then connfd else p.maxfd
      maxi := if i > p.maxi then i else p.maxi }

end Pool

/-- One connection, as the kernel has it. -/
structure Socket where
  input : Descriptor
  output : Sink
  deriving DecidableEq, Repr

inductive EchoStage where
  | selecting
  | accepting
  /-- In the loop of `check_clients`. -/
  | checking (i : Nat)
  /-- In a `read()` or `write()` that does not return. -/
  | blocked
  deriving DecidableEq, Repr

structure EchoServer where
  listenfd : Int
  pool : Pool
  byteCnt : Int
  errno : Errno
  /-- The memory at `buf` of `check_clients`. -/
  buf : Nat → UInt8
  sockets : Int → Socket
  opened : Finset Int
  stage : EchoStage
  /-- The clients that `check_clients` has read from in this round. -/
  served : List Int
  /-- The connections closed so far. -/
  closed : List Socket

inductive EchoLabel where
  /-- `select` leaves these descriptors set; what the stack holds then is arbitrary. -/
  | select (ready : Finset Int) (stack : Nat → UInt8)
  /-- `accept` returns a client with a stream to send, and the outcomes of the calls on it. -/
  | accept (connfd : Int) (stream : List UInt8) (reads : List ReadOutcome) (writes : List WriteOutcome)
  /-- The condition of the loop of `check_clients`, and an iteration. -/
  | check

namespace EchoServer

/-- The static pool before `init_pool`. -/
def static : Pool where
  maxfd := 0
  readSet := ∅
  readySet := ∅
  nready := 0
  maxi := 0
  clientfd := fun _ => 0
  clientrio := fun _ => ⟨0, 0, 0, List.replicate rioBufsize 0⟩

def start (listenfd : Int) (errno : Errno) (sockets : Int → Socket) : EchoServer where
  listenfd := listenfd
  pool := static.initPool listenfd
  byteCnt := 0
  errno := errno
  buf := fun _ => 0
  sockets := sockets
  opened := {listenfd}
  stage := .selecting
  served := []
  closed := []

/-- `errno` after the reads that led from one state of a descriptor to another. -/
def errnoAfter (errno : Errno) (before after : Descriptor) : Errno :=
  (before.schedule.take (before.schedule.length - after.schedule.length)).foldl
    (fun errno outcome =>
      match outcome with
      | .error failure => failure
      | .count _ => errno) errno

/-- What a delivery leaves in a buffer. -/
def stored (buf : Nat → UInt8) (delivery : Rio.Delivery) : Nat → UInt8 := fun offset =>
  if offset < delivery.data.length then delivery.data.getD offset 0
  else if offset = delivery.data.length ∧ delivery.terminated then 0
  else buf offset

/-- A line has been read for the client at an index, or a part of it. -/
def received (server : EchoServer) (i : Nat) (delivery : Rio.Delivery) (input : Descriptor) : EchoServer :=
  let fd := (server.pool.clientrio i).fd
  { server with
    pool := { server.pool with nready := server.pool.nready - 1 }
    served := server.served ++ [server.pool.clientfd i]
    sockets := Function.update server.sockets fd { server.sockets fd with input := input }
    errno := errnoAfter server.errno (server.sockets fd).input input
    buf := stored server.buf delivery }

/-- `rio_readlineb(&rio, buf, MAXLINE)` on a copy of the client's `rio_t`, which is then lost. -/
def readClient (server : EchoServer) (i : Nat) : Rio.Delivery × EchoServer :=
  let rio := server.pool.clientrio i
  let (delivery, left) := (rio.copied (server.sockets rio.fd).input).rioReadlineb maxline
  (delivery, server.received i delivery left.fd)

/-- `rio_writen(connfd, buf, n)`; the count is converted to a `size_t`. -/
def echo (server : EchoServer) (i : Nat) (n : Int) : EchoServer :=
  let connfd := server.pool.clientfd i
  let socket := server.sockets connfd
  let writing := rioWriten server.buf (n % 2 ^ 64).toNat server.errno socket.output
  { server with
    byteCnt := server.byteCnt + n
    sockets := Function.update server.sockets connfd { socket with output := writing.sink }
    errno := writing.errno
    stage := if writing.value = none then .blocked else .checking (i + 1) }

/-- The client is gone. -/
def drop (server : EchoServer) (i : Nat) : EchoServer :=
  let connfd := server.pool.clientfd i
  { server with
    pool := { server.pool with
      readSet := server.pool.readSet.erase connfd
      clientfd := Function.update server.pool.clientfd i (-1) }
    opened := server.opened.erase connfd
    closed := server.closed ++ [server.sockets connfd]
    stage := .checking (i + 1) }

/-- The body of the loop of `check_clients`. -/
def checkClient (server : EchoServer) (i : Nat) : EchoServer :=
  let connfd := server.pool.clientfd i
  if 0 < connfd ∧ connfd ∈ server.pool.readySet then
    let (delivery, server) := server.readClient i
    match delivery.value with
    | none => { server with stage := .blocked }
    | some n => if n ≠ 0 then server.echo i n else server.drop i
  else { server with stage := .checking (i + 1) }

/-- `select` returns. -/
def onSelect (server : EchoServer) (ready : Finset Int) (stack : Nat → UInt8) : EchoServer :=
  { server with
    pool := { server.pool with readySet := ready, nready := ready.card }
    buf := stack
    served := []
    stage := if server.listenfd ∈ ready then .accepting else .checking 0 }

/-- `accept` returns, and `add_client` is called. -/
def onAccept (server : EchoServer) (connfd : Int) (client : Socket) : EchoServer :=
  { server with
    pool := server.pool.addClient connfd
    sockets := Function.update server.sockets connfd client
    opened := insert connfd server.opened
    stage := .checking 0 }

/-- `select` looks at the descriptors up to `maxfd`, and `accept` returns a positive descriptor
below `FD_SETSIZE` that is not open. -/
def step (server : EchoServer) (label : EchoLabel) : Option EchoServer :=
  match server.stage, label with
  | .selecting, .select ready stack =>
    if ready ⊆ server.pool.readSet.filter (· < server.pool.maxfd + 1) then
      some (server.onSelect ready stack)
    else none
  | .accepting, .accept connfd stream reads writes =>
    if 0 < connfd ∧ connfd < fdSetsize ∧ connfd ∉ server.opened then
      some (server.onAccept connfd ⟨⟨stream, reads, []⟩, ⟨writes, []⟩⟩)
    else none
  | .checking i, .check =>
    if i ≤ server.pool.maxi ∧ 0 < server.pool.nready then some (server.checkClient i)
    else some { server with stage := .selecting }
  | _, _ => none

/-! ## What a step can do -/

/-- The client at an index is read from, and answered or dropped. -/
def serve (server : EchoServer) (i : Nat) : EchoServer :=
  match (server.readClient i).1.value with
  | none => { (server.readClient i).2 with stage := .blocked }
  | some n => if n ≠ 0 then (server.readClient i).2.echo i n else (server.readClient i).2.drop i

inductive Change (server next : EchoServer) : EchoLabel → Prop where
  | select (ready : Finset Int) (stack : Nat → UInt8) (selecting : server.stage = .selecting)
    (within : ready ⊆ server.pool.readSet) (done : next = server.onSelect ready stack) :
    Change server next (.select ready stack)
  | accept (connfd : Int) (stream : List UInt8) (reads : List ReadOutcome) (writes : List WriteOutcome)
    (accepting : server.stage = .accepting) (positive : 0 < connfd) (fresh : connfd ∉ server.opened)
    (done : next = server.onAccept connfd ⟨⟨stream, reads, []⟩, ⟨writes, []⟩⟩) :
    Change server next (.accept connfd stream reads writes)
  | finish (i : Nat) (checking : server.stage = .checking i)
    (ended : ¬ (i ≤ server.pool.maxi ∧ 0 < server.pool.nready)) (done : next = { server with stage := .selecting }) :
    Change server next .check
  | pass (i : Nat) (checking : server.stage = .checking i) (inside : i ≤ server.pool.maxi)
    (quiet : ¬ (0 < server.pool.clientfd i ∧ server.pool.clientfd i ∈ server.pool.readySet))
    (done : next = { server with stage := .checking (i + 1) }) : Change server next .check
  | serve (i : Nat) (checking : server.stage = .checking i) (inside : i ≤ server.pool.maxi)
    (positive : 0 < server.pool.clientfd i) (ready : server.pool.clientfd i ∈ server.pool.readySet)
    (done : next = server.serve i) : Change server next .check

theorem step_change {server next : EchoServer} {label : EchoLabel} (taken : server.step label = some next) :
    Change server next label := by
  unfold step at taken
  split at taken
  · next ready stack selecting =>
    split_ifs at taken with within
    exact .select ready stack selecting (within.trans (Finset.filter_subset _ _)) (Option.some.inj taken).symm
  · next connfd stream reads writes accepting =>
    split_ifs at taken with new
    exact .accept connfd stream reads writes accepting new.1 new.2.2 (Option.some.inj taken).symm
  · next i checking =>
    split_ifs at taken with more
    · obtain rfl := Option.some.inj taken
      unfold checkClient
      dsimp only
      split_ifs with ready
      · exact .serve i checking more.1 ready.1 ready.2 rfl
      · exact .pass i checking more.1 ready rfl
    · exact .finish i checking more (Option.some.inj taken).symm
  · cases taken

end EchoServer
end UnixProgramming.Csapp

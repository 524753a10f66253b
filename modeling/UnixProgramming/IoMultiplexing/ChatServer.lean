import Mathlib.Data.Finset.Basic
import UnixProgramming.Lib.Run
import UnixProgramming.Lib.Window

/-! The chat room server over `poll`. After each `poll` it goes once over the table `fds`:
entry 0 is the listening socket, the others are clients. A client that leaves is removed by
moving the last entry into its place, and a message is handed on by pointing the other
clients' `write_buf` at the sender's buffer. -/

namespace UnixProgramming.IoMultiplexing

open UnixProgramming.Lib

/-- `USER_LIMIT`. -/
def userLimit : Int := 5

/-- `BUFFER_SIZE`. -/
def bufferSize : Nat := 64

def pollin : BitVec 16 := 0x0001#16
def pollout : BitVec 16 := 0x0004#16
def pollerr : BitVec 16 := 0x0008#16
def pollhup : BitVec 16 := 0x0010#16
def pollnval : BitVec 16 := 0x0020#16
def pollrdhup : BitVec 16 := 0x2000#16

/-- `struct pollfd`; the two masks are of type `short`. -/
structure PollFd where
  fd : Int
  events : BitVec 16
  revents : BitVec 16
  deriving DecidableEq, Repr

/-- `mask & bits`, as a condition. -/
def has (mask bits : BitVec 16) : Bool := mask &&& bits != 0#16

theorem has_or (mask other bits : BitVec 16) : has (mask ||| other) bits = (has mask bits || has other bits) := by
  rw [Bool.eq_iff_iff]
  simp only [has, Bool.or_eq_true, bne_iff_ne, ne_eq, BitVec.and_or_distrib_right, BitVec.or_eq_zero_iff]
  exact not_and_or

/-- A mask with nothing outside some bits has none of the others. -/
theorem has_of_within {mask bits within : BitVec 16} (none : mask &&& ~~~within = 0)
    (apart : ~~~within &&& bits = bits) : has mask bits = false := by
  rw [has, ← apart, ← BitVec.and_assoc, none]
  simp

/-- What is reported is asked for or comes unasked. -/
theorem has_of_requested {reported events other bits : BitVec 16} (within : reported &&& ~~~(events ||| other) = 0)
    (apart : other &&& bits = 0#16) (present : has reported bits = true) : has events bits = true := by
  by_contra missing
  have none : events &&& bits = 0#16 := by simpa [has] using missing
  have outside : ~~~(events ||| other) &&& bits = bits := by
    apply BitVec.eq_of_getLsbD_eq
    intro index below
    have first := congrArg (·.getLsbD index) none
    have second := congrArg (·.getLsbD index) apart
    simp only [BitVec.getLsbD_and, BitVec.getLsbD_zero, BitVec.getLsbD_not, BitVec.getLsbD_or, below, decide_true,
      Bool.true_and] at first second ⊢
    cases present : bits.getLsbD index with
    | false => rw [Bool.and_false]
    | true =>
      rw [present, Bool.and_true] at first second
      rw [first, second]
      rfl
  rw [has_of_within within outside] at present
  cases present

/-- The values of `write_buf`. -/
inductive WriteBuf where
  | null
  /-- The buffer of `users[fd]`. -/
  | buf (fd : Int)
  /-- What `malloc` left there: a pointer to some other string. -/
  | stray (text : List UInt8)
  deriving DecidableEq, Repr

/-- `struct client_data`, without the address. -/
structure ClientData where
  writeBuf : WriteBuf
  buf : List UInt8
  deriving DecidableEq, Repr

inductive ChatStage where
  /-- In `poll`. -/
  | polling
  /-- In the loop over the table, at an index inside it. -/
  | scanning (index : Int)
  | left
  deriving DecidableEq, Repr

/-- What `recv` returned to a client, and who sent it. -/
structure Message where
  sender : Int
  text : List UInt8
  deriving DecidableEq, Repr

/-- A `send` of the `POLLOUT` branch. -/
structure Sent where
  recipient : Int
  text : List UInt8
  /-- The message for which `write_buf` was last set. -/
  message : Option Message
  deriving DecidableEq, Repr

structure ChatServer where
  listenfd : Int
  fds : Int → PollFd
  users : Int → ClientData
  userCounter : Int
  stage : ChatStage
  /-- The open descriptors; those of clients that were turned away are never closed. -/
  opened : Finset Int
  /-- The clients admitted and not yet closed. -/
  clients : Finset Int
  /-- The table when `poll` last returned, and the entries dispatched since. -/
  snapshot : List (Int × BitVec 16)
  dispatched : List (Int × BitVec 16)
  /-- The clients admitted since then. -/
  joined : List Int
  /-- For each descriptor the message waiting for it. -/
  message : Int → Option Message
  sent : List Sent

inductive RecvResult where
  | data (received : List UInt8)
  | closed
  | again
  | failed
  deriving DecidableEq, Repr

inductive ChatLabel where
  /-- `poll` returns with these `revents`. -/
  | poll (revents : List (BitVec 16))
  | pollFailure
  /-- `accept` returns a descriptor, or fails. -/
  | accept (connfd : Option Int)
  | recv (result : RecvResult)
  /-- An entry is dispatched to a branch that gets nothing from the kernel. -/
  | dispatch
  deriving DecidableEq, Repr

inductive Branch where
  | accept
  | error
  | hangup
  | receive
  | send
  | idle
  deriving DecidableEq, Repr

namespace ChatServer

/-- The state at the first `poll`; what `malloc` and the stack hold is arbitrary. -/
def create (listenfd : Int) (users : Int → ClientData) (fds : Int → PollFd) : ChatServer where
  listenfd := listenfd
  fds := Function.update
    (fun place => if 1 ≤ place ∧ place ≤ userLimit then ⟨-1, 0, (fds place).revents⟩ else fds place)
    0 ⟨listenfd, pollin ||| pollerr, 0⟩
  users := users
  userCounter := 0
  stage := .polling
  opened := {listenfd}
  clients := ∅
  snapshot := []
  dispatched := []
  joined := []
  message := fun _ => none
  sent := []

/-- The next iteration of the loop over the table, or the next `poll`. -/
def advance (server : ChatServer) (index : Int) : ChatServer :=
  { server with stage := if index < server.userCounter + 1 then .scanning index else .polling }

def onPoll (server : ChatServer) (revents : List (BitVec 16)) : ChatServer :=
  let fds := fun place =>
    if 0 ≤ place ∧ place ≤ server.userCounter then
      { server.fds place with revents := revents.getD place.toNat 0 }
    else server.fds place
  { server with
    fds := fds
    snapshot := (window fds 0 (server.userCounter.toNat + 1)).map fun entry => (entry.fd, entry.revents)
    dispatched := []
    joined := [] }

/-- The branch an entry is dispatched to. -/
def branch (server : ChatServer) (entry : PollFd) : Branch :=
  if entry.fd = server.listenfd ∧ has entry.revents pollin then .accept
  else if has entry.revents pollerr then .error
  else if has entry.revents pollrdhup then .hangup
  else if has entry.revents pollin then .receive
  else if has entry.revents pollout then .send
  else .idle

/-- A new client gets the entry behind the last one. -/
def admits (server : ChatServer) (connfd : Int) : ChatServer :=
  { server with
    userCounter := server.userCounter + 1
    fds := Function.update server.fds (server.userCounter + 1) ⟨connfd, pollin ||| pollrdhup ||| pollerr, 0⟩
    opened := insert connfd server.opened
    clients := insert connfd server.clients
    joined := server.joined ++ [connfd]
    message := Function.update server.message connfd none }

/-- The accept branch from the check of the limit on. A client that is turned away is told so
and its descriptor stays open. -/
def onAccept (server : ChatServer) (connfd : Int) : ChatServer :=
  if server.userCounter ≥ userLimit then { server with opened := insert connfd server.opened }
  else server.admits connfd

/-- A client is closed and the last entry takes its place; its record is overwritten too. -/
def remove (server : ChatServer) (index : Int) : ChatServer :=
  let fd := (server.fds index).fd
  let last := server.fds server.userCounter
  { server with
    users := Function.update server.users fd (server.users last.fd)
    fds := Function.update server.fds index last
    userCounter := server.userCounter - 1
    opened := server.opened.erase fd
    clients := server.clients.erase fd }

/-- `users[fd].buf` gets some bytes at its start, and NULs behind them. -/
def fill (server : ChatServer) (fd : Int) (received : List UInt8) : ChatServer :=
  let buf := received ++ List.replicate (bufferSize - received.length) 0
  { server with users := Function.update server.users fd { server.users fd with buf := buf } }

/-- One iteration of the loop over the other clients. -/
def offer (connfd : Int) (text : List UInt8) (server : ChatServer) (place : Int) : ChatServer :=
  let entry := server.fds place
  if entry.fd = connfd then server
  else { server with
    fds := Function.update server.fds place { entry with events := entry.events ||| ~~~pollin ||| pollout }
    users := Function.update server.users entry.fd { server.users entry.fd with writeBuf := .buf connfd }
    message := Function.update server.message entry.fd (some ⟨connfd, text⟩) }

/-- The loop `for (int j = 1; j <= user_counter; ++j)`. -/
def broadcast (server : ChatServer) (connfd : Int) (text : List UInt8) : ChatServer :=
  (window id 1 server.userCounter.toNat).foldl (offer connfd text) server

/-- The string a pointer leads to. -/
def text (server : ChatServer) : WriteBuf → List UInt8
  | .null => []
  | .buf fd => (server.users fd).buf.takeWhile (· ≠ 0)
  | .stray text => text

def onSend (server : ChatServer) (index : Int) : ChatServer :=
  let entry := server.fds index
  let client := server.users entry.fd
  if client.writeBuf = .null then server
  else { server with
    sent := server.sent ++ [⟨entry.fd, server.text client.writeBuf, server.message entry.fd⟩]
    users := Function.update server.users entry.fd { client with writeBuf := .null }
    message := Function.update server.message entry.fd none
    fds := Function.update server.fds index { entry with events := entry.events ||| ~~~pollout ||| pollin } }

/-- The branch for data of a client. -/
def onRecv (server : ChatServer) (index : Int) (result : RecvResult) : Option ChatServer :=
  let connfd := (server.fds index).fd
  match result with
  | .data received =>
    if received ≠ [] ∧ received.length ≤ bufferSize - 1 then
      some (((server.fill connfd received).broadcast connfd received).advance (index + 1))
    else none
  | .closed | .again => some ((server.fill connfd []).advance (index + 1))
  | .failed => some (((server.fill connfd []).remove index).advance index)

/-- An entry as `poll` returned it. -/
def row (server : ChatServer) (place : Int) : Int × BitVec 16 :=
  ((server.fds place).fd, (server.fds place).revents)

/-- The entry at an index is being dispatched. -/
def mark (server : ChatServer) (index : Int) : ChatServer :=
  { server with dispatched := server.dispatched ++ [server.row index] }

/-- One iteration of the loop over the table. -/
def iterate (server : ChatServer) (index : Int) (label : ChatLabel) : Option ChatServer :=
  let server := server.mark index
  match server.branch (server.fds index), label with
  | .accept, .accept none => some (server.advance (index + 1))
  | .accept, .accept (some connfd) =>
    if 0 ≤ connfd ∧ connfd ∉ server.opened then some ((server.onAccept connfd).advance (index + 1)) else none
  | .error, .dispatch => some (server.advance (index + 1))
  | .hangup, .dispatch => some ((server.remove index).advance index)
  | .receive, .recv result => server.onRecv index result
  | .send, .dispatch => some ((server.onSend index).advance (index + 1))
  | .idle, .dispatch => some (server.advance (index + 1))
  | _, _ => none

/-- `poll` reports for each entry of the table, and only `POLLIN` and `POLLERR` for the
listening socket. -/
def step (server : ChatServer) (label : ChatLabel) : Option ChatServer :=
  match server.stage, label with
  | .polling, .poll revents =>
    if revents.length = server.userCounter.toNat + 1 ∧ revents.headD 0 &&& ~~~(pollin ||| pollerr) = 0 then
      some ((server.onPoll revents).advance 0)
    else none
  | .polling, .pollFailure => some { server with stage := .left }
  | .scanning index, label => server.iterate index label
  | _, _ => none

/-- The entries of the clients. -/
def entries (server : ChatServer) : List PollFd := window server.fds 1 server.userCounter.toNat

/-! ## What a step can do -/

inductive Change (server next : ChatServer) : ChatLabel → Prop where
  | poll (revents : List (BitVec 16)) (polling : server.stage = .polling)
    (count : revents.length = server.userCounter.toNat + 1)
    (quiet : revents.headD 0 &&& ~~~(pollin ||| pollerr) = 0) (done : next = (server.onPoll revents).advance 0) :
    Change server next (.poll revents)
  | leave (polling : server.stage = .polling) (done : next = { server with stage := .left }) :
    Change server next .pollFailure
  | accept (index connfd : Int) (scanning : server.stage = .scanning index)
    (branch : server.branch (server.fds index) = .accept) (fresh : connfd ∉ server.opened)
    (done : next = ((server.mark index).onAccept connfd).advance (index + 1)) :
    Change server next (.accept (some connfd))
  | hangup (index : Int) (scanning : server.stage = .scanning index)
    (branch : server.branch (server.fds index) = .hangup)
    (done : next = ((server.mark index).remove index).advance index) : Change server next .dispatch
  | data (index : Int) (received : List UInt8) (scanning : server.stage = .scanning index)
    (branch : server.branch (server.fds index) = .receive) (nonempty : received ≠ [])
    (fits : received.length ≤ bufferSize - 1)
    (done : next = (((server.mark index).fill (server.fds index).fd received).broadcast (server.fds index).fd
      received).advance (index + 1)) : Change server next (.recv (.data received))
  | clear (index : Int) (result : RecvResult) (other : ∀ received, result ≠ .data received)
    (scanning : server.stage = .scanning index) (branch : server.branch (server.fds index) = .receive)
    (done : next = ((server.mark index).fill (server.fds index).fd []).advance (index + 1)) :
    Change server next (.recv result)
  | fail (index : Int) (scanning : server.stage = .scanning index)
    (branch : server.branch (server.fds index) = .receive)
    (done : next = (((server.mark index).fill (server.fds index).fd []).remove index).advance index) :
    Change server next (.recv .failed)
  | send (index : Int) (scanning : server.stage = .scanning index)
    (branch : server.branch (server.fds index) = .send)
    (done : next = ((server.mark index).onSend index).advance (index + 1)) : Change server next .dispatch
  | pass (index : Int) (label : ChatLabel) (scanning : server.stage = .scanning index)
    (hangup : server.branch (server.fds index) ≠ .hangup)
    (done : next = (server.mark index).advance (index + 1)) : Change server next label

theorem iterate_change {server next : ChatServer} {index : Int} {label : ChatLabel}
    (scanning : server.stage = .scanning index) (taken : server.iterate index label = some next) :
    Change server next label := by
  unfold iterate at taken
  dsimp only at taken
  split at taken
  · next same => exact .pass index _ scanning (same.symm ▸ by decide) (Option.some.inj taken).symm
  · next connfd same =>
    split_ifs at taken with fresh
    exact .accept index connfd scanning same fresh.2 (Option.some.inj taken).symm
  · next same => exact .pass index _ scanning (same.symm ▸ by decide) (Option.some.inj taken).symm
  · next same => exact .hangup index scanning same (Option.some.inj taken).symm
  · next result same =>
    unfold onRecv at taken
    dsimp only at taken
    split at taken
    · next received =>
      split_ifs at taken with sized
      exact .data index received scanning same sized.1 sized.2 (Option.some.inj taken).symm
    · exact .clear index _ (by simp) scanning same (Option.some.inj taken).symm
    · exact .clear index _ (by simp) scanning same (Option.some.inj taken).symm
    · exact .fail index scanning same (Option.some.inj taken).symm
  · next same => exact .send index scanning same (Option.some.inj taken).symm
  · next same => exact .pass index _ scanning (same.symm ▸ by decide) (Option.some.inj taken).symm
  · cases taken

theorem step_change {server next : ChatServer} {label : ChatLabel} (taken : server.step label = some next) :
    Change server next label := by
  unfold step at taken
  split at taken
  · next revents polling =>
    split_ifs at taken with reported
    exact .poll revents polling reported.1 reported.2 (Option.some.inj taken).symm
  · next polling => exact .leave polling (Option.some.inj taken).symm
  · next index scanning => exact iterate_change scanning taken
  · cases taken

end ChatServer
end UnixProgramming.IoMultiplexing

import UnixProgramming.Lib.Run
import UnixProgramming.Pool.HttpResponse

/-! The thread-pool web server as a whole: the main loop, the workers, the work queue
and the kernel's view of the descriptors. A step is one system call, one assignment
to a member or variable that threads share, or the computation between two of them;
`assign` stands for any state in which the other members are half assigned. The
other descriptors of the process are never returned by `accept` and left out. -/

namespace UnixProgramming.Pool

open UnixProgramming.Lib HttpConn

def maxFd : Int := 65536

/-- What `epoll_wait` reports, as the main loop tells events apart. -/
inductive Event where
  | incoming
  | hangup (fd : Nat)
  | readable (fd : Nat)
  | writable (fd : Nat)
deriving DecidableEq, Repr

def Event.fd : Event → Option Nat
  | .incoming => none
  | .hangup fd | .readable fd | .writable fd => some fd

/-- The entry of a descriptor in the epoll instance, always with `EPOLLONESHOT`. -/
structure Registration where
  interest : Interest
  armed : Bool
deriving DecidableEq, Repr

/-- The object `users[i]` with the kernel's view of descriptor `i`, the only one the
object is ever initialised with. `connected` holds from `init` to the `close` of the
descriptor, and `generation` counts the connections of the object. -/
structure Slot where
  conn : HttpConn
  opened : Bool
  registration : Option Registration
  connected : Bool
  generation : Nat
deriving DecidableEq, Repr

/-- The statements of `close_conn`. -/
inductive CloseStage where
  | check
  | delete
  | shut
  | clear
  | discount
deriving DecidableEq, Repr

/-- What the main loop is doing with a connection. -/
inductive MainTask where
  | accepted
  | refused
  | initSockfd | initAdd | initCount | initReset
  | read | receive
  | append
  | write | sending (bytesToSend bytesHaveSend : Int)
  | idleModfd | idleInit
  | againModfd
  | failUnmap
  | doneUnmap | keepInit | keepModfd | dropModfd
  | close (generation : Nat) (stage : CloseStage)
deriving DecidableEq, Repr

/-- What a worker inside `process` is doing. -/
inductive WorkerTask where
  | processRead
  | processWrite (code : HttpCode)
  | close (generation : Nat) (stage : CloseStage)
  | modfd (interest : Interest)
deriving DecidableEq, Repr

inductive MainStage where
  | waiting
  | dispatch (events : List Event)
  | inside (fd : Nat) (task : MainTask) (rest : List Event)
  | posting (rest : List Event)
deriving DecidableEq, Repr

inductive WorkerStage where
  | waiting
  | woken
  | busy (fd : Nat) (task : WorkerTask)
deriving DecidableEq, Repr

structure Server (Worker : Type) where
  main : MainStage
  workers : Worker → WorkerStage
  slots : Nat → Slot
  queue : List Nat
  posts : Nat
  userCount : Int

/-- A statement inside a method, with the answers of the calls it makes. -/
inductive Action where
  | next
  | recv (outcome : Recv)
  | writev (outcome : Writev)
  | parse (fs : FileSystem)
  | assign (conn : HttpConn)

inductive ServerLabel (Worker : Type) where
  | epollWait (events : List Event)
  | dispatch
  | accept (result : Option Nat)
  | countCheck
  | append
  | post
  | main (action : Action)
  | wait (worker : Worker)
  | take (worker : Worker)
  | worker (worker : Worker) (action : Action)

namespace Slot

def armed (slot : Slot) : Bool :=
  match slot.registration with
  | some registration => registration.armed
  | none => false

/-- `addfd` for a connection. -/
def addfd (slot : Slot) : Slot :=
  if slot.registration.isNone then { slot with registration := some ⟨.epollin, true⟩ } else slot

/-- `modfd` on `m_sockfd`, which fails for -1 and for a descriptor that is not
registered. -/
def modfd (slot : Slot) (interest : Interest) : Slot :=
  if slot.conn.sockfd.isSome ∧ slot.registration.isSome then
    { slot with registration := some ⟨interest, true⟩ }
  else slot

/-- `close` takes the descriptor out of the epoll instance too. -/
def shut (slot : Slot) : Slot := { slot with opened := false, registration := none, connected := false }

/-- The event of a descriptor is reported, which disarms it. -/
def deliver (slot : Slot) (event : Event) : Option Slot :=
  match slot.registration, event with
  | some ⟨interest, true⟩, .hangup _ => some { slot with registration := some ⟨interest, false⟩ }
  | some ⟨.epollin, true⟩, .readable _ => some { slot with registration := some ⟨.epollin, false⟩ }
  | some ⟨.epollout, true⟩, .writable _ => some { slot with registration := some ⟨.epollout, false⟩ }
  | _, _ => none

/-- One statement of `close_conn`, and the one after it. -/
def closeStep (slot : Slot) : CloseStage → Slot × Option CloseStage
  | .check => (slot, if slot.conn.sockfd.isSome then some .delete else none)
  | .delete => ({ slot with registration := none }, some .shut)
  | .shut => (slot.shut, some .clear)
  | .clear => ({ slot with conn := slot.conn.closeConn }, some .discount)
  | .discount => (slot, none)

/-- The start of a call of `close_conn` by the main loop. -/
def closing (slot : Slot) : MainTask := .close slot.generation .check

/-- One statement of the main loop inside a method of the object (or in
`show_error`), and what it goes on with there. -/
def mainStep (fd : Nat) (slot : Slot) : MainTask → Action → Option (Slot × Option MainTask)
  | .refused, .next => some (slot.shut, none)
  | .initSockfd, .next =>
    some ({ slot with
      conn := { slot.conn with sockfd := some fd, mapCalls := slot.conn.mapCalls ++ [.newConnection] }
      connected := true
      generation := slot.generation + 1 }, some .initAdd)
  | .initAdd, .next => some (slot.addfd, some .initCount)
  | .initCount, .next => some (slot, some .initReset)
  | .initReset, .next => some ({ slot with conn := slot.conn.init }, none)
  | .read, .next => some (slot, if readBufferSize ≤ slot.conn.readIdx then some slot.closing else some .receive)
  | .receive, .recv .again => some (slot, some .append)
  | .receive, .recv .error => some (slot, some slot.closing)
  | .receive, .recv (.data received) =>
    let received := received.take (readBufferSize - slot.conn.readIdx)
    if received = [] then some (slot, some slot.closing)
    else some ({ slot with conn := { slot.conn with readBuf := slot.conn.readBuf ++ received } }, some .receive)
  | .write, .next =>
    some (slot, some (if slot.conn.writeBuf.length = 0 then .idleModfd else .sending slot.conn.writeBuf.length 0))
  | .idleModfd, .next => some (slot.modfd .epollin, some .idleInit)
  | .idleInit, .next => some ({ slot with conn := slot.conn.init }, none)
  | .sending _ _, .writev .again => some (slot, some .againModfd)
  | .againModfd, .next => some (slot.modfd .epollout, none)
  | .sending _ _, .writev .error => some (slot, some .failUnmap)
  | .failUnmap, .next => some ({ slot with conn := slot.conn.unmap }, some slot.closing)
  | .sending bytesToSend bytesHaveSend, .writev (.accepted count) =>
    let bytesToSend := bytesToSend - count
    let bytesHaveSend := bytesHaveSend + count
    some (slot, some (if bytesToSend ≤ bytesHaveSend then .doneUnmap else .sending bytesToSend bytesHaveSend))
  | .doneUnmap, .next =>
    some ({ slot with conn := slot.conn.unmap }, some (if slot.conn.linger then .keepInit else .dropModfd))
  | .keepInit, .next => some ({ slot with conn := slot.conn.init }, some .keepModfd)
  | .keepModfd, .next => some (slot.modfd .epollin, none)
  | .dropModfd, .next => some (slot.modfd .epollin, some slot.closing)
  | .close generation stage, .next =>
    let (slot, stage) := slot.closeStep stage
    some (slot, stage.map (.close generation))
  | .accepted, _ | .refused, _ | .append, _ => none
  | task, .assign conn => if conn.sockfd = slot.conn.sockfd then some ({ slot with conn := conn }, some task) else none
  | _, _ => none

/-- One statement of `process`, and what the worker goes on with. -/
def workerStep (slot : Slot) : WorkerTask → Action → Option (Slot × Option WorkerTask)
  | .processRead, .parse fs =>
    let (code, conn) := HttpConn.processRead fs slot.conn
    some ({ slot with conn := conn }, some (if code = .noRequest then .modfd .epollin else .processWrite code))
  | .processWrite code, .next =>
    let (written, conn) := slot.conn.processWrite code
    some ({ slot with conn := conn },
      some (if written then .modfd .epollout else .close slot.generation .check))
  | .close generation stage, .next =>
    let (slot, stage) := slot.closeStep stage
    some (slot, some (stage.elim (.modfd .epollout) (.close generation)))
  | .modfd interest, .next => some (slot.modfd interest, none)
  | task, .assign conn => if conn.sockfd = slot.conn.sockfd then some ({ slot with conn := conn }, some task) else none
  | _, _ => none

end Slot

/-- How a statement changes `m_user_count`. -/
def CloseStage.counted : CloseStage → Int
  | .discount => -1
  | _ => 0

def MainTask.counted : MainTask → Int
  | .initCount => 1
  | .close _ stage => stage.counted
  | _ => 0

def WorkerTask.counted : WorkerTask → Int
  | .close _ stage => stage.counted
  | _ => 0

namespace Server

variable {Worker : Type} [DecidableEq Worker]

/-- `epoll_wait` reports events of armed descriptors, each at most once. -/
def deliver (slots : Nat → Slot) : List Event → Option (Nat → Slot)
  | [] => some slots
  | event :: rest =>
    match event.fd with
    | none => deliver slots rest
    | some fd => ((slots fd).deliver event).bind fun slot => deliver (Function.update slots fd slot) rest

/-- The main loop turns to an event of a connection. -/
def handle (server : Server Worker) (fd : Nat) (task : MainTask) (rest : List Event) : Server Worker :=
  { server with main := .inside fd task rest }

def step (maxRequests : Nat) (server : Server Worker) : ServerLabel Worker → Option (Server Worker)
  | .epollWait events =>
    match server.main with
    | .waiting => (deliver server.slots events).map fun slots => { server with main := .dispatch events, slots := slots }
    | _ => none
  | .dispatch =>
    match server.main with
    | .dispatch [] => some { server with main := .waiting }
    | .dispatch (.hangup fd :: rest) => some (server.handle fd (server.slots fd).closing rest)
    | .dispatch (.readable fd :: rest) => some (server.handle fd .read rest)
    | .dispatch (.writable fd :: rest) => some (server.handle fd .write rest)
    | _ => none
  | .accept result =>
    match server.main, result with
    | .dispatch (.incoming :: rest), none => some { server with main := .dispatch rest }
    | .dispatch (.incoming :: rest), some fd =>
      if (server.slots fd).opened then none
      else some { server.handle fd .accepted rest with
        slots := Function.update server.slots fd { server.slots fd with opened := true } }
    | _, _ => none
  | .countCheck =>
    match server.main with
    | .inside fd .accepted rest =>
      some (server.handle fd (if maxFd ≤ server.userCount then .refused else .initSockfd) rest)
    | _ => none
  | .append =>
    match server.main with
    | .inside fd .append rest =>
      if maxRequests < server.queue.length then some { server with main := .dispatch rest }
      else some { server with main := .posting rest, queue := server.queue ++ [fd] }
    | _ => none
  | .post =>
    match server.main with
    | .posting rest => some { server with main := .dispatch rest, posts := server.posts + 1 }
    | _ => none
  | .main action =>
    match server.main with
    | .inside fd task rest =>
      ((server.slots fd).mainStep fd task action).map fun (slot, after) =>
        { server with
          main := after.elim (.dispatch rest) (.inside fd · rest)
          slots := Function.update server.slots fd slot
          userCount := server.userCount + task.counted }
    | _ => none
  | .wait worker =>
    match server.workers worker with
    | .waiting =>
      if server.posts = 0 then none
      else some { server with
        workers := Function.update server.workers worker .woken
        posts := server.posts - 1 }
    | _ => none
  | .take worker =>
    match server.workers worker, server.queue with
    | .woken, [] => some { server with workers := Function.update server.workers worker .waiting }
    | .woken, fd :: rest =>
      some { server with
        workers := Function.update server.workers worker (.busy fd .processRead)
        queue := rest }
    | _, _ => none
  | .worker worker action =>
    match server.workers worker with
    | .busy fd task =>
      ((server.slots fd).workerStep task action).map fun (slot, after) =>
        { server with
          workers := Function.update server.workers worker (after.elim .waiting (.busy fd))
          slots := Function.update server.slots fd slot
          userCount := server.userCount + task.counted }
    | _ => none

/-- The server before the first connection; the objects hold anything. -/
def initial (users : Nat → HttpConn) : Server Worker where
  main := .waiting
  workers := fun _ => .waiting
  slots := fun fd => ⟨users fd, false, none, false, 0⟩
  queue := []
  posts := 0
  userCount := 0

end Server

end UnixProgramming.Pool

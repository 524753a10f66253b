import UnixProgramming.Lib.EventLoop
import UnixProgramming.Lib.Run

/-! The shared-memory chat server: the parent's loop with its client tables, and one child
for each client. A row of `users` belongs to a child from `fork` to `waitpid`; the row of a
reaped child is filled with the last row. What the children exchange with their clients is
left out here. -/

namespace UnixProgramming.Ipc

open UnixProgramming.Lib

def userLimit : Int := 5
def processLimit : Int := 65536

/-- `struct client_data`, without the address. -/
structure ClientData where
  connfd : Int
  pid : Int
  pipefd : Int × Int
  deriving DecidableEq, Repr

/-- What `epoll_wait` reports to the parent; any other descriptor is the pipe of a child. -/
inductive ShmEvent where
  | listen
  | signals
  | child (fd : Int)
  deriving DecidableEq, Repr

inductive ShmStage where
  /-- In the loop over the events; with none left, at `while (!stop_server)`. -/
  | events (pending : List ShmEvent)
  /-- In the loop over the signals received. -/
  | signals (received : List Signal) (pending : List ShmEvent)
  /-- In the loop around `waitpid`. -/
  | reaping (received : List Signal) (pending : List ShmEvent)
  | left
  deriving DecidableEq, Repr

def ShmStage.ofSignals : List Signal → List ShmEvent → ShmStage
  | [], pending => .events pending
  | signal :: rest, pending => .signals (signal :: rest) pending

/-- What `recv` on the client's or the parent's descriptor returns in a child. -/
inductive RecvResult where
  | data
  | again
  | closed
  | failed
  deriving DecidableEq, Repr

/-- `recv` fails, other than with `EAGAIN`, or finds the end. -/
def RecvResult.ends : RecvResult → Bool
  | .closed | .failed => true
  | .data | .again => false

inductive ShmChildStage where
  /-- About to test `while (!stop_child)`; also from `fork` up to the loop. -/
  | testing
  /-- In `epoll_wait`. -/
  | blocked
  /-- In the loop over a number of events. -/
  | handling (pending : Nat)
  /-- Out of the loop; the process has exited or will without blocking. -/
  | left
  deriving DecidableEq, Repr

def ShmChildStage.ofPending (pending : Nat) : ShmChildStage := if pending = 0 then .testing else .handling pending

structure ShmChild where
  /-- The argument of `run_child`. -/
  idx : Int
  /-- The parent end of its pipe. -/
  pipefd : Int
  stage : ShmChildStage
  stopChild : Bool
  /-- A `SIGTERM` of the parent is pending, or has been received. -/
  killed : Bool
  signalled : Bool
  deriving DecidableEq, Repr

structure ShmServer where
  users : Int → ClientData
  subProcess : Int → Int
  userCount : Int
  terminate : Bool
  stopServer : Bool
  stage : ShmStage
  /-- The forked and unreaped children, by pid. -/
  children : Int → Option ShmChild
  /-- The parent ends closed for reaped children. -/
  closed : List Int

inductive ShmLabel where
  | epollWait (events : List ShmEvent)
  | epollFailure
  | acceptFailure
  /-- `accept`, `socketpair` and `fork`, which fails with no pid. -/
  | accept (connfd : Int) (pipefd : Int × Int) (forked : Option Int)
  /-- `recv` from the signal pipe; nothing when it fails. -/
  | recv (received : List Signal)
  /-- A notification of a child is relayed. -/
  | relay
  | signal
  | waitpid (pid : Option Int)
  | leave
  /-- A child tests `stop_child`. -/
  | test (pid : Int)
  /-- `epoll_wait` of a child returns. -/
  | fetch (pid : Int) (number : Nat)
  /-- A child handles its next event. -/
  | handle (pid : Int) (result : RecvResult)
  /-- A child receives the `SIGTERM` of the parent. -/
  | deliver (pid : Int)
  /-- A child ends in another way. -/
  | exit (pid : Int)
  deriving DecidableEq, Repr

namespace ShmServer

/-- After `malloc`; every entry of `sub_process` is -1. -/
def create (users : Int → ClientData) : ShmServer where
  users := users
  subProcess := fun _ => -1
  userCount := 0
  terminate := false
  stopServer := false
  stage := .events []
  children := fun _ => none
  closed := []

def setChild (server : ShmServer) (pid : Int) (child : ShmChild) : ShmServer :=
  { server with children := Function.update server.children pid (some child) }

/-- The parent's branch after `fork`. -/
def register (server : ShmServer) (connfd : Int) (pipefd : Int × Int) (pid : Int) : ShmServer :=
  { server with
    users := Function.update server.users server.userCount ⟨connfd, pid, pipefd⟩
    subProcess := Function.update server.subProcess pid server.userCount
    userCount := server.userCount + 1
    children := Function.update server.children pid
      (some ⟨server.userCount, pipefd.1, .testing, false, false, false⟩) }

/-- A row written before `fork` failed; it stays free. -/
def abandon (server : ShmServer) (connfd : Int) (pipefd : Int × Int) : ShmServer :=
  let row := { server.users server.userCount with connfd := connfd, pipefd := pipefd }
  { server with users := Function.update server.users server.userCount row }

/-- The branch for an event on `listenfd` after `accept`. -/
def onListen (server : ShmServer) (connfd : Int) (pipefd : Int × Int) (forked : Option Int) : ShmServer :=
  if server.userCount ≥ userLimit then server
  else
    match forked with
    | none => server.abandon connfd pipefd
    | some pid => server.register connfd pipefd pid

/-- The statements for a pid that `waitpid` returned. -/
def reap (server : ShmServer) (pid : Int) : ShmServer :=
  let delUser := server.subProcess pid
  let server := { server with
    subProcess := Function.update server.subProcess pid (-1)
    children := Function.update server.children pid none }
  if delUser < 0 ∨ delUser > userLimit then server
  else
    let userCount := server.userCount - 1
    let users := Function.update server.users delUser (server.users userCount)
    { server with
      closed := server.closed ++ [(server.users delUser).pipefd.1]
      userCount := userCount
      users := users
      subProcess := Function.update server.subProcess (users delUser).pid delUser }

/-- The pids of the rows in use. -/
def rows (server : ShmServer) : List Int :=
  (List.range server.userCount.toNat).map fun row : Nat => (server.users row).pid

/-- The branch for `SIGTERM` and `SIGINT`. -/
def onTerm (server : ShmServer) : ShmServer :=
  if server.userCount = 0 then { server with stopServer := true }
  else { server with
    children := fun pid =>
      if pid ∈ server.rows then (server.children pid).map fun child => { child with killed := true }
      else server.children pid
    terminate := true }

/-- A pid that `fork` can return: in range, and not that of an unreaped child. -/
def Fresh (server : ShmServer) (pid : Int) : Prop :=
  1 ≤ pid ∧ pid < processLimit ∧ server.children pid = none

instance (server : ShmServer) (pid : Int) : Decidable (server.Fresh pid) := inferInstanceAs (Decidable (_ ∧ _ ∧ _))

/-- The parent's steps in a stage. -/
def parentStep (server : ShmServer) : ShmStage → ShmLabel → Option ShmServer
  | .events [], .epollWait events =>
    if server.stopServer then none else some { server with stage := .events events }
  | .events [], .epollFailure => if server.stopServer then none else some { server with stage := .left }
  | .events [], .leave => if server.stopServer then some { server with stage := .left } else none
  | .events (.listen :: pending), .acceptFailure => some { server with stage := .events pending }
  | .events (.listen :: pending), .accept connfd pipefd forked =>
    if ∀ pid ∈ forked, server.Fresh pid then
      some { server.onListen connfd pipefd forked with stage := .events pending }
    else none
  | .events (.signals :: pending), .recv received => some { server with stage := .ofSignals received pending }
  | .events (.child _ :: pending), .relay => some { server with stage := .events pending }
  | .signals (.sigchld :: received) pending, .signal => some { server with stage := .reaping received pending }
  | .signals (.sigterm :: received) pending, .signal =>
    some { server.onTerm with stage := .ofSignals received pending }
  | .signals (.sigint :: received) pending, .signal =>
    some { server.onTerm with stage := .ofSignals received pending }
  | .signals (.sigpipe :: received) pending, .signal => some { server with stage := .ofSignals received pending }
  | .reaping _ _, .waitpid (some pid) =>
    match server.children pid with
    | some child => if child.stage = .left then some (server.reap pid) else none
    | none => none
  | .reaping received pending, .waitpid none =>
    some { server with
      stopServer := server.stopServer || (server.terminate && decide (server.userCount = 0))
      stage := .ofSignals received pending }
  | _, _ => none

/-- The step of a child on its own, from its label. -/
def childStep (child : ShmChild) : ShmLabel → Option ShmChild
  | .test _ =>
    if child.stage = .testing then some { child with stage := if child.stopChild then .left else .blocked }
    else none
  | .fetch _ number => if child.stage = .blocked then some { child with stage := .ofPending number } else none
  | .handle _ result =>
    match child.stage with
    | .handling (pending + 1) =>
      some { child with stopChild := child.stopChild || result.ends, stage := .ofPending pending }
    | _ => none
  | .deliver _ =>
    -- the inherited handler writes to a descriptor the child has closed; a blocked
    -- `epoll_wait` returns with `EINTR`
    if child.killed then
      some { child with
        killed := false
        signalled := true
        stage := if child.stage = .blocked then .testing else child.stage }
    else none
  | .exit _ => if child.stage = .left then none else some { child with stage := .left }
  | _ => none

/-- The child a label is about. -/
def ShmLabel.child? : ShmLabel → Option Int
  | .test pid | .fetch pid _ | .handle pid _ | .deliver pid | .exit pid => some pid
  | _ => none

def step (server : ShmServer) (label : ShmLabel) : Option ShmServer :=
  match ShmLabel.child? label with
  | some pid => (server.children pid).bind fun child => (childStep child label).map (server.setChild pid)
  | none => server.parentStep server.stage label

/-! ## What a step can do -/

def ShmStage.isReaping : ShmStage → Bool
  | .reaping _ _ => true
  | _ => false

inductive Change (server next : ShmServer) : ShmLabel → Prop where
  | child (label : ShmLabel) (pid : Int) (child moved : ShmChild) (about : ShmLabel.child? label = some pid)
    (present : server.children pid = some child) (taken : childStep child label = some moved)
    (done : next = server.setChild pid moved) : Change server next label
  | accept (connfd : Int) (pipefd : Int × Int) (forked : Option Int) (stage : ShmStage)
    (fresh : ∀ pid ∈ forked, server.Fresh pid) (outside : ShmStage.isReaping server.stage = false)
    (done : next = { server.onListen connfd pipefd forked with stage := stage }) :
    Change server next (.accept connfd pipefd forked)
  | term (stage : ShmStage) (outside : ShmStage.isReaping server.stage = false)
    (done : next = { server.onTerm with stage := stage }) : Change server next .signal
  | reap (pid : Int) (child : ShmChild) (present : server.children pid = some child) (left : child.stage = .left)
    (inside : ShmStage.isReaping server.stage = true) (done : next = server.reap pid) :
    Change server next (.waitpid (some pid))
  | reaped (stage : ShmStage)
    (done : next = { server with
      stopServer := server.stopServer || (server.terminate && decide (server.userCount = 0)), stage := stage }) :
    Change server next (.waitpid none)
  | turn (label : ShmLabel) (stage : ShmStage) (outside : ShmStage.isReaping server.stage = false)
    (forks : ∀ connfd pipefd pid, label ≠ .accept connfd pipefd (some pid)) (waits : ∀ pid, label ≠ .waitpid pid)
    (done : next = { server with stage := stage }) : Change server next label

theorem parentStep_change {server next : ShmServer} {stage : ShmStage} {label : ShmLabel}
    (same : server.stage = stage) (taken : server.parentStep stage label = some next) :
    Change server next label := by
  have outside : ShmStage.isReaping stage = false → ShmStage.isReaping server.stage = false := fun other => same ▸ other
  unfold parentStep at taken
  split at taken
  · split_ifs at taken
    exact .turn _ _ (outside rfl) (by simp) (by simp) (Option.some.inj taken).symm
  · split_ifs at taken
    exact .turn _ _ (outside rfl) (by simp) (by simp) (Option.some.inj taken).symm
  · split_ifs at taken
    exact .turn _ _ (outside rfl) (by simp) (by simp) (Option.some.inj taken).symm
  · exact .turn _ _ (outside rfl) (by simp) (by simp) (Option.some.inj taken).symm
  · split_ifs at taken with fresh
    exact .accept _ _ _ _ fresh (outside rfl) (Option.some.inj taken).symm
  · exact .turn _ _ (outside rfl) (by simp) (by simp) (Option.some.inj taken).symm
  · exact .turn _ _ (outside rfl) (by simp) (by simp) (Option.some.inj taken).symm
  · exact .turn _ _ (outside rfl) (by simp) (by simp) (Option.some.inj taken).symm
  · exact .term _ (outside rfl) (Option.some.inj taken).symm
  · exact .term _ (outside rfl) (Option.some.inj taken).symm
  · exact .turn _ _ (outside rfl) (by simp) (by simp) (Option.some.inj taken).symm
  · split at taken
    · next present =>
      split_ifs at taken with left
      exact .reap _ _ present left (same ▸ rfl) (Option.some.inj taken).symm
    · cases taken
  · exact .reaped _ (Option.some.inj taken).symm
  · cases taken

theorem step_change {server next : ShmServer} {label : ShmLabel} (taken : server.step label = some next) :
    Change server next label := by
  unfold step at taken
  split at taken
  · next pid about =>
    obtain ⟨child, present, moved⟩ := Option.bind_eq_some_iff.mp taken
    obtain ⟨after, step, rfl⟩ := Option.map_eq_some_iff.mp moved
    exact .child label pid child after about present step rfl
  · exact parentStep_change rfl taken

/-! ## Who is a child -/

variable {server : ShmServer} {pid other : Int} {child moved : ShmChild}

theorem of_update_some {children : Int → Option ShmChild}
    (present : Function.update children pid (some moved) other = some child) :
    (other = pid ∧ child = moved) ∨ (other ≠ pid ∧ children other = some child) := by
  by_cases same : other = pid
  · rw [same, Function.update_self, Option.some.injEq] at present
    exact .inl ⟨same, present.symm⟩
  · rw [Function.update_of_ne same] at present
    exact .inr ⟨same, present⟩

/-- After `SIGTERM` was handled every child is one from before, with a signal pending or not. -/
theorem of_onTerm_some (present : server.onTerm.children pid = some child) :
    ∃ before, server.children pid = some before ∧ (child = before ∨ child = { before with killed := true }) := by
  unfold onTerm at present
  split_ifs at present
  · exact ⟨child, present, .inl rfl⟩
  · dsimp only at present
    split_ifs at present
    · obtain ⟨before, was, rfl⟩ := Option.map_eq_some_iff.mp present
      exact ⟨before, was, .inr rfl⟩
    · exact ⟨child, present, .inl rfl⟩

/-- Reaping removes one child and touches neither the stage nor `terminate`. -/
theorem reap_kept (server : ShmServer) (pid : Int) :
    (server.reap pid).children = Function.update server.children pid none ∧
      (server.reap pid).stage = server.stage ∧ (server.reap pid).terminate = server.terminate := by
  simp only [reap]
  split_ifs <;> exact ⟨rfl, rfl, rfl⟩

theorem of_reap_some (present : (server.reap pid).children other = some child) :
    server.children other = some child := by
  rw [(reap_kept server pid).1] at present
  by_cases same : other = pid
  · rw [same, Function.update_self] at present
    cases present
  · rwa [Function.update_of_ne same] at present

end ShmServer
end UnixProgramming.Ipc

import UnixProgramming.Lib.SignalPipe
import UnixProgramming.Pool.PoolSystem

/-! The processes of the pool and their signals. Every process has its own signal pipe; the
parent passes `SIGTERM` on to its children, and the end of a child comes back as `SIGCHLD`. -/

namespace UnixProgramming.Pool

open UnixProgramming.Lib

inductive SubProcessStage where
  /-- Before `setup_sig_pipe` the signals have their default actions. -/
  | starting
  /-- In the loop over the events; with none left, at `while (!m_stop)`. -/
  | events (pending : List ChildEvent)
  | exited
deriving DecidableEq, Repr

structure SubProcess where
  stage : SubProcessStage
  stop : Bool
  inbox : SignalPipe Signal
deriving DecidableEq, Repr

inductive SubProcessLabel where
  | boot
  | handle (signal : Signal)
  /-- `epoll_wait` returns. -/
  | fetch (events : List ChildEvent)
  /-- The next event is on `sig_pipefd[0]`. -/
  | recv
  /-- The next event is on another descriptor. -/
  | skip
deriving DecidableEq, Repr

/-- `char signals[1024]`. -/
def signalBytes : Nat := 1024

namespace SubProcess

def start : SubProcess := ⟨.starting, false, .quiet⟩

/-- A signal is sent to the process. The default action for `SIGCHLD` is to ignore it. -/
def raise (child : SubProcess) (signal : Signal) : SubProcess :=
  match child.stage with
  | .starting => if signal = .sigchld then child else { child with inbox := child.inbox.raise signal }
  | .events _ => { child with inbox := child.inbox.raise signal }
  | .exited => child

/-- The process returns from `run_child`, or the default action of a signal ends it. -/
def Ends (child : SubProcess) : Prop :=
  (child.stage = .events [] ∧ child.stop = true) ∨ (child.stage = .starting ∧ child.inbox.pending ≠ [])

instance (child : SubProcess) : Decidable child.Ends := inferInstanceAs (Decidable (_ ∧ _ ∨ _ ∧ _))

def step (capacity : Nat) (child : SubProcess) : SubProcessLabel → Option SubProcess
  | .boot => if child.stage = .starting then some { child with stage := .events [] } else none
  | .handle signal =>
    match child.stage with
    | .events _ =>
      if signal ∈ child.inbox.pending then some { child with inbox := child.inbox.handle capacity signal } else none
    | _ => none
  | .fetch events =>
    if child.stage = .events [] ∧ child.stop = false ∧ events.count .signals ≤ child.inbox.edge.toNat then
      some { child with stage := .events events, inbox := child.inbox.fetch (events.contains .signals) }
    else none
  | .recv =>
    match child.stage with
    | .events (.signals :: pending) =>
      let received := child.inbox.bytes.take signalBytes
      some { child with
        stage := .events pending
        stop := child.stop || received.contains .sigterm || received.contains .sigint
        inbox := child.inbox.read signalBytes }
    | _ => none
  | .skip =>
    match child.stage with
    | .events (.pipe :: pending) => some { child with stage := .events pending }
    | .events (.client :: pending) => some { child with stage := .events pending }
    | _ => none

end SubProcess

structure PoolSignals (n : Nat) where
  parent : ProcessPool n
  /-- The signals of the parent. -/
  inbox : SignalPipe Signal
  children : Fin n → SubProcess

inductive SignalsLabel (n : Nat) where
  /-- A signal comes from outside the pool. -/
  | raise (signal : Signal)
  | raiseChild (slot : Fin n) (signal : Signal)
  /-- A child is ended from outside, or crashes. -/
  | crash (slot : Fin n)
  | handle (signal : Signal)
  | parent (label : ParentLabel)
  | child (slot : Fin n) (label : SubProcessLabel)
  | exit (slot : Fin n)
deriving DecidableEq, Repr

/-- The next signal to be handled is `SIGTERM` or `SIGINT`. -/
def ParentStage.terminates : ParentStage → Bool
  | .signals (.sigterm :: _) _ => true
  | .signals (.sigint :: _) _ => true
  | _ => false

namespace PoolSignals
variable {n : Nat}

def create [NeZero n] (forked : Fin n → Int) : PoolSignals n := ⟨.create forked, .quiet, fun _ => .start⟩

/-- The child is gone, which is a `SIGCHLD` for the parent. -/
def ended (system : PoolSignals n) (slot : Fin n) : Option (PoolSignals n) :=
  (system.parent.step (.exit (system.parent.pids slot))).map fun parent =>
    { parent := parent
      inbox := system.inbox.raise .sigchld
      children := Function.update system.children slot { system.children slot with stage := .exited } }

/-- What the parent may get from `epoll_wait` and `recv`. -/
def Feasible (system : PoolSignals n) : ParentLabel → Prop
  | .epollWait events => events.count .signals ≤ system.inbox.edge.toNat
  | .recv received => received = system.inbox.bytes.take signalBytes
  | .exit _ => False
  | _ => True

instance (system : PoolSignals n) : (label : ParentLabel) → Decidable (system.Feasible label)
  | .epollWait events => inferInstanceAs (Decidable (events.count .signals ≤ _))
  | .recv received => inferInstanceAs (Decidable (received = _))
  | .exit _ => .isFalse id
  | .epollFailure => .isTrue trivial
  | .dispatch => .isTrue trivial
  | .skip => .isTrue trivial
  | .signal => .isTrue trivial
  | .waitpid _ => .isTrue trivial
  | .leave => .isTrue trivial

/-- What a step of the parent does outside its own table. -/
def after (system : PoolSignals n) (label : ParentLabel) (parent : ProcessPool n) : PoolSignals n :=
  match label with
  | .epollWait events => { system with parent := parent, inbox := system.inbox.fetch (events.contains .signals) }
  | .recv _ => { system with parent := parent, inbox := system.inbox.read signalBytes }
  | .signal =>
    if system.parent.stage.terminates then
      { system with
        parent := parent
        children := fun slot =>
          if system.parent.pids slot ≠ -1 then (system.children slot).raise .sigterm else system.children slot }
    else { system with parent := parent }
  | .dispatch =>
    -- `send` to a child that has ended
    if system.parent.pids system.parent.found ≠ -1 ∧ (system.children system.parent.found).stage = .exited then
      { system with parent := parent, inbox := system.inbox.raise .sigpipe }
    else { system with parent := parent }
  | _ => { system with parent := parent }

def step (capacity : Nat) (system : PoolSignals n) : SignalsLabel n → Option (PoolSignals n)
  | .raise signal => some { system with inbox := system.inbox.raise signal }
  | .raiseChild slot signal =>
    some { system with children := Function.update system.children slot ((system.children slot).raise signal) }
  | .crash slot => if (system.children slot).stage ≠ .exited then system.ended slot else none
  | .handle signal =>
    if signal ∈ system.inbox.pending ∧ system.parent.stage ≠ .left then
      some { system with inbox := system.inbox.handle capacity signal }
    else none
  | .parent label =>
    if system.Feasible label then (system.parent.step label).map (system.after label) else none
  | .child slot label =>
    ((system.children slot).step capacity label).map fun child =>
      { system with children := Function.update system.children slot child }
  | .exit slot => if (system.children slot).Ends then system.ended slot else none

/-! ## The kinds of states and steps -/

/-- No byte of a signal is lost because its pipe is full, and `epoll_wait` does not fail. -/
def Heard (capacity : Nat) (system : PoolSignals n) : SignalsLabel n → Prop
  | .handle _ => system.inbox.bytes.length < capacity
  | .child slot (.handle _) => (system.children slot).inbox.bytes.length < capacity
  | .parent .epollFailure => False
  | _ => True

/-- The steps of the processes when nothing more comes from outside. -/
def Inner : SignalsLabel n → Prop
  | .raise _ => False
  | .raiseChild _ _ => False
  | .crash _ => False
  | .parent (.epollWait events) => events = [.signals]
  | .child _ (.fetch events) => events = [.signals]
  | _ => True

instance (capacity : Nat) (system : PoolSignals n) (label : SignalsLabel n) : Decidable (system.Heard capacity label) := by
  unfold Heard
  split <;> infer_instance

instance (label : SignalsLabel n) : Decidable (Inner label) := by
  unfold Inner
  split <;> infer_instance

def innerStep (capacity : Nat) (system : PoolSignals n) (label : SignalsLabel n) : Option (PoolSignals n) :=
  if Inner label ∧ system.Heard capacity label then system.step capacity label else none

/-- The parent has returned from `run_parent`, and no child is left or unreaped. -/
structure Finished (system : PoolSignals n) : Prop where
  left : system.parent.stage = .left
  gone : ∀ slot, (system.children slot).stage = .exited
  reaped : ∀ slot, system.parent.pids slot = -1
  shut : ∀ slot, slot ∈ system.parent.closed

end PoolSignals
end UnixProgramming.Pool

import UnixProgramming.Lib.EventLoop
import UnixProgramming.Lib.Tally
import UnixProgramming.Pool.ChildTable

/-! The process pool with its children, the accept queue and the pipes. Descriptors are
registered with `EPOLLET`: an arrival sets an edge, and fetching the event clears it, so
arrivals before the fetch share one event. -/

namespace UnixProgramming.Pool

open UnixProgramming.Lib

/-- What `epoll_wait` reports to a child. -/
inductive ChildEvent where
  | pipe
  | signals
  | client
  deriving DecidableEq, Repr

inductive ChildStage where
  /-- In the loop over the events; with none left, at `while (!m_stop)`. -/
  | events (pending : List ChildEvent)
  /-- Between `recv` on the pipe and `accept`. -/
  | accepting (pending : List ChildEvent)
  | exited
  deriving DecidableEq, Repr

structure Child where
  stage : ChildStage
  stop : Bool
  /-- The notifications in the pipe that are not read. -/
  pipe : Nat
  /-- An edge of the pipe is not fetched. -/
  edge : Bool
  deriving DecidableEq, Repr

/-- The clients a child has yet to accept: one for each notification. -/
def Child.demand (child : Child) : Nat :=
  child.pipe + match child.stage with
    | .accepting _ => 1
    | _ => 0

/-- The process is blocked in `epoll_wait`, or has exited, with no edge to be fetched. -/
def Child.Idle (child : Child) : Prop := child.stage = .exited ∨ (child.stage = .events [] ∧ child.edge = false)

structure PoolSystem (n : Nat) where
  parent : ProcessPool n
  children : Fin n → Child
  /-- The accept queue of `m_listenfd`. -/
  backlog : List Nat
  /-- An edge of `m_listenfd` is not fetched. -/
  edge : Bool
  arrived : Nat
  accepted : List (Fin n × Nat)

inductive SystemLabel (n : Nat) where
  | arrive
  | parent (label : ParentLabel)
  /-- `epoll_wait` returns in a child. -/
  | fetch (slot : Fin n) (events : List ChildEvent)
  | recv (slot : Fin n)
  | accept (slot : Fin n)
  /-- A child handles an event on another descriptor; a signal may stop it. -/
  | other (slot : Fin n) (stops : Bool)
  /-- A child returns from `run_child` or is killed. -/
  | exit (slot : Fin n)
  deriving DecidableEq, Repr

namespace PoolSystem
variable {n : Nat}

def create [NeZero n] (forked : Fin n → Int) : PoolSystem n where
  parent := ProcessPool.create forked
  children := fun _ => ⟨.events [], false, 0, false⟩
  backlog := []
  edge := false
  arrived := 0
  accepted := []

def setChild (system : PoolSystem n) (slot : Fin n) (child : Child) : PoolSystem n :=
  { system with children := Function.update system.children slot child }

/-- `send` on the parent end: one more notification, and an edge. -/
def notify (system : PoolSystem n) (slot : Fin n) : PoolSystem n :=
  system.setChild slot { system.children slot with pipe := (system.children slot).pipe + 1, edge := true }

def step (system : PoolSystem n) : SystemLabel n → Option (PoolSystem n)
  | .arrive =>
    some { system with
      backlog := system.backlog ++ [system.arrived], arrived := system.arrived + 1, edge := true }
  | .parent (.exit _) => none
  | .parent (.epollWait events) =>
    if events.count .listen ≤ system.edge.toNat then
      (system.parent.step (.epollWait events)).map fun parent =>
        { system with parent := parent, edge := fetched system.edge (events.contains .listen) }
    else none
  | .parent .dispatch =>
    (system.parent.step .dispatch).map fun parent =>
      if system.parent.pids system.parent.found = -1 then { system with parent := parent }
      else { system with parent := parent }.notify system.parent.found
  | .parent label => (system.parent.step label).map fun parent => { system with parent := parent }
  | .fetch slot events =>
    let child := system.children slot
    if child.stage = .events [] ∧ child.stop = false ∧ events.count .pipe ≤ child.edge.toNat then
      some (system.setChild slot
        { child with stage := .events events, edge := fetched child.edge (events.contains .pipe) })
    else none
  | .recv slot =>
    let child := system.children slot
    match child.stage with
    | .events (.pipe :: pending) =>
      -- one `int`; with none to read `recv` fails with `EAGAIN`, which is let pass
      some (system.setChild slot { child with stage := .accepting pending, pipe := child.pipe - 1 })
    | _ => none
  | .accept slot =>
    let child := system.children slot
    match child.stage with
    | .accepting pending =>
      let system := system.setChild slot { child with stage := .events pending }
      match system.backlog with
      | [] => some system
      | client :: rest => some { system with backlog := rest, accepted := system.accepted ++ [(slot, client)] }
    | _ => none
  | .other slot stops =>
    let child := system.children slot
    match child.stage with
    | .events (.signals :: pending) =>
      some (system.setChild slot { child with stage := .events pending, stop := child.stop || stops })
    | .events (.client :: pending) => some (system.setChild slot { child with stage := .events pending })
    | _ => none
  | .exit slot =>
    let child := system.children slot
    if child.stage = .exited then none
    else
      (system.parent.step (.exit (system.parent.pids slot))).map fun parent =>
        { system with parent := parent }.setChild slot { child with stage := .exited }

/-! ## The kinds of states and steps -/

/-- The parent and all children are blocked and no edge is undelivered. -/
def Quiescent (system : PoolSystem n) : Prop :=
  system.parent.stage = .events [] ∧ system.edge = false ∧ ∀ slot, (system.children slot).Idle

/-- Some child is alive, and neither `send` nor `accept` fails. -/
def Faultless (system : PoolSystem n) (label : SystemLabel n) : Prop :=
  (∃ slot, (system.children slot).stage ≠ .exited) ∧
    (label = .parent .dispatch → (system.children system.parent.found).stage ≠ .exited) ∧
    ∀ slot, label = .accept slot → system.backlog ≠ []

/-- No two arrivals share an edge, and no child exits with a notification to be handled. -/
def Unshared (system : PoolSystem n) (label : SystemLabel n) : Prop :=
  (label = .arrive → system.edge = false) ∧
    (label = .parent .dispatch → (system.children system.parent.found).edge = false) ∧
    ∀ slot, label = .exit slot → (system.children slot).demand = 0

instance (system : PoolSystem n) (label : SystemLabel n) : Decidable (system.Faultless label) :=
  inferInstanceAs (Decidable (_ ∧ _ ∧ _))

instance (system : PoolSystem n) (label : SystemLabel n) : Decidable (system.Unshared label) :=
  inferInstanceAs (Decidable (_ ∧ _ ∧ _))

instance (child : Child) : Decidable child.Idle := inferInstanceAs (Decidable (_ ∨ _ ∧ _))

instance (system : PoolSystem n) : Decidable system.Quiescent := inferInstanceAs (Decidable (_ ∧ _ ∧ _))

end PoolSystem
end UnixProgramming.Pool

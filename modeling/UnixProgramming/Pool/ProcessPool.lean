import UnixProgramming.Lib.Cyclic
import UnixProgramming.Lib.EventLoop
import UnixProgramming.Lib.Run

/-! The parent of the process pool. `run_parent` handles its events one at a time while
children exit at any point; a signal event hands over all signals that have come, and a
`SIGCHLD` reaps children until `waitpid` finds none. -/

namespace UnixProgramming.Pool

open UnixProgramming.Lib

/-- What `epoll_wait` reports to the parent. -/
inductive ParentEvent where
  | listen
  | signals
  | other
  deriving DecidableEq, Repr

inductive ParentStage where
  /-- In the loop over the events; with none left, at `while (!m_stop)`. -/
  | events (pending : List ParentEvent)
  /-- In the loop over the signals received. -/
  | signals (received : List Signal) (pending : List ParentEvent)
  /-- In the loop around `waitpid`. -/
  | reaping (received : List Signal) (pending : List ParentEvent)
  | left
  deriving DecidableEq, Repr

def ParentStage.ofSignals : List Signal → List ParentEvent → ParentStage
  | [], pending => .events pending
  | signal :: rest, pending => .signals (signal :: rest) pending

/-- A notification, with the table as it was when it was sent. -/
structure Dispatch (n : Nat) where
  pids : Fin n → Int
  slot : Fin n

structure ProcessPool (n : Nat) where
  /-- `m_sub_process[i].m_pid`. -/
  pids : Fin n → Int
  subProcessCounter : Fin n
  stop : Bool
  stage : ParentStage
  /-- The children that have not exited, and those that have and are not reaped. -/
  running : List Int
  exited : List Int
  /-- The calls of `send`, `close` on a parent end, and `kill` so far. -/
  dispatches : List (Dispatch n)
  closed : List (Fin n)
  kills : List (Fin n × Int)

inductive ParentLabel where
  /-- The child with this pid exits. -/
  | exit (pid : Int)
  | epollWait (events : List ParentEvent)
  /-- `epoll_wait` fails with an error other than `EINTR`. -/
  | epollFailure
  /-- The next event is on `m_listenfd`. -/
  | dispatch
  /-- The next event is on `sig_pipefd[0]`; nothing received when `recv` fails. -/
  | recv (received : List Signal)
  /-- The next event is on something else. -/
  | skip
  /-- The next of the signals received is handled. -/
  | signal
  /-- `waitpid(-1, &stat, WNOHANG)` returns a pid, or nothing more to reap. -/
  | waitpid (pid : Option Int)
  | leave
  deriving DecidableEq, Repr

namespace ProcessPool
variable {n : Nat}

/-- The parent's table after the constructor, with the pids `fork()` returned. -/
def create [NeZero n] (forked : Fin n → Int) : ProcessPool n where
  pids := forked
  subProcessCounter := 0
  stop := false
  stage := .events []
  running := List.ofFn forked
  exited := []
  dispatches := []
  closed := []
  kills := []

/-- The search `do … while (i != sub_process_counter)`. It makes at most one round, so
`n` iterations are enough. -/
def scan (pids : Fin n → Int) (counter : Fin n) : Nat → Fin n → Fin n
  | 0, i => i
  | fuel + 1, i =>
    if pids i ≠ -1 then i
    else if Cyclic.next i ≠ counter then scan pids counter fuel (Cyclic.next i)
    else Cyclic.next i

/-- The slot the search ends at. -/
def found (pool : ProcessPool n) : Fin n := scan pool.pids pool.subProcessCounter n pool.subProcessCounter

/-- The branch for an event on `m_listenfd`. Setting `m_stop` also ends the loop over the events. -/
def onListen (pool : ProcessPool n) (pending : List ParentEvent) : ProcessPool n :=
  if pool.pids pool.found = -1 then { pool with stop := true, stage := .events [] }
  else { pool with
    subProcessCounter := Cyclic.next pool.found
    dispatches := pool.dispatches ++ [⟨pool.pids, pool.found⟩]
    stage := .events pending }

/-- `if (m_sub_process[i].m_pid == pid)` over all slots. -/
def reap (pool : ProcessPool n) (pid : Int) : ProcessPool n :=
  { pool with
    closed := pool.closed ++ (List.finRange n).filter (fun slot => pool.pids slot = pid)
    pids := fun slot => if pool.pids slot = pid then -1 else pool.pids slot
    exited := pool.exited.erase pid }

/-- `kill(pid, SIGTERM)` for every slot in use. -/
def killAll (pool : ProcessPool n) : ProcessPool n :=
  { pool with
    kills := pool.kills ++
      ((List.finRange n).filter fun slot => pool.pids slot ≠ -1).map fun slot => (slot, pool.pids slot) }

def step (pool : ProcessPool n) : ParentLabel → Option (ProcessPool n)
  | .exit pid =>
    if pid ∈ pool.running then
      some { pool with running := pool.running.erase pid, exited := pid :: pool.exited }
    else none
  | .epollWait events =>
    if pool.stage = .events [] ∧ pool.stop = false then some { pool with stage := .events events } else none
  | .epollFailure =>
    if pool.stage = .events [] ∧ pool.stop = false then some { pool with stage := .left } else none
  | .dispatch =>
    match pool.stage with
    | .events (.listen :: pending) => some (pool.onListen pending)
    | _ => none
  | .recv received =>
    match pool.stage with
    | .events (.signals :: pending) => some { pool with stage := .ofSignals received pending }
    | _ => none
  | .skip =>
    match pool.stage with
    | .events (.other :: pending) => some { pool with stage := .events pending }
    | _ => none
  | .signal =>
    match pool.stage with
    | .signals (.sigchld :: received) pending => some { pool with stage := .reaping received pending }
    | .signals (.sigterm :: received) pending => some { pool.killAll with stage := .ofSignals received pending }
    | .signals (.sigint :: received) pending => some { pool.killAll with stage := .ofSignals received pending }
    | .signals (.sigpipe :: received) pending => some { pool with stage := .ofSignals received pending }
    | _ => none
  | .waitpid (some pid) =>
    match pool.stage with
    | .reaping _ _ => if pid ∈ pool.exited then some (pool.reap pid) else none
    | _ => none
  | .waitpid none =>
    match pool.stage with
    | .reaping received pending =>
      if pool.exited = [] then
        -- `m_stop = true`, and false again for every slot in use
        some { pool with stop := decide (∀ slot, pool.pids slot = -1), stage := .ofSignals received pending }
      else none
    | _ => none
  | .leave => if pool.stage = .events [] ∧ pool.stop = true then some { pool with stage := .left } else none

/-- The search passes only slots that are not in use, and ends after at most one round. -/
theorem scan_first {pids : Fin n → Int} {counter : Fin n} (fuel : Nat) (i : Fin n)
    (passed : ∀ slot, Cyclic.distance counter slot < Cyclic.distance counter i → pids slot = -1)
    (enough : n ≤ fuel + Cyclic.distance counter i) :
    Cyclic.First (fun slot => pids slot ≠ -1) counter (scan pids counter fuel i) ∨ ∀ slot, pids slot = -1 := by
  induction fuel generalizing i with
  | zero =>
    have bound := Cyclic.distance_lt counter i
    omega
  | succ fuel ih =>
    unfold scan
    by_cases used : pids i ≠ -1
    · rw [if_pos used]
      refine .inl ⟨used, fun other alive => ?_⟩
      by_contra nearer
      exact alive (passed other (by omega))
    · have through : ∀ slot, Cyclic.distance counter slot ≤ Cyclic.distance counter i → pids slot = -1 := by
        intro slot near
        rcases Nat.lt_or_eq_of_le near with nearer | same
        · exact passed slot nearer
        · rw [Cyclic.eq_of_distance_eq same]
          exact not_not.mp used
      rw [if_neg used]
      by_cases inner : Cyclic.next i ≠ counter
      · rw [if_pos inner]
        have further := Cyclic.distance_next inner
        exact ih (Cyclic.next i) (fun slot near => through slot (by omega)) (by omega)
      · have last := Cyclic.distance_of_next_eq (not_not.mp inner)
        refine .inr fun slot => through slot ?_
        have bound := Cyclic.distance_lt counter slot
        omega

theorem found_first (pool : ProcessPool n) :
    Cyclic.First (fun slot => pool.pids slot ≠ -1) pool.subProcessCounter pool.found ∨
      ∀ slot, pool.pids slot = -1 := by
  refine scan_first n pool.subProcessCounter (fun slot near => ?_) (Nat.le_add_right _ _)
  rw [Cyclic.distance_self] at near
  exact absurd near (Nat.not_lt_zero _)

/-- The search fails exactly when no slot is in use. -/
theorem found_unused_iff (pool : ProcessPool n) :
    pool.pids pool.found = -1 ↔ ∀ slot, pool.pids slot = -1 := by
  refine ⟨fun unused => ?_, fun all => all pool.found⟩
  rcases pool.found_first with first | all
  · exact absurd unused first.1
  · exact all

/-! ## What a step can do -/

/-- Everything but the stage and the processes is unchanged. -/
structure Quiet (pool next : ProcessPool n) : Prop where
  pids : next.pids = pool.pids
  counter : next.subProcessCounter = pool.subProcessCounter
  stop : next.stop = pool.stop
  dispatches : next.dispatches = pool.dispatches
  closed : next.closed = pool.closed
  kills : next.kills = pool.kills

inductive Change (pool next : ProcessPool n) : ParentLabel → Prop where
  | exit (pid : Int) (alive : pid ∈ pool.running) (running : next.running = pool.running.erase pid)
    (exited : next.exited = pid :: pool.exited) (quiet : Quiet pool next) : Change pool next (.exit pid)
  | dispatch (pending : List ParentEvent) (stage : pool.stage = .events (.listen :: pending))
    (done : next = pool.onListen pending) : Change pool next .dispatch
  | reap (pid : Int) (child : pid ∈ pool.exited) (done : next = pool.reap pid) :
    Change pool next (.waitpid (some pid))
  | reaped (stage : ParentStage) (nobody : pool.exited = [])
    (done : next = { pool with stop := decide (∀ slot, pool.pids slot = -1), stage := stage }) :
    Change pool next (.waitpid none)
  | kill (stage : ParentStage) (done : next = { pool.killAll with stage := stage }) : Change pool next .signal
  | quiet (label : ParentLabel) (running : next.running = pool.running) (exited : next.exited = pool.exited)
    (quiet : Quiet pool next) (listens : label ≠ .dispatch) (waits : ∀ pid, label ≠ .waitpid pid) :
    Change pool next label

/-- Only the stage changes. -/
theorem Change.turn (pool : ProcessPool n) (stage : ParentStage) {label : ParentLabel} (listens : label ≠ .dispatch)
    (waits : ∀ pid, label ≠ .waitpid pid) : Change pool { pool with stage := stage } label :=
  .quiet label rfl rfl ⟨rfl, rfl, rfl, rfl, rfl, rfl⟩ listens waits

theorem step_change {pool next : ProcessPool n} {label : ParentLabel} (taken : pool.step label = some next) :
    Change pool next label := by
  cases label with
  | exit pid =>
    dsimp only [step] at taken
    split_ifs at taken with alive
    cases taken
    exact .exit pid alive rfl rfl ⟨rfl, rfl, rfl, rfl, rfl, rfl⟩
  | epollWait events =>
    dsimp only [step] at taken
    split_ifs at taken
    cases taken
    exact .turn pool _ (by simp) (by simp)
  | epollFailure =>
    dsimp only [step] at taken
    split_ifs at taken
    cases taken
    exact .turn pool _ (by simp) (by simp)
  | dispatch =>
    dsimp only [step] at taken
    split at taken
    · next pending stage => exact .dispatch pending stage (Option.some.inj taken).symm
    · cases taken
  | recv received =>
    dsimp only [step] at taken
    split at taken
    · cases taken
      exact .turn pool _ (by simp) (by simp)
    · cases taken
  | skip =>
    dsimp only [step] at taken
    split at taken
    · cases taken
      exact .turn pool _ (by simp) (by simp)
    · cases taken
  | signal =>
    dsimp only [step] at taken
    split at taken
    · cases taken
      exact .turn pool _ (by simp) (by simp)
    · exact .kill _ (Option.some.inj taken).symm
    · exact .kill _ (Option.some.inj taken).symm
    · cases taken
      exact .turn pool _ (by simp) (by simp)
    · cases taken
  | waitpid pid =>
    cases pid with
    | some pid =>
      dsimp only [step] at taken
      split at taken
      · split_ifs at taken with child
        exact .reap pid child (Option.some.inj taken).symm
      · cases taken
    | none =>
      dsimp only [step] at taken
      split at taken
      · split_ifs at taken with empty
        exact .reaped _ empty (Option.some.inj taken).symm
      · cases taken
  | leave =>
    dsimp only [step] at taken
    split_ifs at taken
    cases taken
    exact .turn pool _ (by simp) (by simp)

@[simp] theorem onListen_pids (pool : ProcessPool n) (pending : List ParentEvent) :
    (pool.onListen pending).pids = pool.pids := by
  unfold onListen
  split_ifs <;> rfl

/-- A slot that is out of use stays so. -/
theorem step_unused {pool next : ProcessPool n} {label : ParentLabel} (taken : pool.step label = some next)
    {slot : Fin n} (unused : pool.pids slot = -1) : next.pids slot = -1 := by
  cases step_change taken with
  | exit pid alive running exited quiet => rw [quiet.pids, unused]
  | dispatch pending stage done => rw [done, onListen_pids, unused]
  | reap pid child done =>
    rw [done]
    simp [reap, unused]
  | reaped stage nobody done => rw [done, unused]
  | kill stage done => rw [done]; exact unused
  | quiet label running exited quiet => rw [quiet.pids, unused]

end ProcessPool
end UnixProgramming.Pool

import UnixProgramming.Pool.Fragmentation

/-! The loop of `process_read` turn by turn, and the calls on a connection. The turns are
followed without regard to whether the loop ends. -/

namespace UnixProgramming.Pool.HttpConn

open UnixProgramming.Lib

/-- The object and `line_status` where the loop evaluates its condition. -/
structure LoopState where
  conn : HttpConn
  status : LineStatus
deriving DecidableEq, Repr

namespace LoopState

/-- The condition calls `parse_line`. -/
def Parses (state : LoopState) : Prop := ¬ (state.conn.checkState = .connect ∧ state.status = .ok)

instance (state : LoopState) : Decidable state.Parses :=
  inferInstanceAs (Decidable (¬ (state.conn.checkState = .connect ∧ state.status = .ok)))

/-- The object the body of the loop finds, if the condition holds. -/
def ready (state : LoopState) : Option HttpConn :=
  match state.conn.loopCondition state.status with
  | (.ok, ready) => some ready
  | _ => none

/-- Where the loop goes on, if the body does not return. -/
def next (fs : FileSystem) (state : LoopState) : Option LoopState :=
  state.ready.bind fun ready =>
    match processLine fs ready with
    | (.loop status, conn) => some ⟨conn, status⟩
    | (.done _, _) => none

/-- What the loop returns if it does not go on. -/
def result (fs : FileSystem) (state : LoopState) : HttpCode × HttpConn :=
  match state.ready.map (processLine fs) with
  | some (.done code, conn) => (code, conn)
  | _ => (.noRequest, (state.conn.loopCondition state.status).2)

/-- The places the loop comes to in so many turns. -/
def visits (fs : FileSystem) : Nat → LoopState → List LoopState
  | 0, _ => []
  | turns + 1, state => state :: ((state.next fs).map (visits fs turns)).getD []

variable {fs : FileSystem} {state later : LoopState} {ready : HttpConn}

theorem ready_eq_some : state.ready = some ready ↔ state.conn.loopCondition state.status = (.ok, ready) := by
  unfold LoopState.ready
  split
  · next found same => rw [same, Option.some.injEq, Prod.mk.injEq, and_iff_right rfl]
  · next other =>
    refine iff_of_false nofun fun same => other ready same

theorem next_eq_some : state.next fs = some later ↔
    ∃ ready, state.ready = some ready ∧ processLine fs ready = (.loop later.status, later.conn) := by
  unfold LoopState.next
  rw [Option.bind_eq_some_iff]
  refine exists_congr fun ready => and_congr_right fun _ => ?_
  split
  · next status conn body =>
    rw [body, Option.some.injEq]
    cases later
    simp [and_comm]
  · next code conn body => simp [body]

/-- What every turn keeps holds wherever the loop comes to. -/
theorem visits_invariant {invariant : LoopState → Prop}
    (preserved : ∀ state later, invariant state → state.next fs = some later → invariant later) {turns : Nat}
    {start state : LoopState} (holds : invariant start) (visited : state ∈ visits fs turns start) : invariant state := by
  induction turns generalizing start with
  | zero => cases visited
  | succ turns ih =>
    rw [visits] at visited
    rcases List.mem_cons.mp visited with rfl | behind
    · exact holds
    · cases goes : start.next fs with
      | none => simp [goes] at behind
      | some later =>
        rw [goes, Option.map_some, Option.getD_some] at behind
        exact ih (preserved start later holds goes) behind

theorem processReadLoop_next (fs : FileSystem) (state : LoopState) :
    processReadLoop fs state.conn state.status =
      ((state.next fs).map fun later => processReadLoop fs later.conn later.status).getD (state.result fs) := by
  rcases condition : state.conn.loopCondition state.status with ⟨status, found⟩
  by_cases holds : status = .ok
  · subst holds
    have ready := ready_eq_some.mpr condition
    rcases body : processLine fs found with ⟨result, conn⟩
    cases result with
    | done code => simp [LoopState.next, result, ready, body, processReadLoop_return condition body]
    | loop after => simp [LoopState.next, ready, body, processReadLoop_continue condition body]
  · have stops : state.ready = none := by
      rw [Option.eq_none_iff_forall_not_mem]
      intro ready found
      have same := ready_eq_some.mp found
      rw [condition] at same
      exact holds (congrArg Prod.fst same)
    simp [LoopState.next, result, stops, condition, processReadLoop_stop condition holds]

end LoopState

/-- What `parse_line` and the body of the loop keep. -/
structure Kept (invariant : HttpConn → Prop) : Prop where
  scan : ∀ conn, invariant conn → invariant conn.parseLine.2
  line : ∀ fs conn, invariant conn → invariant (processLine fs conn).2

namespace Kept
variable {invariant : HttpConn → Prop} {fs : FileSystem} {conn found : HttpConn} {state : LoopState}

theorem condition (kept : Kept invariant) (holds : invariant conn) (status : LineStatus) :
    invariant (conn.loopCondition status).2 := by
  unfold loopCondition
  split_ifs
  · exact holds
  · exact kept.scan conn holds

theorem ready (kept : Kept invariant) (holds : invariant state.conn) (ready : state.ready = some found) :
    invariant found := by
  have here := kept.condition holds state.status
  rwa [LoopState.ready_eq_some.mp ready] at here

theorem visits (kept : Kept invariant) (holds : invariant conn) {status : LineStatus} {turns : Nat}
    (visited : state ∈ LoopState.visits fs turns ⟨conn, status⟩) : invariant state.conn := by
  refine @LoopState.visits_invariant fs (fun state => invariant state.conn) (fun state later holds goes => ?_) _ _ _
    holds visited
  obtain ⟨ready, found, body⟩ := LoopState.next_eq_some.mp goes
  have after := kept.line fs ready (kept.ready holds found)
  rwa [body] at after

theorem processReadLoop (kept : Kept invariant) (holds : invariant conn) (status : LineStatus) :
    invariant (HttpConn.processReadLoop fs conn status).2 := by
  fun_induction HttpConn.processReadLoop fs conn status with
  | case1 conn status ready condition code next body =>
    have found : invariant ready := by simpa [condition] using kept.condition holds status
    simpa [body] using kept.line fs ready found
  | case2 conn status ready condition after next body ih =>
    have found : invariant ready := by simpa [condition] using kept.condition holds status
    exact ih (by simpa [body] using kept.line fs ready found)
  | case3 conn status found next other condition =>
    simpa [condition] using kept.condition holds status

end Kept

/-! ## Calls -/

/-- A call on a connection. -/
inductive ConnCall where
  | read (outcomes : List Recv)
  | processRead (fs : FileSystem)

def perform (conn : HttpConn) : ConnCall → HttpConn
  | .read outcomes => (conn.read outcomes).2
  | .processRead fs => (processRead fs conn).2

/-- The object after so many calls. -/
def performAll (conn : HttpConn) (calls : List ConnCall) : HttpConn := calls.foldl perform conn

/-- What `read` keeps as well holds after any calls. -/
theorem Kept.performAll {invariant : HttpConn → Prop} (kept : Kept invariant)
    (reads : ∀ conn outcomes, invariant conn → invariant (conn.read outcomes).2) {conn : HttpConn}
    (holds : invariant conn) (calls : List ConnCall) : invariant (conn.performAll calls) := by
  induction calls generalizing conn with
  | nil => exact holds
  | cons call rest ih =>
    refine ih ?_
    cases call with
    | read outcomes => exact reads conn outcomes holds
    | processRead fs => exact kept.processReadLoop holds .ok

end UnixProgramming.Pool.HttpConn

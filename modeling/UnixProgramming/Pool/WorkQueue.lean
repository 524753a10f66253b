import UnixProgramming.Lib.Run
import UnixProgramming.Lib.Tally

/-! The request queue of the thread pool under any number of `append()` callers and
workers. The critical sections under `m_queuelocker` are single steps; the semaphore is
posted after the lock is released, and what `wait()` returns is ignored. -/

namespace UnixProgramming.Pool

open UnixProgramming.Lib

universe u

/-- One `append()`ed pointer; the serial number tells equal pointers apart. -/
structure Job (Request : Type u) where
  serial : Nat
  request : Option Request
  deriving DecidableEq, Repr

inductive AppendStage (Request : Type u) where
  | outside
  /-- The request is in the queue, the semaphore is not posted. -/
  | pushed (job : Job Request)
  deriving DecidableEq, Repr

inductive RunStage (Request : Type u) where
  | waiting
  /-- `m_queuestat.wait()` has returned. -/
  | woken
  | holding (job : Job Request)
  deriving DecidableEq, Repr

structure ThreadPool (Caller Worker : Type) (Request : Type u) where
  workqueue : List (Job Request)
  queuestat : Nat
  callers : Caller → AppendStage Request
  workers : Worker → RunStage Request
  /-- All jobs pushed, taken and run so far, and those whose `append()` returned true. -/
  pushed : List (Job Request)
  dequeued : List (Job Request)
  ran : List (Job Request)
  accepted : List (Job Request)

inductive PoolLabel (Caller Worker : Type) (Request : Type u) where
  | append (caller : Caller) (request : Option Request)
  | post (caller : Caller)
  /-- `m_queuestat.wait()` returns with the semaphore decremented. -/
  | wait (worker : Worker)
  /-- `m_queuestat.wait()` returns early. -/
  | interrupt (worker : Worker)
  | dequeue (worker : Worker)
  | process (worker : Worker)

namespace ThreadPool
variable {Caller Worker : Type} {Request : Type u} [DecidableEq Caller] [DecidableEq Worker]

def initial : ThreadPool Caller Worker Request where
  workqueue := []
  queuestat := 0
  callers := fun _ => .outside
  workers := fun _ => .waiting
  pushed := []
  dequeued := []
  ran := []
  accepted := []

/-- The steps of `append()` and of `run()` while `m_stop` is false. -/
def step (maxRequests : Nat) (pool : ThreadPool Caller Worker Request) :
    PoolLabel Caller Worker Request → Option (ThreadPool Caller Worker Request)
  | .append caller request =>
    match pool.callers caller with
    | .pushed _ => none
    | .outside =>
      if pool.workqueue.length > maxRequests then some pool
      else
        let job := ⟨pool.pushed.length, request⟩
        some { pool with
          workqueue := pool.workqueue ++ [job]
          pushed := pool.pushed ++ [job]
          callers := Function.update pool.callers caller (.pushed job) }
  | .post caller =>
    match pool.callers caller with
    | .outside => none
    | .pushed job =>
      some { pool with
        queuestat := pool.queuestat + 1
        accepted := pool.accepted ++ [job]
        callers := Function.update pool.callers caller .outside }
  | .wait worker =>
    match pool.workers worker, pool.queuestat with
    | .waiting, count + 1 =>
      some { pool with queuestat := count, workers := Function.update pool.workers worker .woken }
    | _, _ => none
  | .interrupt worker =>
    match pool.workers worker with
    | .waiting => some { pool with workers := Function.update pool.workers worker .woken }
    | _ => none
  | .dequeue worker =>
    match pool.workers worker, pool.workqueue with
    | .woken, [] => some { pool with workers := Function.update pool.workers worker .waiting }
    | .woken, job :: rest =>
      some { pool with
        workqueue := rest
        dequeued := pool.dequeued ++ [job]
        workers := Function.update pool.workers worker (.holding job) }
    | _, _ => none
  | .process worker =>
    match pool.workers worker with
    | .holding job =>
      -- a null pointer is skipped
      some { pool with
        ran := if job.request.isSome then pool.ran ++ [job] else pool.ran
        workers := Function.update pool.workers worker .waiting }
    | _ => none

/-! ## Counting -/

/-- A semaphore increment is still owed. -/
def owes : AppendStage Request → Nat
  | .outside => 0
  | .pushed _ => 1

/-- A wake-up is taken and not yet used. -/
def wakes : RunStage Request → Nat
  | .woken => 1
  | _ => 0

/-- The worker is about to run the job with this serial number. -/
def holds (serial : Nat) : RunStage Request → Nat
  | .holding job => if job.serial = serial then 1 else 0
  | _ => 0

def serials (jobs : List (Job Request)) : List Nat := jobs.map (·.serial)

variable [Fintype Caller] [Fintype Worker]

/-- The queue is what was pushed and not taken, in order; every queued job is covered by
the semaphore, by a worker on its way to the queue or by a caller yet to post. -/
structure Counted (pool : ThreadPool Caller Worker Request) : Prop where
  order : pool.dequeued ++ pool.workqueue = pool.pushed
  numbered : serials pool.pushed = List.range pool.pushed.length
  covered : pool.workqueue.length ≤ pool.queuestat + tally wakes pool.workers + tally owes pool.callers
  once : ∀ serial, (serials pool.ran).count serial + tally (holds serial) pool.workers ≤
    (serials pool.dequeued).count serial
  entered : ∀ caller job, pool.callers caller = .pushed job → job ∈ pool.pushed
  accepted : pool.accepted ⊆ pool.pushed

variable {pool next : ThreadPool Caller Worker Request} {maxRequests : Nat}

omit [DecidableEq Caller] [DecidableEq Worker] in
theorem Counted.initial : Counted (initial : ThreadPool Caller Worker Request) where
  order := rfl
  numbered := rfl
  covered := Nat.zero_le _
  once := fun serial => by simp [ThreadPool.initial, serials, tally, holds]
  entered := fun caller job same => by cases same
  accepted := List.nil_subset _

theorem Counted.append (counted : pool.Counted) {caller : Caller} {request : Option Request}
    (taken : pool.step maxRequests (.append caller request) = some next) : next.Counted := by
  obtain ⟨order, numbered, covered, once, entered, accepted⟩ := counted
  dsimp only [step] at taken
  split at taken
  · cases taken
  next outside =>
  split_ifs at taken with full
  · cases taken
    exact ⟨order, numbered, covered, once, entered, accepted⟩
  · cases taken
    have owed := tally_update owes pool.callers caller (.pushed ⟨pool.pushed.length, request⟩)
    rw [outside] at owed
    simp only [owes] at owed
    refine ⟨?_, ?_, ?_, once, ?_, ?_⟩
    · rw [← order, List.append_assoc]
    · simp only [serials, List.map_append, List.map_cons, List.map_nil, List.length_append,
        List.length_singleton, List.range_succ]
      rw [← numbered, serials]
    · simp only [List.length_append, List.length_singleton]
      omega
    · intro other job same
      dsimp only at same
      rw [List.mem_append, List.mem_singleton]
      by_cases this : other = caller
      · rw [this, Function.update_self] at same
        cases same
        exact .inr rfl
      · rw [Function.update_of_ne this] at same
        exact .inl (entered other job same)
    · exact fun job member => List.mem_append_left _ (accepted member)

theorem Counted.post (counted : pool.Counted) {caller : Caller}
    (taken : pool.step maxRequests (.post caller) = some next) : next.Counted := by
  obtain ⟨order, numbered, covered, once, entered, accepted⟩ := counted
  dsimp only [step] at taken
  split at taken
  · cases taken
  next job stage =>
  cases taken
  have owed := tally_update owes pool.callers caller .outside
  rw [stage] at owed
  simp only [owes] at owed
  refine ⟨order, numbered, ?_, once, ?_, ?_⟩
  · dsimp only
    omega
  · intro other held same
    dsimp only at same
    by_cases this : other = caller
    · rw [this, Function.update_self] at same
      cases same
    · rw [Function.update_of_ne this] at same
      exact entered other held same
  · exact List.append_subset.mpr ⟨accepted, by simpa using entered caller job stage⟩

omit [DecidableEq Caller] in
/-- A worker changes its stage without touching the jobs. -/
theorem Counted.turn (counted : pool.Counted) {worker : Worker} {stage : RunStage Request} {count : Nat}
    (covers : pool.workqueue.length ≤
      count + tally wakes (Function.update pool.workers worker stage) + tally owes pool.callers)
    (free : ∀ serial, holds serial stage = 0) :
    Counted { pool with queuestat := count, workers := Function.update pool.workers worker stage } := by
  obtain ⟨order, numbered, covered, once, entered, accepted⟩ := counted
  refine ⟨order, numbered, covers, fun serial => ?_, entered, accepted⟩
  have held := tally_update (holds serial) pool.workers worker stage
  rw [free serial] at held
  have before := once serial
  dsimp only
  omega

theorem Counted.wait (counted : pool.Counted) {worker : Worker}
    (taken : pool.step maxRequests (.wait worker) = some next) : next.Counted := by
  have covered := counted.covered
  dsimp only [step] at taken
  split at taken
  · next count stage positive =>
    cases taken
    have woken := tally_update wakes pool.workers worker .woken
    rw [stage] at woken
    simp only [wakes] at woken
    exact counted.turn (by omega) fun serial => rfl
  · cases taken

theorem Counted.interrupt (counted : pool.Counted) {worker : Worker}
    (taken : pool.step maxRequests (.interrupt worker) = some next) : next.Counted := by
  have covered := counted.covered
  dsimp only [step] at taken
  split at taken
  · next stage =>
    cases taken
    have woken := tally_update wakes pool.workers worker .woken
    rw [stage] at woken
    simp only [wakes] at woken
    exact counted.turn (by omega) fun serial => rfl
  · cases taken

theorem Counted.dequeue (counted : pool.Counted) {worker : Worker}
    (taken : pool.step maxRequests (.dequeue worker) = some next) : next.Counted := by
  dsimp only [step] at taken
  split at taken
  · next stage empty =>
    cases taken
    exact counted.turn (by simp [empty]) fun serial => rfl
  · next job rest stage front =>
    cases taken
    obtain ⟨order, numbered, covered, once, entered, accepted⟩ := counted
    have woken := tally_update wakes pool.workers worker (.holding job)
    rw [stage] at woken
    simp only [wakes] at woken
    rw [front, List.length_cons] at covered
    refine ⟨?_, numbered, ?_, fun serial => ?_, entered, accepted⟩
    · rw [← order, front, List.append_assoc, List.singleton_append]
    · dsimp only
      omega
    · have held := tally_update (holds serial) pool.workers worker (.holding job)
      rw [stage] at held
      simp only [holds] at held
      have before := once serial
      simp only [serials, List.map_append, List.map_cons, List.map_nil, List.count_append,
        List.count_singleton, beq_iff_eq] at before ⊢
      omega
  · cases taken

theorem Counted.process (counted : pool.Counted) {worker : Worker}
    (taken : pool.step maxRequests (.process worker) = some next) : next.Counted := by
  dsimp only [step] at taken
  split at taken
  · next job stage =>
    cases taken
    obtain ⟨order, numbered, covered, once, entered, accepted⟩ := counted
    have woken := tally_update wakes pool.workers worker .waiting
    rw [stage] at woken
    simp only [wakes] at woken
    refine ⟨order, numbered, ?_, fun serial => ?_, entered, accepted⟩
    · dsimp only
      omega
    · have held := tally_update (holds serial) pool.workers worker .waiting
      rw [stage] at held
      simp only [holds] at held
      have before := once serial
      dsimp only
      split_ifs
      · simp only [serials, List.map_append, List.map_cons, List.map_nil, List.count_append,
          List.count_singleton, beq_iff_eq] at before ⊢
        omega
      · omega
  · cases taken

theorem Counted.step (counted : pool.Counted) {label : PoolLabel Caller Worker Request}
    (taken : pool.step maxRequests label = some next) : next.Counted := by
  cases label with
  | append caller request => exact counted.append taken
  | post caller => exact counted.post taken
  | wait worker => exact counted.wait taken
  | interrupt worker => exact counted.interrupt taken
  | dequeue worker => exact counted.dequeue taken
  | process worker => exact counted.process taken

/-- The work queue loses no request and runs none twice, in every interleaving. Jobs leave
the queue in the order they entered it, each at most once; and when the semaphore is 0, no
worker is between `wait()` and the queue and no caller is between push and post, nothing is
left in the queue. -/
theorem workqueue_loses_nothing (labels : List (PoolLabel Caller Worker Request))
    (reached : run (step maxRequests) initial labels = some pool) :
    pool.dequeued ++ pool.workqueue = pool.pushed ∧ pool.accepted ⊆ pool.pushed ∧
      (serials pool.pushed).Nodup ∧ (serials pool.dequeued).Nodup ∧ (serials pool.ran).Nodup ∧
      (pool.queuestat = 0 → (∀ worker, pool.workers worker ≠ .woken) →
        (∀ caller, pool.callers caller = .outside) → pool.workqueue = []) := by
  have counted : pool.Counted := run_invariant
    (fun state label next kept taken => kept.step taken) Counted.initial reached
  have distinct : (serials pool.pushed).Nodup := counted.numbered ▸ List.nodup_range
  have taken : (serials pool.dequeued).Nodup := by
    rw [← counted.order, serials, List.map_append] at distinct
    exact distinct.of_append_left
  refine ⟨counted.order, counted.accepted, distinct, taken, ?_, fun zero asleep outside => ?_⟩
  · apply List.nodup_iff_count_le_one.mpr
    intro serial
    have once := counted.once serial
    have single := List.nodup_iff_count_le_one.mp taken serial
    omega
  · have woken : tally wakes pool.workers = 0 := by
      refine tally_eq_zero.mpr fun worker => ?_
      have other := asleep worker
      cases stage : pool.workers worker <;> simp_all [wakes]
    have owed : tally owes pool.callers = 0 :=
      tally_eq_zero.mpr fun caller => by rw [outside caller, owes]
    have covered := counted.covered
    exact List.eq_nil_of_length_eq_zero (by omega)

/-- Two callers post late, and one worker is woken early: the semaphore runs ahead of the
queue and comes back to 0. -/
def latePosts : List (PoolLabel (Fin 2) (Fin 2) Unit) :=
  [.append 0 (some ()), .append 1 none, .interrupt 0, .dequeue 0, .post 1, .wait 1, .dequeue 1, .process 0,
    .post 0, .process 1, .wait 0, .dequeue 0]

theorem workqueue_loses_nothing_late :
    ∃ pool, run (step 1) initial latePosts = some pool ∧ serials pool.ran = [0] ∧
      (serials pool.dequeued).Nodup ∧ pool.workqueue = [] := by
  have computed :
    (run (step 1) initial latePosts).map (fun pool =>
      (serials pool.ran, pool.queuestat, decide (∀ worker, pool.workers worker ≠ .woken),
        decide (∀ caller, pool.callers caller = .outside))) = some ([0], 0, true, true) := by decide +kernel
  obtain ⟨pool, reached, same⟩ := Option.map_eq_some_iff.mp computed
  simp only [Prod.mk.injEq, decide_eq_true_eq] at same
  obtain ⟨ran, zero, asleep, outside⟩ := same
  obtain ⟨-, -, -, once, -, drained⟩ := workqueue_loses_nothing latePosts reached
  exact ⟨pool, reached, ran, once, drained zero asleep outside⟩

end ThreadPool
end UnixProgramming.Pool

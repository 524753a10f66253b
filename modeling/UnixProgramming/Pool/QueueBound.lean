import UnixProgramming.Pool.WorkQueue

/-! The bound on the request queue. `append()` compares the size with `m_max_requests` before it
pushes, and refuses only when the queue is already longer. -/

namespace UnixProgramming.Pool.ThreadPool

open UnixProgramming.Lib

universe u
variable {Caller Worker : Type} {Request : Type u} [DecidableEq Caller] [DecidableEq Worker]
  {pool next : ThreadPool Caller Worker Request} {maxRequests : Nat}

/-- No more than so many requests wait. -/
def Within (bound : Nat) (pool : ThreadPool Caller Worker Request) : Prop := pool.workqueue.length ≤ bound

/-- What `append()` returns from its critical section. -/
def appends (maxRequests : Nat) (pool : ThreadPool Caller Worker Request) : Bool :=
  decide (¬ pool.workqueue.length > maxRequests)

/-- A caller is about to enter `append()`. -/
def Calls (pool : ThreadPool Caller Worker Request) (label : PoolLabel Caller Worker Request) : Prop :=
  ∃ caller request, label = .append caller request ∧ pool.callers caller = .outside

/-- What the comment on `max_requests` promises: no more than so many requests wait, and an
`append()` returns false exactly when so many do, and then nothing changes. -/
structure Promised (maxRequests : Nat) (pool : ThreadPool Caller Worker Request)
    (label : PoolLabel Caller Worker Request) : Prop where
  bounded : pool.Within maxRequests
  refuses : pool.Calls label → (pool.appends maxRequests = false ↔ pool.workqueue.length = maxRequests)
  unchanged : pool.Calls label → pool.appends maxRequests = false → pool.step maxRequests label = some pool

/-- No caller enters `append()` while the queue is just full. -/
def NotFull (maxRequests : Nat) (pool : ThreadPool Caller Worker Request)
    (label : PoolLabel Caller Worker Request) : Prop :=
  pool.Calls label → pool.workqueue.length ≠ maxRequests

theorem step_refused {label : PoolLabel Caller Worker Request} (calls : pool.Calls label)
    (refused : pool.appends maxRequests = false) : pool.step maxRequests label = some pool := by
  obtain ⟨caller, request, rfl, outside⟩ := calls
  have full : pool.workqueue.length > maxRequests := by simpa [appends] using refused
  simp only [step, outside, if_pos full]

/-- Only an `append()` that is not refused makes the queue longer, by one. -/
theorem step_length {label : PoolLabel Caller Worker Request} (taken : pool.step maxRequests label = some next) :
    next.workqueue.length ≤ pool.workqueue.length ∨
      pool.Calls label ∧ pool.workqueue.length ≤ maxRequests ∧
        next.workqueue.length = pool.workqueue.length + 1 := by
  cases label with
  | append caller request =>
    dsimp only [step] at taken
    split at taken
    · cases taken
    next outside =>
    split_ifs at taken with full
    · cases taken
      exact .inl le_rfl
    · cases taken
      exact .inr ⟨⟨caller, request, rfl, outside⟩, Nat.le_of_not_lt full, by simp⟩
  | post caller =>
    dsimp only [step] at taken
    split at taken
    · cases taken
    · cases taken
      exact .inl le_rfl
  | wait worker =>
    dsimp only [step] at taken
    split at taken
    · cases taken
      exact .inl le_rfl
    · cases taken
  | interrupt worker =>
    dsimp only [step] at taken
    split at taken
    · cases taken
      exact .inl le_rfl
    · cases taken
  | dequeue worker =>
    dsimp only [step] at taken
    split at taken
    · cases taken
      exact .inl le_rfl
    · next front =>
      cases taken
      exact .inl (by simp [front])
    · cases taken
  | process worker =>
    dsimp only [step] at taken
    split at taken
    · cases taken
      exact .inl le_rfl
    · cases taken

/-- Below the bound the promise comes down to the one comparison. -/
theorem promised_iff (bounded : pool.Within maxRequests) (label : PoolLabel Caller Worker Request) :
    Promised maxRequests pool label ↔ NotFull maxRequests pool label := by
  have accepts : pool.appends maxRequests = true := by simpa [appends, Within] using bounded
  constructor
  · intro promised calls full
    have refused := (promised.refuses calls).mpr full
    rw [accepts] at refused
    cases refused
  · intro notFull
    refine ⟨bounded, fun calls => ?_, fun calls refused => step_refused calls refused⟩
    rw [accepts]
    exact iff_of_false (by decide) (notFull calls)

theorem Within.step {label : PoolLabel Caller Worker Request} (bounded : pool.Within maxRequests)
    (notFull : NotFull maxRequests pool label) (taken : pool.step maxRequests label = some next) :
    next.Within maxRequests := by
  rcases step_length taken with shorter | ⟨calls, room, longer⟩
  · exact shorter.trans bounded
  · have less := notFull calls
    rw [Within, longer]
    omega

omit [DecidableEq Caller] [DecidableEq Worker] in
theorem Within.initial (bound : Nat) : Within bound (initial : ThreadPool Caller Worker Request) :=
  Nat.zero_le bound

/-- In every interleaving one request more than `m_max_requests` may wait, and never two. -/
theorem workqueue_length_le {labels : List (PoolLabel Caller Worker Request)}
    (reached : run (step maxRequests) initial labels = some pool) : pool.Within (maxRequests + 1) := by
  refine run_invariant (fun state label next bounded taken => ?_) (Within.initial (maxRequests + 1)) reached
  rcases step_length taken with shorter | ⟨-, room, longer⟩
  · exact shorter.trans bounded
  · rw [Within, longer]
    omega

/-- A run keeps the promise exactly when no `append()` comes while `m_max_requests` requests wait. -/
theorem workqueue_bounded_iff (maxRequests : Nat) (labels : List (PoolLabel Caller Worker Request)) :
    (Meets (step maxRequests) (Promised maxRequests) initial labels ∧
      ∀ final, run (step maxRequests) initial labels = some final → final.Within maxRequests) ↔
    Meets (step maxRequests) (NotFull maxRequests) initial labels := by
  have along : Meets (step maxRequests) (Promised maxRequests) initial labels ↔
      Meets (step maxRequests) (NotFull maxRequests) initial labels := by
    refine meets_congr ?_ ?_ (Within.initial maxRequests) (meets_trivial initial labels)
    · exact fun state label bounded _ => promised_iff bounded label
    · exact fun state label next bounded _ promised taken =>
        bounded.step ((promised_iff bounded label).mp promised) taken
  constructor
  · exact fun kept => along.mp kept.1
  · intro meets
    refine ⟨along.mpr meets, fun final reached => ?_⟩
    exact run_invariant_of_meets (fun state label next bounded notFull taken => bounded.step notFull taken)
      (Within.initial maxRequests) meets reached

/-- Two `append()`s with no worker running fill a queue that is to hold one request. -/
theorem full_queue_appends :
    ∃ pool : ThreadPool (Fin 2) (Fin 1) Unit,
      run (step 1) initial [.append 0 (some ()), .append 1 (some ())] = some pool ∧ pool.workqueue.length = 2 ∧
      ¬ Meets (step 1) (Promised 1) (initial : ThreadPool (Fin 2) (Fin 1) Unit)
        [.append 0 (some ()), .append 1 (some ())] := by
  have computed : (run (step 1) (initial : ThreadPool (Fin 2) (Fin 1) Unit)
      [.append 0 (some ()), .append 1 (some ())]).map (·.workqueue.length) = some 2 := by decide +kernel
  obtain ⟨pool, reached, long⟩ := Option.map_eq_some_iff.mp computed
  refine ⟨pool, reached, long, fun promised => ?_⟩
  obtain ⟨-, later⟩ := promised
  have second := (later _ rfl).1
  have full := (second.refuses ⟨1, some (), rfl, rfl⟩).mpr rfl
  cases full

end UnixProgramming.Pool.ThreadPool

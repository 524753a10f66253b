import UnixProgramming.Pool.PoolSignals

/-! The parent of the pool and its signals. What it has to learn of its children is on its
way to it: exited children that are not reaped have a `SIGCHLD` that is not handled. -/

namespace UnixProgramming.Pool

open UnixProgramming.Lib

namespace ParentStage

def pending : ParentStage → List ParentEvent
  | .events pending => pending
  | .signals _ pending => pending
  | .reaping _ pending => pending
  | .left => []

def received : ParentStage → List Signal
  | .signals received _ => received
  | .reaping received _ => received
  | _ => []

def reaps : ParentStage → Bool
  | .reaping _ _ => true
  | _ => false

/-- The price of what the parent has at hand, with a price for a signal and one for an event
on `m_listenfd`. -/
def weight (signal listen : Nat) : ParentStage → Nat
  | .events pending => 1 + pending.length + listen * pending.count .listen
  | .signals received pending => 1 + signal * received.length + pending.length + listen * pending.count .listen
  | .reaping received pending => 2 + signal * received.length + pending.length + listen * pending.count .listen
  | .left => 0

section Simp
variable (signals : List Signal) (events : List ParentEvent)

@[simp] theorem pending_events : (ParentStage.events events).pending = events := rfl

@[simp] theorem pending_signals : (ParentStage.signals signals events).pending = events := rfl

@[simp] theorem pending_reaping : (ParentStage.reaping signals events).pending = events := rfl

@[simp] theorem received_events : (ParentStage.events events).received = [] := rfl

@[simp] theorem received_signals : (ParentStage.signals signals events).received = signals := rfl

@[simp] theorem received_reaping : (ParentStage.reaping signals events).received = signals := rfl

@[simp] theorem received_left : ParentStage.left.received = [] := rfl

@[simp] theorem reaps_events : (ParentStage.events events).reaps = false := rfl

@[simp] theorem reaps_signals : (ParentStage.signals signals events).reaps = false := rfl

@[simp] theorem reaps_reaping : (ParentStage.reaping signals events).reaps = true := rfl

@[simp] theorem reaps_left : ParentStage.left.reaps = false := rfl

end Simp

@[simp] theorem ofSignals_received (signals : List Signal) (pending : List ParentEvent) :
    (ofSignals signals pending).received = signals := by
  cases signals <;> rfl

@[simp] theorem ofSignals_pending (signals : List Signal) (pending : List ParentEvent) :
    (ofSignals signals pending).pending = pending := by
  cases signals <;> rfl

@[simp] theorem ofSignals_reaps (signals : List Signal) (pending : List ParentEvent) :
    (ofSignals signals pending).reaps = false := by
  cases signals <;> rfl

theorem ofSignals_ne_left (signals : List Signal) (pending : List ParentEvent) : ofSignals signals pending ≠ .left := by
  cases signals <;> simp [ofSignals]

theorem ofSignals_ne_signals_nil (signals : List Signal) (pending other : List ParentEvent) :
    ofSignals signals pending ≠ .signals [] other := by
  cases signals <;> simp [ofSignals]

end ParentStage

namespace ProcessPool
variable {n : Nat} {pool next : ProcessPool n} {label : ParentLabel}

/-- The steps of the parent, with what it is at before and after. -/
inductive Turn (pool : ProcessPool n) : ParentLabel → ProcessPool n → Prop where
  | epollWait (events : List ParentEvent) (stage : pool.stage = .events []) (runs : pool.stop = false) :
    Turn pool (.epollWait events) { pool with stage := .events events }
  | epollFailure (stage : pool.stage = .events []) : Turn pool .epollFailure { pool with stage := .left }
  | dispatch (pending : List ParentEvent) (stage : pool.stage = .events (.listen :: pending)) :
    Turn pool .dispatch (pool.onListen pending)
  | recv (received : List Signal) (pending : List ParentEvent) (stage : pool.stage = .events (.signals :: pending)) :
    Turn pool (.recv received) { pool with stage := .ofSignals received pending }
  | skip (pending : List ParentEvent) (stage : pool.stage = .events (.other :: pending)) :
    Turn pool .skip { pool with stage := .events pending }
  | sigchld (received : List Signal) (pending : List ParentEvent)
    (stage : pool.stage = .signals (.sigchld :: received) pending) :
    Turn pool .signal { pool with stage := .reaping received pending }
  | terminate (signal : Signal) (received : List Signal) (pending : List ParentEvent)
    (stage : pool.stage = .signals (signal :: received) pending) (terminates : pool.stage.terminates = true) :
    Turn pool .signal { pool.killAll with stage := .ofSignals received pending }
  | sigpipe (received : List Signal) (pending : List ParentEvent)
    (stage : pool.stage = .signals (.sigpipe :: received) pending) :
    Turn pool .signal { pool with stage := .ofSignals received pending }
  | reap (pid : Int) (stage : pool.stage.reaps = true) (child : pid ∈ pool.exited) :
    Turn pool (.waitpid (some pid)) (pool.reap pid)
  | reaped (received : List Signal) (pending : List ParentEvent) (stage : pool.stage = .reaping received pending)
    (nobody : pool.exited = []) :
    Turn pool (.waitpid none)
      { pool with stop := decide (∀ slot, pool.pids slot = -1), stage := .ofSignals received pending }
  | leave (stage : pool.stage = .events []) (stops : pool.stop = true) : Turn pool .leave { pool with stage := .left }

theorem step_turn (own : ∀ pid, label ≠ .exit pid) (taken : pool.step label = some next) : Turn pool label next := by
  cases label with
  | exit pid => exact absurd rfl (own pid)
  | epollWait events =>
    dsimp only [step] at taken
    split_ifs at taken with ready
    exact Option.some.inj taken ▸ .epollWait events ready.1 ready.2
  | epollFailure =>
    dsimp only [step] at taken
    split_ifs at taken with ready
    exact Option.some.inj taken ▸ .epollFailure ready.1
  | dispatch =>
    dsimp only [step] at taken
    split at taken
    · next pending stage => exact Option.some.inj taken ▸ .dispatch pending stage
    · cases taken
  | recv received =>
    dsimp only [step] at taken
    split at taken
    · next pending stage => exact Option.some.inj taken ▸ .recv received pending stage
    · cases taken
  | skip =>
    dsimp only [step] at taken
    split at taken
    · next pending stage => exact Option.some.inj taken ▸ .skip pending stage
    · cases taken
  | signal =>
    dsimp only [step] at taken
    split at taken
    · next received pending stage => exact Option.some.inj taken ▸ .sigchld received pending stage
    · next received pending stage =>
      exact Option.some.inj taken ▸ .terminate .sigterm received pending stage (by simp [stage, ParentStage.terminates])
    · next received pending stage =>
      exact Option.some.inj taken ▸ .terminate .sigint received pending stage (by simp [stage, ParentStage.terminates])
    · next received pending stage => exact Option.some.inj taken ▸ .sigpipe received pending stage
    · cases taken
  | waitpid pid =>
    cases pid with
    | some pid =>
      dsimp only [step] at taken
      split at taken
      · next received pending stage =>
        split_ifs at taken with child
        exact Option.some.inj taken ▸ .reap pid (by simp [stage, ParentStage.reaps]) child
      · cases taken
    | none =>
      dsimp only [step] at taken
      split at taken
      · next received pending stage =>
        split_ifs at taken with nobody
        exact Option.some.inj taken ▸ .reaped received pending stage nobody
      · cases taken
  | leave =>
    dsimp only [step] at taken
    split_ifs at taken with ready
    exact Option.some.inj taken ▸ .leave ready.1 ready.2

end ProcessPool

/-! ## The children in the parent's table -/

namespace ProcessPool
variable {n : Nat} {pool next : ProcessPool n} {forked : Fin n → Int} {alive : Fin n → Prop} {label : ParentLabel}

theorem onListen_processes (pool : ProcessPool n) (pending : List ParentEvent) :
    (pool.onListen pending).running = pool.running ∧ (pool.onListen pending).exited = pool.exited := by
  unfold onListen
  split_ifs <;> exact ⟨rfl, rfl⟩

/-- The parent changes its table by reaping only. -/
theorem Turn.processes (turn : Turn pool label next) :
    (next.pids = pool.pids ∧ next.running = pool.running ∧ next.exited = pool.exited) ∨
      ∃ pid, pid ∈ pool.exited ∧ pool.stage.reaps = true ∧ next = pool.reap pid := by
  cases turn with
  | dispatch pending stage => exact .inl ⟨onListen_pids pool pending, onListen_processes pool pending⟩
  | reap pid stage child => exact .inr ⟨pid, child, stage, rfl⟩
  | _ => exact .inl ⟨rfl, rfl, rfl⟩

/-- Every slot in use has its child among the processes that run or wait to be reaped. -/
structure Census (forked : Fin n → Int) (alive : Fin n → Prop) (pool : ProcessPool n) : Prop where
  table : Table forked pool
  running : ∀ slot, pool.pids slot ∈ pool.running ↔ alive slot
  unreaped : ∀ slot, pool.pids slot ≠ -1 → pool.pids slot ∈ pool.running ++ pool.exited

theorem Census.create [NeZero n] (positive : ∀ slot, 0 < forked slot) (distinct : Function.Injective forked)
    (all : ∀ slot, alive slot) : Census forked alive (create forked) where
  table := Table.create positive distinct
  running := by
    intro slot
    simp only [ProcessPool.create, List.mem_ofFn]
    exact ⟨fun _ => all slot, fun _ => ⟨slot, rfl⟩⟩
  unreaped := by
    intro slot _
    exact List.mem_append_left _ (List.mem_ofFn.mpr ⟨slot, rfl⟩)

/-- A slot out of use holds no pid of a process. -/
theorem Census.no_process (census : Census forked alive pool) : (-1 : Int) ∉ pool.running ++ pool.exited := by
  intro member
  obtain ⟨slot, -, valid⟩ := census.table.children _ member
  exact valid rfl

theorem Census.turn (census : Census forked alive pool) (distinct : Function.Injective forked)
    (own : ∀ pid, label ≠ .exit pid) (taken : pool.step label = some next) : Census forked alive next := by
  have table := census.table.step distinct taken
  obtain ⟨pids, running, exited⟩ | ⟨pid, child, -, rfl⟩ := (step_turn own taken).processes
  · refine ⟨table, ?_, ?_⟩
    · rw [pids, running]
      exact census.running
    · rw [pids, running, exited]
      exact census.unreaped
  · have gone : pid ∉ pool.running := fun runs => List.disjoint_of_nodup_append census.table.unreaped runs child
    refine ⟨table, fun slot => ?_, fun slot used => ?_⟩
    · rw [← census.running slot]
      by_cases same : pool.pids slot = pid
      · have absent : (-1 : Int) ∉ pool.running := fun runs => census.no_process (List.mem_append_left _ runs)
        simp [reap, same, gone, absent]
      · simp [reap, same]
    · by_cases same : pool.pids slot = pid
      · simp [reap, same] at used
      · simp only [reap, same, if_false] at used ⊢
        refine (List.mem_append.mp (census.unreaped slot used)).elim (List.mem_append_left _) fun exits => ?_
        exact List.mem_append_right _ ((List.mem_erase_of_ne same).mpr exits)

/-- A child ends. -/
theorem Census.exit (census : Census forked alive pool) (distinct : Function.Injective forked) {slot : Fin n}
    {left : Fin n → Prop} (ended : ¬ left slot) (others : ∀ other, other ≠ slot → (left other ↔ alive other))
    (taken : pool.step (.exit (pool.pids slot)) = some next) : Census forked left next := by
  have table := census.table.step distinct taken
  dsimp only [step] at taken
  split_ifs at taken with runs
  cases taken
  have once : pool.running.Nodup := census.table.unreaped.of_append_left
  have valid : pool.pids slot ≠ -1 := by
    intro unused
    exact census.no_process (List.mem_append_left _ (unused ▸ runs))
  refine ⟨table, fun other => ?_, fun other used => ?_⟩
  · by_cases same : other = slot
    · subst same
      exact ⟨fun member => absurd member once.not_mem_erase, fun stays => absurd stays ended⟩
    · have apart : pool.pids other ≠ pool.pids slot := fun equal => same (census.table.unique distinct valid equal)
      rw [others other same, ← census.running other]
      exact List.mem_erase_of_ne apart
  · have before := census.unreaped other used
    exact (List.perm_middle.trans ((List.perm_cons_erase runs).symm.append_right _)).symm.mem_iff.mp before

/-- What the parent has to learn of its children is on its way to it. -/
structure Informed (inbox : SignalPipe Signal) (pool : ProcessPool n) : Prop where
  announced : (∃ slot, pool.pids slot ≠ -1) → inbox.Announced (.signals ∈ pool.stage.pending)
  exits : pool.exited ≠ [] → inbox.Carries .sigchld ∨ .sigchld ∈ pool.stage.received ∨ pool.stage.reaps = true
  handed : ∀ pending, pool.stage ≠ .signals [] pending
  stops : pool.stop = true ∨ pool.stage = .left → ∀ slot, pool.pids slot = -1
  last : (∀ slot, pool.pids slot = -1) → pool.stop = true ∨ pool.stage = .left ∨ pool.stage.reaps = true

section Informed
variable {inbox other : SignalPipe Signal}

theorem Informed.create [NeZero n] (positive : ∀ slot, 0 < forked slot) :
    Informed .quiet (ProcessPool.create forked) where
  announced := fun _ waiting => absurd rfl waiting
  exits := fun some => absurd rfl some
  handed := by simp [ProcessPool.create]
  stops := by simp [ProcessPool.create]
  last := by
    intro all
    have above := positive 0
    have unused : forked 0 = -1 := all 0
    omega

/-- More signals come, and none is lost. -/
theorem Informed.hear (informed : Informed inbox pool) (announced : ∀ held, inbox.Announced held → other.Announced held)
    (carries : inbox.Carries .sigchld → other.Carries .sigchld) : Informed other pool where
  announced := fun used => announced _ (informed.announced used)
  exits := fun gone => (informed.exits gone).imp_left carries
  handed := informed.handed
  stops := informed.stops
  last := informed.last

theorem Informed.exit (informed : Informed inbox pool) {pid : Int} (taken : pool.step (.exit pid) = some next) :
    Informed (inbox.raise .sigchld) next := by
  dsimp only [step] at taken
  split_ifs at taken
  cases taken
  refine ⟨fun used => (informed.announced used).raise _, fun _ => ?_, informed.handed, informed.stops, informed.last⟩
  exact .inl (SignalPipe.carries_raise _ _)

/-- The parent goes on, and forgets no `SIGCHLD` it has received. -/
theorem Informed.move (informed : Informed inbox pool) (pids : next.pids = pool.pids) (exited : next.exited = pool.exited)
    (stop : next.stop = pool.stop) (present : pool.stage ≠ .left) (idle : pool.stage.reaps = false)
    (stays : next.stage ≠ .left) (held : .signals ∈ pool.stage.pending → .signals ∈ next.stage.pending)
    (known : .sigchld ∈ pool.stage.received → .sigchld ∈ next.stage.received ∨ next.stage.reaps = true)
    (handed : ∀ pending, next.stage ≠ .signals [] pending) : Informed inbox next where
  announced := by
    rw [pids]
    exact fun used => (informed.announced used).mono held
  exits := by
    rw [exited]
    intro gone
    obtain carries | received | reaps := informed.exits gone
    · exact .inl carries
    · exact .inr (known received)
    · rw [idle] at reaps
      cases reaps
  handed := handed
  stops := by
    rw [pids, stop]
    exact fun ends => informed.stops (.inl (ends.resolve_right stays))
  last := by
    rw [pids, stop]
    intro all
    obtain stopped | left | reaps := informed.last all
    · exact .inl stopped
    · exact absurd left present
    · rw [idle] at reaps
      cases reaps

theorem Informed.epollWait (informed : Informed inbox pool) {events : List ParentEvent} (stage : pool.stage = .events []) :
    Informed (inbox.fetch (events.contains .signals)) { pool with stage := .events events } where
  announced := by
    intro used
    refine ((informed.announced used).mono ?_).fetch List.contains_iff_mem.mp
    rw [stage]
    exact fun never => absurd never List.not_mem_nil
  exits := by
    intro gone
    have carries := (informed.exits gone).resolve_right (by simp [stage])
    exact .inl (carries.fetch _)
  handed := by simp
  stops := fun ends => informed.stops (.inl (ends.resolve_right (by simp)))
  last := fun all => .inl ((informed.last all).resolve_right (by simp [stage]))

/-- A `recv` takes everything there is. -/
theorem Informed.recv (informed : Informed inbox pool) (whole : inbox.bytes.length ≤ signalBytes)
    {pending : List ParentEvent} (stage : pool.stage = .events (.signals :: pending)) :
    Informed (inbox.read signalBytes) { pool with stage := .ofSignals (inbox.bytes.take signalBytes) pending } where
  announced := fun _ => .read whole _
  exits := by
    intro gone
    have carries := (informed.exits gone).resolve_right (by simp [stage])
    exact (carries.read whole).imp_right fun received => .inl (by simpa using received)
  handed := ParentStage.ofSignals_ne_signals_nil _ _
  stops := fun ends => informed.stops (.inl (ends.resolve_right (ParentStage.ofSignals_ne_left _ _)))
  last := fun all => .inl ((informed.last all).resolve_right (by simp [stage]))

theorem Informed.dispatch (informed : Informed inbox pool) {pending : List ParentEvent}
    (stage : pool.stage = .events (.listen :: pending)) : Informed inbox (pool.onListen pending) := by
  by_cases unused : pool.pids pool.found = -1
  · -- the events that are dropped mean nothing any more
    have all := pool.found_unused_iff.mp unused
    simp only [onListen, unused, if_true]
    refine ⟨fun used => ?_, fun gone => ?_, by simp, fun _ => all, fun _ => .inl rfl⟩
    · obtain ⟨slot, used⟩ := used
      exact absurd (all slot) used
    · have carries := (informed.exits gone).resolve_right (by simp [stage])
      exact .inl carries
  · simp only [onListen, unused, if_false]
    exact informed.move rfl rfl rfl (by simp [stage]) (by simp [stage]) (by simp)
      (by simp [stage]) (by simp [stage]) (by simp)

/-- The steps other than `epoll_wait` and `recv` leave the signals that come alone. -/
theorem Informed.turn (informed : Informed inbox pool) (turn : Turn pool label next) (works : label ≠ .epollFailure)
    (waits : ∀ events, label ≠ .epollWait events) (reads : ∀ received, label ≠ .recv received) :
    Informed inbox next := by
  cases turn with
  | epollWait events stage runs => exact absurd rfl (waits events)
  | epollFailure stage => exact absurd rfl works
  | recv received pending stage => exact absurd rfl (reads received)
  | dispatch pending stage => exact informed.dispatch stage
  | skip pending stage =>
    exact informed.move rfl rfl rfl (by simp [stage]) (by simp [stage]) (by simp)
      (by simp [stage]) (by simp [stage]) (by simp)
  | sigchld received pending stage =>
    exact informed.move rfl rfl rfl (by simp [stage]) (by simp [stage]) (by simp)
      (by simp [stage]) (fun _ => .inr rfl) (by simp)
  | terminate signal received pending stage terminates =>
    have other : signal ≠ .sigchld := by
      rintro rfl
      simp [stage, ParentStage.terminates] at terminates
    refine informed.move rfl rfl rfl (by simp [stage]) (by simp [stage])
      (ParentStage.ofSignals_ne_left _ _) (by simp [stage]) ?_
      (ParentStage.ofSignals_ne_signals_nil _ _)
    intro member
    rw [stage] at member
    exact .inl (by simpa [other.symm] using member)
  | sigpipe received pending stage =>
    exact informed.move rfl rfl rfl (by simp [stage]) (by simp [stage])
      (ParentStage.ofSignals_ne_left _ _) (by simp [stage]) (by simp [stage])
      (ParentStage.ofSignals_ne_signals_nil _ _)
  | reap pid stage child =>
    refine ⟨fun used => ?_, fun _ => .inr (.inr stage), informed.handed, fun ends slot => ?_, fun _ => .inr (.inr stage)⟩
    · obtain ⟨slot, used⟩ := used
      refine informed.announced ⟨slot, fun unused => used ?_⟩
      simp [reap, unused]
    · have unused := informed.stops ends slot
      simp [reap, unused]
  | reaped received pending stage nobody =>
    refine ⟨fun used => ?_, fun gone => absurd nobody gone, ParentStage.ofSignals_ne_signals_nil _ _, fun ends => ?_,
      fun all => .inl (decide_eq_true all)⟩
    · refine (informed.announced used).mono ?_
      simp [stage]
    · exact of_decide_eq_true (ends.resolve_right (ParentStage.ofSignals_ne_left _ _))
  | leave stage stops =>
    refine ⟨fun used => ?_, fun gone => ?_, by simp, fun _ => informed.stops (.inl stops), fun _ => .inr (.inl rfl)⟩
    · obtain ⟨slot, used⟩ := used
      exact absurd (informed.stops (.inl stops) slot) used
    · have carries := (informed.exits gone).resolve_right (by simp [stage])
      exact .inl carries

end Informed

end ProcessPool

end UnixProgramming.Pool

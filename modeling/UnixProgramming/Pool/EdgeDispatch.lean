import UnixProgramming.Pool.PoolSystem

/-! When every arrival has an edge of its own, the parent sends one notification for each
client in the accept queue and the children accept once for each notification. -/

namespace UnixProgramming.Pool

open UnixProgramming.Lib

variable {n : Nat}

/-- The events on `m_listenfd` still to be handled. -/
def ParentStage.listens : ParentStage → Nat
  | .events pending => pending.count .listen
  | .signals _ pending => pending.count .listen
  | .reaping _ pending => pending.count .listen
  | .left => 0

/-- The events on its pipe a child has still to handle. -/
def ChildStage.wakeups : ChildStage → Nat
  | .events pending => pending.count .pipe
  | .accepting pending => pending.count .pipe
  | .exited => 0

@[simp] theorem ParentStage.listens_events (pending : List ParentEvent) :
    (ParentStage.events pending).listens = pending.count .listen := rfl

@[simp] theorem ParentStage.listens_signals (received : List Signal) (pending : List ParentEvent) :
    (ParentStage.signals received pending).listens = pending.count .listen := rfl

@[simp] theorem ParentStage.listens_reaping (received : List Signal) (pending : List ParentEvent) :
    (ParentStage.reaping received pending).listens = pending.count .listen := rfl

@[simp] theorem ParentStage.listens_ofSignals (received : List Signal) (pending : List ParentEvent) :
    (ParentStage.ofSignals received pending).listens = pending.count .listen := by
  cases received <;> rfl

namespace ProcessPool
variable {pool next : ProcessPool n} {forked : Fin n → Int}

theorem step_listens {label : ParentLabel} (taken : pool.step label = some next) (dispatches : label ≠ .dispatch)
    (fetches : ∀ events, label ≠ .epollWait events) : next.stage.listens = pool.stage.listens := by
  cases label with
  | exit pid =>
    dsimp only [step] at taken
    split_ifs at taken
    cases taken
    rfl
  | epollWait events => exact absurd rfl (fetches events)
  | epollFailure =>
    dsimp only [step] at taken
    split_ifs at taken with idle
    cases taken
    rw [idle.1]
    rfl
  | dispatch => exact absurd rfl dispatches
  | recv received =>
    dsimp only [step] at taken
    split at taken
    · next stage =>
      cases taken
      simp [stage]
    · cases taken
  | skip =>
    dsimp only [step] at taken
    split at taken
    · next stage =>
      cases taken
      simp [stage]
    · cases taken
  | signal =>
    dsimp only [step] at taken
    split at taken
    · next stage => cases taken; simp [stage]
    · next stage => cases taken; simp [stage]
    · next stage => cases taken; simp [stage]
    · next stage => cases taken; simp [stage]
    · cases taken
  | waitpid pid =>
    cases pid with
    | some pid =>
      dsimp only [step] at taken
      split at taken
      · split_ifs at taken
        cases taken
        rfl
      · cases taken
    | none =>
      dsimp only [step] at taken
      split at taken
      · next stage =>
        split_ifs at taken
        cases taken
        simp [stage]
      · cases taken
  | leave =>
    dsimp only [step] at taken
    split_ifs at taken with idle
    cases taken
    rw [idle.1]
    rfl

/-- A child that runs keeps its slot, unless it is the one that exits. -/
theorem Table.live_step (table : Table forked pool) {label : ParentLabel} (taken : pool.step label = some next)
    {slot : Fin n} (alive : pool.pids slot ∈ pool.running) (stays : label ≠ .exit (pool.pids slot)) :
    next.pids slot ∈ next.running := by
  cases step_change taken with
  | exit pid _ running exited quiet =>
    have other : pool.pids slot ≠ pid := fun same => stays (by rw [same])
    rw [quiet.pids, running]
    exact (List.mem_erase_of_ne other).mpr alive
  | dispatch pending stage done =>
    subst done
    unfold onListen
    split_ifs <;> exact alive
  | reap pid child done =>
    subst done
    have other : pool.pids slot ≠ pid := fun same =>
      List.disjoint_of_nodup_append table.unreaped alive (same ▸ child)
    simpa [ProcessPool.reap, other] using alive
  | reaped stage nobody done => exact done ▸ alive
  | kill stage done => exact done ▸ alive
  | quiet label running exited quiet =>
    rw [quiet.pids, running]
    exact alive

theorem Table.used_of_running (table : Table forked pool) {slot : Fin n} (alive : pool.pids slot ∈ pool.running) :
    pool.pids slot ≠ -1 := by
  obtain ⟨_, _, valid⟩ := table.children _ (List.mem_append_left _ alive)
  exact valid

end ProcessPool

namespace PoolSystem
open ProcessPool
variable {system next : PoolSystem n} {forked : Fin n → Int}

/-- Every client in the accept queue has an edge, an event, a notification or an `accept` to
come, and every notification has an edge or an event. -/
structure Balanced (forked : Fin n → Int) (system : PoolSystem n) : Prop where
  table : Table forked system.parent
  live : ∀ slot, (system.children slot).stage ≠ .exited → system.parent.pids slot ∈ system.parent.running
  order : system.accepted.map (·.2) ++ system.backlog = List.range system.arrived
  queue : system.backlog.length =
    system.edge.toNat + system.parent.stage.listens + tally Child.demand system.children
  pipes : ∀ slot, (system.children slot).pipe =
    (system.children slot).edge.toNat + (system.children slot).stage.wakeups
  gone : ∀ slot, (system.children slot).stage = .exited → (system.children slot).pipe = 0

theorem Balanced.create [NeZero n] (positive : ∀ slot, 0 < forked slot) (distinct : Function.Injective forked) :
    Balanced forked (create forked) where
  table := .create positive distinct
  live := fun slot _ => List.mem_ofFn.mpr ⟨slot, rfl⟩
  order := rfl
  queue := by simp [PoolSystem.create, ProcessPool.create, tally, Child.demand]
  pipes := fun slot => rfl
  gone := fun slot _ => rfl

/-- What holds of the child that moves and of the others holds of all. -/
theorem forall_setChild (holds : Fin n → Child → Prop) {slot : Fin n} {child : Child} (here : holds slot child)
    (others : ∀ other, other ≠ slot → holds other (system.children other)) :
    ∀ other, holds other ((system.setChild slot child).children other) :=
  (Function.forall_update_iff system.children holds).mpr ⟨here, others⟩

/-- The parent moves and keeps its count of events. -/
theorem Balanced.parent (balanced : Balanced forked system) (distinct : Function.Injective forked)
    {label : ParentLabel} {parent : ProcessPool n} (taken : system.parent.step label = some parent)
    (stays : ∀ pid, label ≠ .exit pid) {edge : Bool}
    (counted : edge.toNat + parent.stage.listens = system.edge.toNat + system.parent.stage.listens) :
    Balanced forked { system with parent := parent, edge := edge } := by
  obtain ⟨table, live, order, queue, pipes, gone⟩ := balanced
  refine ⟨table.step distinct taken, fun slot alive => ?_, order, ?_, pipes, gone⟩
  · exact table.live_step taken (live slot alive) (stays _)
  · dsimp only
    omega

/-- One child moves; the accept queue moves with it. -/
theorem Balanced.setChild (balanced : Balanced forked system) (slot : Fin n) (child : Child)
    (backlog : List Nat) (accepted : List (Fin n × Nat)) (alive : (system.children slot).stage ≠ .exited)
    (lives : child.stage ≠ .exited) (order : accepted.map (·.2) ++ backlog = List.range system.arrived)
    (queue : backlog.length + (system.children slot).demand = system.backlog.length + child.demand)
    (pipes : child.pipe = child.edge.toNat + child.stage.wakeups) :
    Balanced forked { system.setChild slot child with backlog := backlog, accepted := accepted } := by
  obtain ⟨table, live, -, count, others, gone⟩ := balanced
  have total := tally_update Child.demand system.children slot child
  refine ⟨table, ?_, order, ?_, ?_, ?_⟩
  · exact forall_setChild (fun other child => child.stage ≠ .exited → _) (fun _ => live slot alive)
      fun other _ => live other
  · simp only [PoolSystem.setChild]
    omega
  · exact forall_setChild (fun _ child => child.pipe = child.edge.toNat + child.stage.wakeups) pipes
      fun other _ => others other
  · exact forall_setChild (fun _ child => child.stage = .exited → child.pipe = 0) (fun exited => absurd exited lives)
      fun other _ => gone other

theorem Balanced.arrive (balanced : Balanced forked system) (fresh : system.edge = false)
    (taken : system.step .arrive = some next) : Balanced forked next := by
  obtain ⟨table, live, order, queue, pipes, gone⟩ := balanced
  cases taken
  refine ⟨table, live, ?_, ?_, pipes, gone⟩
  · rw [← List.append_assoc, order, List.range_succ]
  · rw [fresh] at queue
    simp only [List.length_append, List.length_singleton, Bool.toNat_true, Bool.toNat_false] at queue ⊢
    omega

theorem Balanced.epollWait (balanced : Balanced forked system) (distinct : Function.Injective forked)
    {events : List ParentEvent} (taken : system.step (.parent (.epollWait events)) = some next) :
    Balanced forked next := by
  dsimp only [step] at taken
  split_ifs at taken with single
  obtain ⟨parent, moved, rfl⟩ := Option.map_eq_some_iff.mp taken
  refine balanced.parent distinct moved (by simp) ?_
  dsimp only [ProcessPool.step] at moved
  split_ifs at moved with idle
  cases moved
  rw [idle.1]
  simpa using fetched_toNat single

theorem Balanced.dispatch (balanced : Balanced forked system) (distinct : Function.Injective forked)
    (faultless : system.Faultless (.parent .dispatch)) (unshared : system.Unshared (.parent .dispatch))
    (taken : system.step (.parent .dispatch) = some next) : Balanced forked next := by
  obtain ⟨⟨slot, running⟩, sends, -⟩ := faultless
  have receives := sends rfl
  have used : system.parent.pids system.parent.found ≠ -1 := fun none =>
    balanced.table.used_of_running (balanced.live slot running) ((found_unused_iff system.parent).mp none slot)
  dsimp only [step] at taken
  obtain ⟨parent, moved, rfl⟩ := Option.map_eq_some_iff.mp taken
  rw [if_neg used]
  obtain ⟨table, live, order, queue, pipes, gone⟩ := balanced
  have quiet : (system.children system.parent.found).edge = false := unshared.2.1 rfl
  have handled : parent.stage.listens + 1 = system.parent.stage.listens := by
    cases step_change moved with
    | dispatch pending stage done =>
      rw [done, onListen, if_neg used, stage]
      simp
    | quiet _ _ _ _ listens => exact absurd rfl listens
  refine ⟨table.step distinct moved, ?_, order, ?_, ?_, ?_⟩
  · exact forall_setChild (fun other child => child.stage ≠ .exited → parent.pids other ∈ parent.running)
      (fun _ => table.live_step moved (live _ receives) (by simp))
      fun other _ alive => table.live_step moved (live other alive) (by simp)
  · have total := tally_update Child.demand system.children system.parent.found
      { system.children system.parent.found with
        pipe := (system.children system.parent.found).pipe + 1, edge := true }
    simp only [notify, PoolSystem.setChild, Child.demand] at total ⊢
    omega
  · refine forall_setChild (fun _ child => child.pipe = child.edge.toNat + child.stage.wakeups) ?_
      fun other _ => pipes other
    have before := pipes system.parent.found
    rw [quiet, Bool.toNat_false] at before
    simp only [Bool.toNat_true]
    omega
  · exact forall_setChild (fun _ child => child.stage = .exited → child.pipe = 0) (fun exited => absurd exited receives)
      fun other _ => gone other

theorem Balanced.fetch (balanced : Balanced forked system) {slot : Fin n} {events : List ChildEvent}
    (taken : system.step (.fetch slot events) = some next) : Balanced forked next := by
  have pipes := balanced.pipes slot
  dsimp only [step] at taken
  split_ifs at taken with idle
  obtain ⟨stage, -, single⟩ := idle
  cases taken
  have event := fetched_toNat single
  refine balanced.setChild slot _ system.backlog system.accepted (by simp [stage]) (by simp) balanced.order ?_ ?_
  · simp [Child.demand, stage]
  · simp only [stage, ChildStage.wakeups, List.count_nil] at pipes ⊢
    omega

theorem Balanced.recv (balanced : Balanced forked system) {slot : Fin n}
    (taken : system.step (.recv slot) = some next) : Balanced forked next := by
  have pipes := balanced.pipes slot
  dsimp only [step] at taken
  split at taken
  · next pending stage =>
    cases taken
    simp only [stage, ChildStage.wakeups, List.count_cons_self] at pipes
    refine balanced.setChild slot _ system.backlog system.accepted (by simp [stage]) (by simp) balanced.order ?_ ?_
    · simp only [Child.demand, stage]
      omega
    · simp only [ChildStage.wakeups]
      omega
  · cases taken

theorem Balanced.accept (balanced : Balanced forked system) {slot : Fin n}
    (taken : system.step (.accept slot) = some next) : Balanced forked next := by
  have pipes := balanced.pipes slot
  dsimp only [step] at taken
  split at taken
  · next pending stage =>
    simp only [stage, ChildStage.wakeups] at pipes
    have served := weight_le_tally Child.demand system.children slot
    have queue := balanced.queue
    simp only [Child.demand, stage] at served
    split at taken
    · next empty =>
      -- the client of this notification is still in the queue
      replace empty : system.backlog = [] := empty
      rw [empty, List.length_nil] at queue
      omega
    · next client rest front =>
      replace front : system.backlog = client :: rest := front
      cases taken
      refine balanced.setChild slot _ rest _ (by simp [stage]) (by simp) ?_ ?_ pipes
      · rw [← balanced.order, front]
        simp [PoolSystem.setChild]
      · simp only [front, Child.demand, stage, List.length_cons]
        omega
  · cases taken

theorem Balanced.other (balanced : Balanced forked system) {slot : Fin n} {stops : Bool}
    (taken : system.step (.other slot stops) = some next) : Balanced forked next := by
  have pipes := balanced.pipes slot
  dsimp only [step] at taken
  split at taken
  · next pending stage =>
    cases taken
    refine balanced.setChild slot _ system.backlog system.accepted (by simp [stage]) (by simp) balanced.order ?_ ?_
    · simp [Child.demand, stage]
    · simpa [stage, ChildStage.wakeups] using pipes
  · next pending stage =>
    cases taken
    refine balanced.setChild slot _ system.backlog system.accepted (by simp [stage]) (by simp) balanced.order ?_ ?_
    · simp [Child.demand, stage]
    · simpa [stage, ChildStage.wakeups] using pipes
  · cases taken

theorem Balanced.exit (balanced : Balanced forked system) (distinct : Function.Injective forked) {slot : Fin n}
    (unshared : system.Unshared (.exit slot)) (taken : system.step (.exit slot) = some next) :
    Balanced forked next := by
  obtain ⟨table, live, order, queue, pipes, gone⟩ := balanced
  have none : (system.children slot).demand = 0 := unshared.2.2 slot rfl
  have empty : (system.children slot).pipe = 0 := by
    unfold Child.demand at none
    omega
  have before := pipes slot
  dsimp only [step] at taken
  split_ifs at taken with running
  obtain ⟨parent, moved, rfl⟩ := Option.map_eq_some_iff.mp taken
  have kept := step_listens moved (by simp) (by simp)
  refine ⟨table.step distinct moved, fun other alive => ?_, order, ?_, ?_, ?_⟩
  · have apart : other ≠ slot := by
      rintro rfl
      simp [PoolSystem.setChild] at alive
    simp only [PoolSystem.setChild, Function.update_of_ne apart] at alive
    refine table.live_step moved (live other alive) ?_
    intro same
    exact apart (table.unique distinct (table.used_of_running (live slot running)) (by simpa using same.symm))
  · have total := tally_update Child.demand system.children slot { system.children slot with stage := .exited }
    rw [none] at total
    simp only [PoolSystem.setChild, Child.demand, empty] at total ⊢
    omega
  · refine forall_setChild (fun _ child => child.pipe = child.edge.toNat + child.stage.wakeups) ?_
      fun other _ => pipes other
    simp only [ChildStage.wakeups]
    omega
  · exact forall_setChild (fun _ child => child.stage = .exited → child.pipe = 0) (fun _ => empty) fun other _ => gone other

theorem Balanced.step (balanced : Balanced forked system) (distinct : Function.Injective forked)
    {label : SystemLabel n} (faultless : system.Faultless label) (unshared : system.Unshared label)
    (taken : system.step label = some next) : Balanced forked next := by
  cases label with
  | arrive => exact balanced.arrive (unshared.1 rfl) taken
  | parent label =>
    cases label with
    | exit pid => cases taken
    | epollWait events => exact balanced.epollWait distinct taken
    | dispatch => exact balanced.dispatch distinct faultless unshared taken
    | _ =>
      obtain ⟨parent, moved, rfl⟩ := Option.map_eq_some_iff.mp taken
      exact balanced.parent distinct moved (by simp) (by rw [step_listens moved (by simp) (by simp)])
  | fetch slot events => exact balanced.fetch taken
  | recv slot => exact balanced.recv taken
  | accept slot => exact balanced.accept taken
  | other slot stops => exact balanced.other taken
  | exit slot => exact balanced.exit distinct unshared taken

/-- No connection stays unserved where no edge is shared and no child exits with a
notification to be handled: in every such run, once everybody is blocked, every client that
arrived has been accepted and every notification has been read. -/
theorem connections_served [NeZero n] (forked : Fin n → Int) (positive : ∀ slot, 0 < forked slot)
    (distinct : Function.Injective forked) (labels : List (SystemLabel n))
    (held : Meets step (fun system label => system.Faultless label ∧ system.Unshared label) (create forked) labels)
    (reached : run step (create forked) labels = some system) (quiescent : system.Quiescent) :
    (∀ client < system.arrived, ∃ slot, (slot, client) ∈ system.accepted) ∧
      ∀ slot, (system.children slot).pipe = 0 := by
  obtain ⟨-, -, order, queue, pipes, gone⟩ : Balanced forked system := run_invariant_of_meets
    (fun _ _ _ kept guard taken => kept.step distinct guard.1 guard.2 taken) (.create positive distinct) held reached
  obtain ⟨waiting, fetched, idle⟩ := quiescent
  have read : ∀ slot, (system.children slot).pipe = 0 := by
    intro slot
    rcases idle slot with exited | ⟨blocked, quiet⟩
    · exact gone slot exited
    · rw [pipes slot, blocked, quiet]
      rfl
  have nobody : tally Child.demand system.children = 0 := by
    refine tally_eq_zero.mpr fun slot => ?_
    rcases idle slot with exited | ⟨blocked, -⟩
    · simp [Child.demand, read slot, exited]
    · simp [Child.demand, read slot, blocked]
  have empty : system.backlog = [] := by
    rw [waiting, fetched, nobody] at queue
    exact List.eq_nil_of_length_eq_zero queue
  refine ⟨fun client earlier => ?_, read⟩
  rw [empty, List.append_nil] at order
  have member : client ∈ system.accepted.map (·.2) := order ▸ List.mem_range.mpr earlier
  obtain ⟨⟨slot, _⟩, present, rfl⟩ := List.mem_map.mp member
  exact ⟨slot, present⟩

def twoChildren : Fin 2 → Int := fun slot => 11 + slot.val

/-- Two clients, the second of whom comes when the event of the first has been fetched. -/
def twoEdges : List (SystemLabel 2) :=
  [.arrive, .parent (.epollWait [.listen]), .arrive, .parent .dispatch, .fetch 0 [.pipe],
    .parent (.epollWait [.listen]), .parent .dispatch, .recv 0, .fetch 1 [.pipe], .recv 1, .accept 1, .accept 0]

theorem connections_served_two_edges :
    ∃ system, run step (create twoChildren) twoEdges = some system ∧ system.arrived = 2 ∧
      ∀ client < 2, ∃ slot, (slot, client) ∈ system.accepted := by
  have computed :
    (run step (create twoChildren) twoEdges).map (fun system => (system.arrived, decide system.Quiescent)) =
      some (2, true) := by decide +kernel
  obtain ⟨system, reached, same⟩ := Option.map_eq_some_iff.mp computed
  simp only [Prod.mk.injEq, decide_eq_true_eq] at same
  obtain ⟨arrived, quiescent⟩ := same
  have served := (connections_served twoChildren (by simp only [twoChildren]; omega)
    (fun slot other same => by simp only [twoChildren] at same; omega) twoEdges (by decide +kernel) reached quiescent).1
  exact ⟨system, reached, arrived, fun client earlier => served client (by omega)⟩

/-- Two clients who come before the first event is fetched. -/
def sharedEdge : List (SystemLabel 2) :=
  [.arrive, .arrive, .parent (.epollWait [.listen]), .parent .dispatch, .fetch 0 [.pipe], .recv 0, .accept 0]

/-- With one event for two clients, the second is left in the accept queue. -/
theorem connections_not_served :
    ¬ ∀ (labels : List (SystemLabel 2)) (system : PoolSystem 2), Meets step Faultless (create twoChildren) labels →
      run step (create twoChildren) labels = some system → system.Quiescent →
      (∀ client < system.arrived, ∃ slot, (slot, client) ∈ system.accepted) ∧
        ∀ slot, (system.children slot).pipe = 0 := by
  intro claimed
  have computed :
    (run step (create twoChildren) sharedEdge).map (fun system =>
      (system.arrived, system.accepted, decide system.Quiescent)) = some (2, [(0, 0)], true) := by decide +kernel
  obtain ⟨system, reached, same⟩ := Option.map_eq_some_iff.mp computed
  simp only [Prod.mk.injEq, decide_eq_true_eq] at same
  obtain ⟨arrived, accepted, quiescent⟩ := same
  obtain ⟨slot, member⟩ :=
    (claimed sharedEdge system (by decide +kernel) reached quiescent).1 1 (by omega)
  simp [accepted] at member

end PoolSystem
end UnixProgramming.Pool

import UnixProgramming.Pool.ProcessPool

/-! Notifications go round. The parent's dispatches are a rotation over the slots in use,
whatever children are reaped between them. -/

namespace UnixProgramming.Pool.ProcessPool

open UnixProgramming.Lib

variable {n : Nat} {pool next : ProcessPool n}

/-- A dispatch as a turn among the slots in use. -/
def turnOf (dispatch : Dispatch n) : Cyclic.Turn n where
  eligible := fun slot => dispatch.pids slot ≠ -1
  slot := dispatch.slot

structure Rotating (start : Fin n) (pool : ProcessPool n) : Prop where
  rotation : Cyclic.Rotation start (pool.dispatches.map turnOf)
  counter : pool.subProcessCounter = Cyclic.counterAfter start (pool.dispatches.map turnOf)
  /-- A slot out of use stays so: from dispatch to dispatch and up to now. -/
  ordered : pool.dispatches.Pairwise fun first second => ∀ slot, first.pids slot = -1 → second.pids slot = -1
  past : ∀ dispatch ∈ pool.dispatches, ∀ slot, dispatch.pids slot = -1 → pool.pids slot = -1
  stopped : pool.stop = true → ∀ slot, pool.pids slot = -1

theorem Rotating.create [NeZero n] (forked : Fin n → Int) : Rotating 0 (create forked) where
  rotation := trivial
  counter := rfl
  ordered := .nil
  past := by simp [ProcessPool.create]
  stopped := by simp [ProcessPool.create]

/-- A step without a dispatch. -/
theorem Rotating.keep {start : Fin n} (rotating : Rotating start pool)
    (unused : ∀ slot, pool.pids slot = -1 → next.pids slot = -1)
    (dispatches : next.dispatches = pool.dispatches) (counter : next.subProcessCounter = pool.subProcessCounter)
    (stopped : next.stop = true → ∀ slot, next.pids slot = -1) : Rotating start next := by
  obtain ⟨rotation, same, ordered, past, -⟩ := rotating
  refine ⟨?_, ?_, ?_, ?_, stopped⟩
  · rwa [dispatches]
  · rw [counter, dispatches, same]
  · rwa [dispatches]
  · rw [dispatches]
    exact fun dispatch member slot gone => unused slot (past dispatch member slot gone)

theorem Rotating.onListen {start : Fin n} (rotating : Rotating start pool) (pending : List ParentEvent) :
    Rotating start (pool.onListen pending) := by
  unfold ProcessPool.onListen
  split_ifs with unused
  · exact rotating.keep (fun _ gone => gone) rfl rfl fun _ => (found_unused_iff pool).mp unused
  · obtain ⟨rotation, counter, ordered, past, stopped⟩ := rotating
    have first : Cyclic.First (fun slot => pool.pids slot ≠ -1) pool.subProcessCounter pool.found :=
      pool.found_first.resolve_right fun all => unused (all _)
    refine ⟨?_, ?_, ?_, ?_, stopped⟩
    · rw [List.map_append, Cyclic.rotation_append, ← counter]
      exact ⟨rotation, first, trivial⟩
    · rw [List.map_append, Cyclic.counterAfter_append]
      rfl
    · refine List.pairwise_append.mpr ⟨ordered, List.pairwise_singleton _ _, ?_⟩
      intro dispatch member latest same
      cases List.mem_singleton.mp same
      exact past dispatch member
    · intro dispatch member slot gone
      rcases List.mem_append.mp member with earlier | latest
      · exact past dispatch earlier slot gone
      · cases List.mem_singleton.mp latest
        exact gone

theorem Rotating.step {start : Fin n} (rotating : Rotating start pool) {label : ParentLabel}
    (taken : pool.step label = some next) : Rotating start next := by
  have unused : ∀ slot, pool.pids slot = -1 → next.pids slot = -1 := fun _ gone => step_unused taken gone
  have still : next.stop = pool.stop → next.stop = true → ∀ slot, next.pids slot = -1 :=
    fun same stopped slot => unused slot (rotating.stopped (same ▸ stopped) slot)
  cases step_change taken with
  | exit pid alive running exited quiet => exact rotating.keep unused quiet.dispatches quiet.counter (still quiet.stop)
  | dispatch pending stage done => exact done ▸ rotating.onListen pending
  | reap pid child done => subst done; exact rotating.keep unused rfl rfl (still rfl)
  | reaped stage nobody done => subst done; exact rotating.keep unused rfl rfl of_decide_eq_true
  | kill stage done => subst done; exact rotating.keep unused rfl rfl (still rfl)
  | quiet label running exited quiet => exact rotating.keep unused quiet.dispatches quiet.counter (still quiet.stop)

/-- The law of one connection event. -/
theorem Rotating.onListen_law {start : Fin n} (rotating : Rotating start pool) (pending : List ParentEvent) :
    ((∃ slot, Cyclic.First (fun slot => pool.pids slot ≠ -1) pool.subProcessCounter slot ∧
        (pool.onListen pending).dispatches = pool.dispatches ++ [⟨pool.pids, slot⟩]) ∨
      (∀ slot, pool.pids slot = -1) ∧ (pool.onListen pending).dispatches = pool.dispatches) ∧
    ((pool.onListen pending).stop = true ↔ ∀ slot, pool.pids slot = -1) := by
  by_cases unused : pool.pids pool.found = -1
  · have all := (found_unused_iff pool).mp unused
    simp [ProcessPool.onListen, all]
  · have first := pool.found_first.resolve_right fun all => unused (all _)
    have running : pool.stop ≠ true := fun stopped => unused (rotating.stopped stopped _)
    rw [ProcessPool.onListen, if_neg unused]
    refine ⟨.inl ⟨pool.found, first, rfl⟩, ?_⟩
    exact iff_of_false running fun all => unused (all _)

theorem Rotating.fair {start other : Fin n} (rotating : Rotating start pool)
    {earlier between later : List (Dispatch n)} {first second : Dispatch n}
    (split : pool.dispatches = earlier ++ first :: between ++ second :: later) (same : first.slot = second.slot)
    (others : ∀ dispatch ∈ between, dispatch.slot ≠ second.slot) (distinct : other ≠ second.slot)
    (alive : ∀ dispatch ∈ between ++ [second], dispatch.pids other ≠ -1) :
    between.countP (fun dispatch => dispatch.slot = other) = 1 := by
  have rearranged : pool.dispatches = earlier ++ (first :: ((between ++ [second]) ++ later)) := by simp [split]
  have rotation := rotating.rotation
  rw [rearranged, List.map_append, Cyclic.rotation_append, List.map_cons, List.map_append] at rotation
  obtain ⟨-, -, rotation⟩ := rotation
  replace rotation := (Cyclic.rotation_append.mp rotation).1
  rw [List.map_append] at rotation
  have chosen : second.pids second.slot ≠ -1 := (Cyclic.rotation_append.mp rotation).2.1.1
  -- the slot was in use at the second dispatch, so it was at every one before it
  have waiting : ∀ dispatch ∈ between ++ [second], dispatch.pids second.slot ≠ -1 := by
    intro dispatch member gone
    rcases List.mem_append.mp member with inner | latest
    · have ordered := rotating.ordered
      rw [rearranged] at ordered
      have inside := (List.pairwise_append.mp (List.pairwise_append.mp
        (List.pairwise_cons.mp (List.pairwise_append.mp ordered).2.1).2).1).2.2
      exact chosen (inside dispatch inner second (List.mem_singleton_self _) second.slot gone)
    · cases List.mem_singleton.mp latest
      exact chosen gone
  have turns : ∀ {property : Cyclic.Turn n → Prop}, (∀ dispatch ∈ between ++ [second], property (turnOf dispatch)) →
      ∀ turn ∈ between.map turnOf ++ [turnOf second], property turn := by
    intro property held
    rw [← List.map_singleton, ← List.map_append]
    exact List.forall_mem_map.mpr held
  have round : Cyclic.Rotation (Cyclic.next second.slot) (between.map turnOf ++ [turnOf second]) := same ▸ rotation
  have once : (between.map turnOf).countP (fun turn => turn.slot = other) = 1 :=
    round.fair rfl (List.forall_mem_map.mpr others) distinct (turns waiting) (turns alive)
  rwa [List.countP_map] at once

/-- Round robin is fair. In every run a connection event goes to the first slot in use
cyclically at or after the counter, and stops the pool instead exactly when there is none;
between two consecutive dispatches to one slot every other slot that is in use at all
dispatches up to the second of them has exactly one. -/
theorem round_robin_fair [NeZero n] (forked : Fin n → Int) (labels : List ParentLabel)
    (reached : run step (create forked) labels = some pool) :
    (∀ next, pool.step .dispatch = some next →
      ((∃ slot, Cyclic.First (fun slot => pool.pids slot ≠ -1) pool.subProcessCounter slot ∧
          next.dispatches = pool.dispatches ++ [⟨pool.pids, slot⟩]) ∨
        (∀ slot, pool.pids slot = -1) ∧ next.dispatches = pool.dispatches) ∧
      (next.stop = true ↔ ∀ slot, pool.pids slot = -1)) ∧
    ∀ earlier first between second later other,
      pool.dispatches = earlier ++ first :: between ++ second :: later → first.slot = second.slot →
      (∀ dispatch ∈ between, dispatch.slot ≠ second.slot) → other ≠ second.slot →
      (∀ dispatch ∈ between ++ [second], dispatch.pids other ≠ -1) →
      between.countP (fun dispatch => dispatch.slot = other) = 1 := by
  have rotating : Rotating 0 pool :=
    run_invariant (fun _ _ _ kept taken => kept.step taken) (Rotating.create forked) reached
  refine ⟨fun next taken => ?_, ?_⟩
  · cases step_change taken with
    | dispatch pending stage done => exact done ▸ rotating.onListen_law pending
    | quiet _ _ _ _ listens => exact absurd rfl listens
  · intro earlier first between second later other split same others distinct alive
    exact rotating.fair split same others distinct alive

/-- Three children, the second of which is reaped between two rounds. -/
def roundsWithExit : List ParentLabel :=
  [.epollWait [.listen, .listen], .dispatch, .dispatch, .exit 12, .epollWait [.listen, .signals, .listen, .listen],
    .dispatch, .recv [.sigchld], .signal, .waitpid (some 12), .waitpid none, .dispatch, .dispatch]

def threeChildren : Fin 3 → Int := fun slot => 11 + slot.val

/-- Slot 2 has its one turn between the two turns of slot 0 around the exit of slot 1. -/
theorem round_robin_fair_exit :
    ∃ pool, run step (create threeChildren) roundsWithExit = some pool ∧
      pool.dispatches.map (·.slot) = [0, 1, 2, 0, 2] ∧
      ∀ earlier first between second later, pool.dispatches = earlier ++ first :: between ++ second :: later →
        first.slot = 0 → second.slot = 0 → (∀ dispatch ∈ between, dispatch.slot ≠ 0) →
        (∀ dispatch ∈ between ++ [second], dispatch.pids 2 ≠ -1) →
        between.countP (fun dispatch => dispatch.slot = 2) = 1 := by
  have computed :
    (run step (create threeChildren) roundsWithExit).map (fun pool => pool.dispatches.map (·.slot)) =
      some [0, 1, 2, 0, 2] := by decide +kernel
  obtain ⟨pool, reached, slots⟩ := Option.map_eq_some_iff.mp computed
  refine ⟨pool, reached, slots, fun earlier first between second later split left right others alive => ?_⟩
  exact (round_robin_fair threeChildren roundsWithExit reached).2 earlier first between second later 2 split
    (left.trans right.symm) (right ▸ others) (right ▸ by decide) alive

end UnixProgramming.Pool.ProcessPool

import UnixProgramming.Lib.Progress
import UnixProgramming.Pool.ParentSignals
import UnixProgramming.Pool.SubProcessSignals

/-! How the pool ends. A `SIGTERM` on its way to a child and a `SIGCHLD` on its way to the
parent are not lost, so nobody waits for ever: after a `SIGTERM` or `SIGINT` the children
return, the parent reaps them and returns as the last one. -/

namespace UnixProgramming.Pool

open UnixProgramming.Lib

namespace PoolSignals
variable {n capacity : Nat} {system next final : PoolSignals n} {forked : Fin n → Int} {slot : Fin n}

structure Sound (capacity : Nat) (forked : Fin n → Int) (system : PoolSignals n) : Prop where
  census : system.parent.Census forked fun slot => (system.children slot).stage ≠ .exited
  room : system.inbox.bytes.length ≤ capacity
  informed : system.parent.Informed system.inbox
  children : ∀ slot, (system.children slot).Sound capacity

theorem Sound.create [NeZero n] (positive : ∀ slot, 0 < forked slot) (distinct : Function.Injective forked) :
    Sound capacity forked (create forked) where
  census := .create positive distinct fun slot => by simp [PoolSignals.create, SubProcess.start]
  room := Nat.zero_le _
  informed := .create positive
  children := fun _ => .start

/-- Only one child changes, and it is as alive as it was. -/
theorem Sound.setChild (sound : Sound capacity forked system) {child : SubProcess}
    (same : child.stage ≠ .exited ↔ (system.children slot).stage ≠ .exited) (ok : child.Sound capacity) :
    Sound capacity forked { system with children := Function.update system.children slot child } where
  census := by
    refine ⟨sound.census.table, fun other => ?_, sound.census.unreaped⟩
    simp only [sound.census.running other, Function.update_apply]
    split_ifs with here
    · rw [here, same]
    · rfl
  room := sound.room
  informed := sound.informed
  children := by
    intro other
    simp only [Function.update_apply]
    split_ifs
    · exact ok
    · exact sound.children other

theorem Sound.ended (sound : Sound capacity forked system) (distinct : Function.Injective forked)
    (taken : system.ended slot = some next) : Sound capacity forked next := by
  obtain ⟨parent, stepped, same⟩ := Option.map_eq_some_iff.mp taken
  subst same
  refine ⟨?_, sound.room, sound.informed.exit stepped, fun other => ?_⟩
  · refine sound.census.exit distinct (by simp) (fun other apart => ?_) stepped
    simp only [Function.update_of_ne apart]
  · simp only [Function.update_apply]
    split_ifs
    · exact (sound.children slot).exited
    · exact sound.children other

section After
variable {label : ParentLabel} {parent : ProcessPool n}

@[simp] theorem after_parent (system : PoolSignals n) (label : ParentLabel) (parent : ProcessPool n) :
    (system.after label parent).parent = parent := by
  unfold after
  split
  · rfl
  · rfl
  · split_ifs <;> rfl
  · split_ifs <;> rfl
  · rfl

/-- A child is left alone by the parent or gets a `SIGTERM`. -/
theorem after_child (system : PoolSignals n) (label : ParentLabel) (parent : ProcessPool n) (slot : Fin n) :
    (system.after label parent).children slot = system.children slot ∨
      (system.after label parent).children slot = (system.children slot).raise .sigterm := by
  unfold after
  split
  · exact .inl rfl
  · exact .inl rfl
  · split_ifs
    · by_cases used : system.parent.pids slot ≠ -1
      · exact .inr (if_pos used)
      · exact .inl (if_neg used)
    · exact .inl rfl
  · split_ifs <;> exact .inl rfl
  · exact .inl rfl

theorem after_stage (system : PoolSignals n) (label : ParentLabel) (parent : ProcessPool n) (slot : Fin n) :
    ((system.after label parent).children slot).stage = (system.children slot).stage := by
  obtain same | raised := after_child system label parent slot
  · rw [same]
  · rw [raised, SubProcess.raise_stage]

/-- Other signals of the parent than those it reads: a `SIGPIPE` at most. -/
theorem after_inbox (system : PoolSignals n) (parent : ProcessPool n) (waits : ∀ events, label ≠ .epollWait events)
    (reads : ∀ received, label ≠ .recv received) :
    (system.after label parent).inbox = system.inbox ∨
      (label = .dispatch ∧ (system.after label parent).inbox = system.inbox.raise .sigpipe) := by
  unfold after
  split
  · exact absurd rfl (waits _)
  · exact absurd rfl (reads _)
  · split_ifs <;> exact .inl rfl
  · split_ifs
    · exact .inr ⟨rfl, rfl⟩
    · exact .inl rfl
  · exact .inl rfl

theorem Feasible.own (feasible : system.Feasible label) : ∀ pid, label ≠ .exit pid := by
  rintro pid rfl
  exact feasible

theorem Sound.parentStep (sound : Sound capacity forked system) (small : capacity ≤ signalBytes)
    (distinct : Function.Injective forked) (works : label ≠ .epollFailure) (feasible : system.Feasible label)
    (taken : system.parent.step label = some parent) : Sound capacity forked (system.after label parent) := by
  have turn := ProcessPool.step_turn feasible.own taken
  have census : ((system.after label parent).parent).Census forked
      fun slot => ((system.after label parent).children slot).stage ≠ .exited := by
    simp only [after_stage, after_parent]
    exact sound.census.turn distinct feasible.own taken
  have children : ∀ slot, ((system.after label parent).children slot).Sound capacity := by
    intro slot
    obtain same | raised := after_child system label parent slot
    · exact same ▸ sound.children slot
    · exact raised ▸ (sound.children slot).raise .sigterm
  have whole := Nat.le_trans sound.room small
  by_cases waits : ∃ events, label = .epollWait events
  · obtain ⟨events, rfl⟩ := waits
    cases turn with
    | epollWait events stage runs => exact ⟨census, sound.room, sound.informed.epollWait stage, children⟩
  by_cases reads : ∃ received, label = .recv received
  · obtain ⟨received, rfl⟩ := reads
    have same : received = system.inbox.bytes.take signalBytes := feasible
    subst same
    cases turn with
    | recv received pending stage =>
      refine ⟨census, ?_, sound.informed.recv whole stage, children⟩
      simp [after, SignalPipe.read_all whole]
  rw [not_exists] at waits reads
  have informed := sound.informed.turn turn works waits reads
  refine ⟨census, ?_, ?_, children⟩
  · obtain same | ⟨-, raised⟩ := after_inbox system parent waits reads
    · exact same ▸ sound.room
    · rw [raised]
      exact sound.room
  · rw [after_parent]
    obtain same | ⟨-, raised⟩ := after_inbox system parent waits reads
    · exact same ▸ informed
    · rw [raised]
      exact informed.hear (fun _ announced => announced.raise .sigpipe) fun carries => carries.raise .sigpipe

end After

theorem Sound.step (sound : Sound capacity forked system) (small : capacity ≤ signalBytes)
    (distinct : Function.Injective forked) {label : SignalsLabel n} (heard : system.Heard capacity label)
    (taken : system.step capacity label = some next) : Sound capacity forked next := by
  cases label with
  | raise signal =>
    cases taken
    exact ⟨sound.census, sound.room, sound.informed.hear (fun _ announced => announced.raise signal)
      (fun carries => carries.raise signal), sound.children⟩
  | raiseChild slot signal =>
    cases taken
    exact sound.setChild (by rw [SubProcess.raise_stage]) ((sound.children slot).raise signal)
  | crash slot =>
    dsimp only [PoolSignals.step] at taken
    split_ifs at taken
    exact sound.ended distinct taken
  | handle signal =>
    dsimp only [PoolSignals.step] at taken
    split_ifs at taken
    cases taken
    exact ⟨sound.census, SignalPipe.handle_length_le sound.room signal,
      sound.informed.hear (fun _ announced => announced.handle capacity signal) (fun carries => carries.handle heard signal),
      sound.children⟩
  | parent label =>
    dsimp only [PoolSignals.step] at taken
    split_ifs at taken with feasible
    obtain ⟨parent, stepped, same⟩ := Option.map_eq_some_iff.mp taken
    subst same
    refine sound.parentStep small distinct ?_ feasible stepped
    rintro rfl
    exact heard
  | child slot label =>
    obtain ⟨child, stepped, same⟩ := Option.map_eq_some_iff.mp taken
    subst same
    have alive := SubProcess.step_alive stepped
    exact sound.setChild (iff_of_true alive.2 alive.1) ((sound.children slot).step small stepped)
  | exit slot =>
    dsimp only [PoolSignals.step] at taken
    split_ifs at taken
    exact sound.ended distinct taken

/-- Every child that is not reaped has been told to end. -/
def Doomed (system : PoolSignals n) : Prop :=
  ∀ slot, system.parent.pids slot ≠ -1 → (system.children slot).Doomed

theorem Doomed.setChild (doomed : system.Doomed) {child : SubProcess}
    (kept : (system.children slot).Doomed → child.Doomed) :
    Doomed { system with children := Function.update system.children slot child } := by
  intro other used
  simp only [Function.update_apply]
  split_ifs with here
  · exact kept (here ▸ doomed other used)
  · exact doomed other used

theorem Doomed.ended (doomed : system.Doomed) (taken : system.ended slot = some next) : next.Doomed := by
  obtain ⟨parent, stepped, same⟩ := Option.map_eq_some_iff.mp taken
  subst same
  intro other used
  simp only [Function.update_apply]
  split_ifs with here
  · exact .inl rfl
  · exact doomed other fun unused => used (ProcessPool.step_unused stepped unused)

theorem Doomed.parentStep (doomed : system.Doomed) {label : ParentLabel} {parent : ProcessPool n}
    (taken : system.parent.step label = some parent) : (system.after label parent).Doomed := by
  intro other used
  rw [after_parent] at used
  have before := doomed other fun unused => used (ProcessPool.step_unused taken unused)
  obtain same | raised := after_child system label parent other
  · exact same ▸ before
  · exact raised ▸ before.raise .sigterm

theorem Doomed.step (doomed : system.Doomed) (sound : Sound capacity forked system) (small : capacity ≤ signalBytes)
    {label : SignalsLabel n} (heard : system.Heard capacity label) (taken : system.step capacity label = some next) :
    next.Doomed := by
  cases label with
  | raise signal =>
    cases taken
    exact doomed
  | raiseChild slot signal =>
    cases taken
    exact doomed.setChild fun before => before.raise signal
  | crash slot =>
    dsimp only [PoolSignals.step] at taken
    split_ifs at taken
    exact doomed.ended taken
  | handle signal =>
    dsimp only [PoolSignals.step] at taken
    split_ifs at taken
    cases taken
    exact doomed
  | parent label =>
    dsimp only [PoolSignals.step] at taken
    split_ifs at taken
    obtain ⟨parent, stepped, same⟩ := Option.map_eq_some_iff.mp taken
    exact same ▸ doomed.parentStep stepped
  | child slot label =>
    obtain ⟨child, stepped, same⟩ := Option.map_eq_some_iff.mp taken
    subst same
    refine doomed.setChild fun before => before.step (Nat.le_trans (sound.children slot).room small) ?_ stepped
    rintro signal rfl
    exact heard
  | exit slot =>
    dsimp only [PoolSignals.step] at taken
    split_ifs at taken
    exact doomed.ended taken

/-- A signal that the parent handles costs what it may set off: a `SIGTERM` for every child.
The life of a child costs the `SIGCHLD` it ends with, and an event on `m_listenfd` the
`SIGPIPE` it may lead to. -/
def weight (system : PoolSignals n) : Nat :=
  system.parent.stage.weight (3 * n + 3) (3 * n + 6) + system.inbox.weight (3 * n + 6) (3 * n + 3) 2 +
    system.parent.exited.length + tally (SubProcess.weight (3 * n + 8)) system.children

theorem innerStep_some {label : SignalsLabel n} :
    innerStep capacity system label = some next ↔
      Inner label ∧ system.Heard capacity label ∧ system.step capacity label = some next := by
  unfold innerStep
  split_ifs with allowed
  · exact ⟨fun taken => ⟨allowed.1, allowed.2, taken⟩, fun taken => taken.2.2⟩
  · exact ⟨fun never => False.elim never, fun taken => absurd ⟨taken.1, taken.2.1⟩ allowed⟩

theorem enabled_parent (label : ParentLabel) (inner : ∀ events, label = .epollWait events → events = [.signals])
    (works : label ≠ .epollFailure) (feasible : system.Feasible label) (taken : (system.parent.step label).isSome = true) :
    Enabled (innerStep capacity) system := by
  obtain ⟨parent, stepped⟩ := Option.isSome_iff_exists.mp taken
  refine ⟨.parent label, system.after label parent, innerStep_some.mpr ⟨?_, ?_, ?_⟩⟩
  · cases label with
    | epollWait events => exact inner events rfl
    | _ => exact trivial
  · cases label with
    | epollFailure => exact works rfl
    | _ => exact trivial
  · simp only [step, feasible, if_true, stepped, Option.map_some]

theorem enabled_ended (label : SignalsLabel n) (sound : Sound capacity forked system) (inner : Inner label)
    (heard : system.Heard capacity label) (alive : (system.children slot).stage ≠ .exited)
    (same : system.step capacity label = system.ended slot) : Enabled (innerStep capacity) system := by
  have runs := (sound.census.running slot).mpr alive
  have gone : (system.ended slot).isSome = true := by simp [ended, ProcessPool.step, runs]
  obtain ⟨next, taken⟩ := Option.isSome_iff_exists.mp gone
  exact ⟨label, next, innerStep_some.mpr ⟨inner, heard, same.trans taken⟩⟩

/-- The parent has something to do, has returned, or is blocked without any signal. -/
theorem Sound.parent_progress (sound : Sound capacity forked system) (holds : 0 < capacity) :
    Enabled (innerStep capacity) system ∨ system.parent.stage = .left ∨
      (system.parent.stage = .events [] ∧ system.parent.stop = false ∧ system.inbox.pending = [] ∧
        system.inbox.bytes = []) := by
  cases stage : system.parent.stage with
  | left => exact .inr (.inl rfl)
  | signals received pending =>
    cases received with
    | nil => exact absurd stage (sound.informed.handed pending)
    | cons signal received =>
      refine .inl (enabled_parent .signal (by simp) (by simp) trivial ?_)
      cases signal <;> simp [ProcessPool.step, stage]
  | reaping received pending =>
    cases exited : system.parent.exited with
    | nil =>
      refine .inl (enabled_parent (.waitpid none) (by simp) (by simp) trivial ?_)
      simp [ProcessPool.step, stage, exited]
    | cons pid rest =>
      refine .inl (enabled_parent (.waitpid (some pid)) (by simp) (by simp) trivial ?_)
      simp [ProcessPool.step, stage, exited]
  | events pending =>
    cases pending with
    | cons event pending =>
      left
      cases event with
      | listen => exact enabled_parent .dispatch (by simp) (by simp) trivial (by simp [ProcessPool.step, stage])
      | signals => exact enabled_parent (.recv _) (by simp) (by simp) rfl (by simp [ProcessPool.step, stage])
      | other => exact enabled_parent .skip (by simp) (by simp) trivial (by simp [ProcessPool.step, stage])
    | nil =>
      by_cases stopped : system.parent.stop = true
      · exact .inl (enabled_parent .leave (by simp) (by simp) trivial (by simp [ProcessPool.step, stage, stopped]))
      by_cases set : system.inbox.edge = true
      · refine .inl (enabled_parent (.epollWait [.signals]) (by simp) (by simp) ?_ (by simp [ProcessPool.step, stage, stopped]))
        simp [Feasible, set]
      -- some child is left, so what is in the pipe would be announced
      have used : ∃ slot, system.parent.pids slot ≠ -1 := by
        by_contra unused
        have ends := sound.informed.last fun slot => not_not.mp fun used => unused ⟨slot, used⟩
        simp [stage, stopped] at ends
      have empty : system.inbox.bytes = [] := by
        by_contra waiting
        have announced := sound.informed.announced used waiting
        simp [stage, set] at announced
      cases raised : system.inbox.pending with
      | nil => exact .inr (.inr ⟨rfl, by simpa using stopped, rfl, empty⟩)
      | cons signal rest =>
        have room : system.inbox.bytes.length < capacity := by simpa [empty] using holds
        refine .inl ⟨.handle signal, _, innerStep_some.mpr ⟨trivial, room, if_pos ⟨?_, ?_⟩⟩⟩
        · rw [raised]
          exact List.mem_cons_self
        · simp [stage]

/-- The parent returns only when no child is left. -/
theorem Sound.finished (sound : Sound capacity forked system) (left : system.parent.stage = .left) : system.Finished := by
  have reaped := sound.informed.stops (.inr left)
  refine ⟨left, fun slot => ?_, reaped, fun slot => (sound.census.table.closed slot).mpr (reaped slot)⟩
  by_contra alive
  have runs := (sound.census.running slot).mpr alive
  rw [reaped slot] at runs
  exact sound.census.no_process (List.mem_append_left _ runs)

/-- A parent that is blocked without a signal has reaped every child that is gone. -/
theorem Sound.exited_nil (sound : Sound capacity forked system) (stage : system.parent.stage = .events [])
    (pending : system.inbox.pending = []) (bytes : system.inbox.bytes = []) : system.parent.exited = [] := by
  by_contra gone
  have coming := sound.informed.exits gone
  simp [SignalPipe.Carries, stage, pending, bytes] at coming

/-- The pool is on its way to its end. -/
structure Closing (capacity : Nat) (forked : Fin n → Int) (system : PoolSignals n) : Prop where
  sound : Sound capacity forked system
  doomed : system.Doomed

theorem Closing.step (closing : Closing capacity forked system) (small : capacity ≤ signalBytes)
    (distinct : Function.Injective forked) {label : SignalsLabel n} (heard : system.Heard capacity label)
    (taken : system.step capacity label = some next) : Closing capacity forked next :=
  ⟨closing.sound.step small distinct heard taken, closing.doomed.step closing.sound small heard taken⟩

theorem Closing.progress (closing : Closing capacity forked system) (holds : 0 < capacity) :
    system.Finished ∨ Enabled (innerStep capacity) system := by
  obtain ⟨sound, doomed⟩ := closing
  obtain enabled | left | ⟨stage, runs, pending, bytes⟩ := sound.parent_progress holds
  · exact .inr enabled
  · exact .inl (sound.finished left)
  -- the parent waits for a child that has been told to end
  have used : ∃ slot, system.parent.pids slot ≠ -1 := by
    by_contra unused
    have ends := sound.informed.last fun slot => not_not.mp fun used => unused ⟨slot, used⟩
    simp [stage, runs] at ends
  obtain ⟨slot, used⟩ := used
  have process := sound.census.unreaped slot used
  rw [sound.exited_nil stage pending bytes, List.append_nil] at process
  have alive := (sound.census.running slot).mp process
  obtain ends | ⟨label, next, taken, inner, room⟩ := (doomed slot used).progress (sound.children slot) holds alive
  · exact .inr (enabled_ended (.exit slot) sound trivial trivial alive (if_pos ends))
  · refine .inr ⟨.child slot label, { system with children := Function.update system.children slot next },
      innerStep_some.mpr ⟨?_, ?_, ?_⟩⟩
    · cases label with
      | fetch events => exact inner events rfl
      | _ => exact trivial
    · cases label with
      | handle signal => exact room signal rfl
      | _ => exact trivial
    · simp only [PoolSignals.step, taken, Option.map_some]

end PoolSignals
end UnixProgramming.Pool

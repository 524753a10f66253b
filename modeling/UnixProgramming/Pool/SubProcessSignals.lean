import UnixProgramming.Pool.PoolSignals

/-! A child of the pool and its signals. What it is told by a `SIGTERM` is kept until it
ends, and every step it takes for nothing but its signals costs something. -/

namespace UnixProgramming.Pool

open UnixProgramming.Lib

def SubProcessStage.pending : SubProcessStage → List ChildEvent
  | .events pending => pending
  | _ => []

namespace SubProcess
variable {capacity : Nat} {child next : SubProcess} {label : SubProcessLabel}

inductive Change (capacity : Nat) (child : SubProcess) : SubProcessLabel → SubProcess → Prop where
  | boot (stage : child.stage = .starting) : Change capacity child .boot { child with stage := .events [] }
  | handle (signal : Signal) (pending : List ChildEvent) (stage : child.stage = .events pending)
    (raised : signal ∈ child.inbox.pending) :
    Change capacity child (.handle signal) { child with inbox := child.inbox.handle capacity signal }
  | fetch (events : List ChildEvent) (stage : child.stage = .events [])
    (single : events.count .signals ≤ child.inbox.edge.toNat) :
    Change capacity child (.fetch events)
      { child with stage := .events events, inbox := child.inbox.fetch (events.contains .signals) }
  | recv (pending : List ChildEvent) (stage : child.stage = .events (.signals :: pending)) :
    Change capacity child .recv
      { child with
        stage := .events pending
        stop := child.stop || (child.inbox.bytes.take signalBytes).contains .sigterm ||
          (child.inbox.bytes.take signalBytes).contains .sigint
        inbox := child.inbox.read signalBytes }
  | skip (event : ChildEvent) (pending : List ChildEvent) (other : event ≠ .signals)
    (stage : child.stage = .events (event :: pending)) :
    Change capacity child .skip { child with stage := .events pending }

theorem step_change (taken : child.step capacity label = some next) : Change capacity child label next := by
  cases label with
  | boot =>
    dsimp only [step] at taken
    split_ifs at taken with stage
    exact Option.some.inj taken ▸ .boot stage
  | handle signal =>
    dsimp only [step] at taken
    split at taken
    · next pending stage =>
      split_ifs at taken with raised
      exact Option.some.inj taken ▸ .handle signal pending stage raised
    · cases taken
  | fetch events =>
    dsimp only [step] at taken
    split_ifs at taken with ready
    exact Option.some.inj taken ▸ .fetch events ready.1 ready.2.2
  | recv =>
    dsimp only [step] at taken
    split at taken
    · next pending stage => exact Option.some.inj taken ▸ .recv pending stage
    · cases taken
  | skip =>
    dsimp only [step] at taken
    split at taken
    · next pending stage => exact Option.some.inj taken ▸ .skip .pipe pending (by simp) stage
    · next pending stage => exact Option.some.inj taken ▸ .skip .client pending (by simp) stage
    · cases taken

@[simp] theorem raise_stage (child : SubProcess) (signal : Signal) : (child.raise signal).stage = child.stage := by
  unfold raise
  split
  · split_ifs <;> rfl
  · rfl
  · rfl

/-- A step is taken by a process that has not ended, and does not end it. -/
theorem step_alive (taken : child.step capacity label = some next) : child.stage ≠ .exited ∧ next.stage ≠ .exited := by
  cases step_change taken with
  | boot stage => exact ⟨by simp [stage], by simp⟩
  | handle signal pending stage raised => exact ⟨by simp [stage], by simp [stage]⟩
  | fetch events stage single => exact ⟨by simp [stage], by simp⟩
  | recv pending stage => exact ⟨by simp [stage], by simp⟩
  | skip event pending other stage => exact ⟨by simp [stage], by simp⟩

/-- The signals of a child fit its pipe and are announced. -/
structure Sound (capacity : Nat) (child : SubProcess) : Prop where
  room : child.inbox.bytes.length ≤ capacity
  announced : child.stage ≠ .exited → child.inbox.Announced (.signals ∈ child.stage.pending)

theorem Sound.start : Sound capacity SubProcess.start := ⟨Nat.zero_le _, fun _ waiting => absurd rfl waiting⟩

theorem Sound.raise (sound : child.Sound capacity) (signal : Signal) : (child.raise signal).Sound capacity := by
  unfold SubProcess.raise
  split
  · split_ifs
    · exact sound
    · exact ⟨sound.room, fun alive => (sound.announced alive).raise signal⟩
  · exact ⟨sound.room, fun alive => (sound.announced alive).raise signal⟩
  · exact sound

theorem Sound.step (sound : child.Sound capacity) (small : capacity ≤ signalBytes)
    (taken : child.step capacity label = some next) : next.Sound capacity := by
  obtain ⟨room, announced⟩ := sound
  have whole := Nat.le_trans room small
  cases step_change taken with
  | boot stage =>
    refine ⟨room, fun _ => (announced (by simp [stage])).mono ?_⟩
    rw [stage]
    exact id
  | handle signal pending stage raised =>
    exact ⟨SignalPipe.handle_length_le room signal, fun alive => (announced alive).handle capacity signal⟩
  | fetch events stage single =>
    refine ⟨room, fun _ => ((announced (by simp [stage])).mono ?_).fetch ?_⟩
    · rw [stage]
      exact fun never => absurd never List.not_mem_nil
    · exact List.contains_iff_mem.mp
  | recv pending stage =>
    refine ⟨?_, fun _ => .read whole _⟩
    rw [SignalPipe.read_all whole]
    exact Nat.zero_le _
  | skip event pending other stage =>
    refine ⟨room, fun _ => (announced (by simp [stage])).mono ?_⟩
    rw [stage]
    exact fun member => (List.mem_cons.mp member).resolve_left other.symm

/-- A process that has ended has nothing left to be announced. -/
theorem Sound.exited (sound : child.Sound capacity) : Sound capacity { child with stage := .exited } :=
  ⟨sound.room, fun alive => absurd rfl alive⟩

/-- The child has been told to end. -/
def Doomed (child : SubProcess) : Prop :=
  child.stage = .exited ∨ child.stop = true ∨ child.inbox.Carries .sigterm

theorem Doomed.raise (doomed : child.Doomed) (signal : Signal) : (child.raise signal).Doomed := by
  unfold SubProcess.raise
  split
  · split_ifs
    · exact doomed
    · exact doomed.imp_right (Or.imp_right fun carries => carries.raise signal)
  · exact doomed.imp_right (Or.imp_right fun carries => carries.raise signal)
  · exact doomed

theorem Doomed.step (doomed : child.Doomed) (whole : child.inbox.bytes.length ≤ signalBytes)
    (heard : ∀ signal, label = .handle signal → child.inbox.bytes.length < capacity)
    (taken : child.step capacity label = some next) : next.Doomed := by
  cases step_change taken with
  | boot stage => exact .inr (doomed.resolve_left (by simp [stage]))
  | handle signal pending stage raised =>
    have room := heard signal rfl
    exact doomed.imp_right (Or.imp_right fun carries => carries.handle room signal)
  | fetch events stage single =>
    exact .inr ((doomed.resolve_left (by simp [stage])).imp_right fun carries => carries.fetch _)
  | recv pending stage =>
    obtain stopped | carries := doomed.resolve_left (by simp [stage])
    · exact .inr (.inl (by simp [stopped]))
    · obtain later | received := carries.read whole
      · exact .inr (.inr later)
      · exact .inr (.inl (by simp [received]))
  | skip event pending other stage => exact .inr (doomed.resolve_left (by simp [stage]))

/-- The price of a child: its life, the events at hand, and its signals. -/
def weight (life : Nat) (child : SubProcess) : Nat :=
  match child.stage with
  | .starting => life + 1 + child.inbox.weight 3 0 2
  | .events pending => life + pending.length + child.inbox.weight 3 0 2
  | .exited => 0

/-- A child that has been told to end is never at a loss. -/
theorem Doomed.progress (doomed : child.Doomed) (sound : child.Sound capacity) (holds : 0 < capacity)
    (alive : child.stage ≠ .exited) :
    child.Ends ∨ ∃ label next, child.step capacity label = some next ∧
      (∀ events, label = .fetch events → events = [.signals]) ∧
      ∀ signal, label = .handle signal → child.inbox.bytes.length < capacity := by
  cases stage : child.stage with
  | starting => exact .inr ⟨.boot, _, if_pos stage, by simp, by simp⟩
  | exited => exact absurd stage alive
  | events pending =>
    cases pending with
    | cons event pending =>
      cases event with
      | pipe => exact .inr ⟨.skip, { child with stage := .events pending }, by simp [SubProcess.step, stage], by simp, by simp⟩
      | client => exact .inr ⟨.skip, { child with stage := .events pending }, by simp [SubProcess.step, stage], by simp, by simp⟩
      | signals =>
        have read : (child.step capacity .recv).isSome = true := by simp [SubProcess.step, stage]
        obtain ⟨next, taken⟩ := Option.isSome_iff_exists.mp read
        exact .inr ⟨.recv, next, taken, by simp, by simp⟩
    | nil =>
      obtain stopped | carries := doomed.resolve_left alive
      · exact .inl (.inl ⟨stage, stopped⟩)
      · by_cases stopped : child.stop = true
        · exact .inl (.inl ⟨stage, stopped⟩)
        by_cases empty : child.inbox.bytes = []
        · -- with an empty pipe the signal is pending, and the handler has room
          have raised : .sigterm ∈ child.inbox.pending := carries.resolve_right (by simp [empty])
          refine .inr ⟨.handle .sigterm, { child with inbox := child.inbox.handle capacity .sigterm }, ?_, by simp, ?_⟩
          · simp [SubProcess.step, stage, raised]
          · intro signal _
            simpa [empty] using holds
        · have set : child.inbox.edge = true := by
            have announced := sound.announced alive empty
            rw [stage] at announced
            exact announced.resolve_right List.not_mem_nil
          exact .inr ⟨.fetch [.signals], _, if_pos ⟨stage, by simpa using stopped, by simp [set]⟩, by simp, by simp⟩

end SubProcess

end UnixProgramming.Pool

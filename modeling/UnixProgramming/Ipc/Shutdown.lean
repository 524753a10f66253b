import UnixProgramming.Ipc.ClientTables

/-! Shutting the chat server down. The parent's `SIGTERM` reaches a child whose inherited
handler has no effect on `stop_child`, and clients are still accepted while the parent waits
for its children. -/

namespace UnixProgramming.Ipc.ShmServer

open UnixProgramming.Lib

variable {server next : ShmServer}

/-- A `SIGTERM` comes to a child that is about to leave its loop anyway: `stop_child` is set,
or will be by an event of the batch at hand. -/
def Leaving (child : ShmChild) : Prop :=
  child.stopChild = true ∨ child.stage ≠ .testing ∧ child.stage ≠ .blocked

/-- The last event of a batch ends the service of a child that has received `SIGTERM`. -/
def Ending (child : ShmChild) (result : RecvResult) : Prop :=
  child.signalled = true → child.stage = .handling 1 → child.stopChild = true ∨ result.ends = true

/-- Children leave for reasons of their own when `SIGTERM` comes, and no client is served
while the server terminates. -/
def Heeded (server : ShmServer) : ShmLabel → Prop
  | .deliver pid => ∀ child ∈ server.children pid, Leaving child
  | .handle pid result => ∀ child ∈ server.children pid, Ending child result
  | .accept _ _ (some _) => server.terminate = true → server.userCount ≥ userLimit
  | _ => True

/-- A child that has received `SIGTERM` does not block in `epoll_wait`. -/
structure Heeds (child : ShmChild) : Prop where
  awake : child.signalled = true → child.stage ≠ .blocked
  leaves : child.signalled = true → child.stage = .testing → child.stopChild = true

theorem ofPending_cases (pending : Nat) :
    (pending = 0 ∧ ShmChildStage.ofPending pending = .testing) ∨
      (pending ≠ 0 ∧ ShmChildStage.ofPending pending = .handling pending) := by
  unfold ShmChildStage.ofPending
  by_cases none : pending = 0
  · exact .inl ⟨none, if_pos none⟩
  · exact .inr ⟨none, if_neg none⟩

theorem Heeds.childStep {child moved : ShmChild} (heeds : Heeds child) {label : ShmLabel} {pid : Int}
    (about : ShmLabel.child? label = some pid) (present : server.children pid = some child)
    (heeded : server.Heeded label) (taken : childStep child label = some moved) : Heeds moved := by
  obtain ⟨awake, leaves⟩ := heeds
  cases label with
  | test _ =>
    simp only [ShmServer.childStep] at taken
    split_ifs at taken with testing stopped
    · cases taken
      exact ⟨by simp, by simp⟩
    · cases taken
      exact ⟨fun signalled => absurd (leaves signalled testing) stopped, by simp⟩
  | fetch _ number =>
    simp only [ShmServer.childStep] at taken
    split_ifs at taken with blocked
    cases taken
    exact ⟨fun signalled => absurd blocked (awake signalled), fun signalled => absurd blocked (awake signalled)⟩
  | handle _ result =>
    cases about
    have ending : Ending child result := heeded child present
    simp only [ShmServer.childStep] at taken
    split at taken
    · next pending stage =>
      cases taken
      rcases ofPending_cases pending with ⟨rfl, same⟩ | ⟨more, same⟩
      · refine ⟨by simp [same], fun signalled _ => ?_⟩
        simpa using ending signalled stage
      · exact ⟨by simp [same], by simp [same]⟩
    · cases taken
  | deliver _ =>
    cases about
    have leaving : Leaving child := heeded child present
    simp only [ShmServer.childStep] at taken
    split_ifs at taken with killed blocked
    · cases taken
      refine ⟨by simp, fun _ _ => ?_⟩
      exact leaving.resolve_right fun inner => inner.2 blocked
    · cases taken
      refine ⟨fun _ => blocked, fun _ testing => ?_⟩
      exact leaving.resolve_right fun inner => inner.1 testing
  | exit _ =>
    simp only [ShmServer.childStep] at taken
    split_ifs at taken
    cases taken
    exact ⟨by simp, by simp⟩
  | _ => cases about

/-- The server in every run that is heeded. -/
structure Terminating (server : ShmServer) : Prop where
  consistent : server.Consistent
  heeds : ∀ pid child, server.children pid = some child → Heeds child
  stops : server.terminate = true → server.userCount = 0 →
    server.stopServer = true ∨ ShmStage.isReaping server.stage = true

theorem Terminating.create (users : Int → ClientData) : Terminating (create users) :=
  ⟨.create users, fun _ _ present => (Option.some_ne_none _ present.symm).elim,
    fun terminates => (Bool.false_ne_true terminates).elim⟩

/-- A row in use moves behind the others, or nothing moves. -/
theorem onListen_cases (server : ShmServer) (connfd : Int) (pipefd : Int × Int) (forked : Option Int) :
    ((server.onListen connfd pipefd forked).userCount = server.userCount ∧
        (server.onListen connfd pipefd forked).children = server.children) ∨
      ∃ pid, forked = some pid ∧ server.userCount < userLimit ∧
        server.onListen connfd pipefd forked = server.register connfd pipefd pid := by
  unfold onListen
  split_ifs with full
  · exact .inl ⟨rfl, rfl⟩
  · cases forked with
    | none => exact .inl ⟨rfl, rfl⟩
    | some pid => exact .inr ⟨pid, rfl, by omega, rfl⟩

theorem onListen_flags (server : ShmServer) (connfd : Int) (pipefd : Int × Int) (forked : Option Int) :
    (server.onListen connfd pipefd forked).terminate = server.terminate ∧
      (server.onListen connfd pipefd forked).stopServer = server.stopServer := by
  unfold onListen
  split_ifs
  · exact ⟨rfl, rfl⟩
  · cases forked <;> exact ⟨rfl, rfl⟩

theorem onListen_heeds (heeds : ∀ pid child, server.children pid = some child → Heeds child) (connfd : Int)
    (pipefd : Int × Int) (forked : Option Int) {pid : Int} {child : ShmChild}
    (present : (server.onListen connfd pipefd forked).children pid = some child) : Heeds child := by
  rcases onListen_cases server connfd pipefd forked with ⟨-, same⟩ | ⟨fresh, -, -, done⟩
  · exact heeds pid child (same ▸ present)
  · rw [done] at present
    rcases of_update_some present with ⟨-, rfl⟩ | ⟨-, was⟩
    · exact ⟨by simp, by simp⟩
    · exact heeds pid child was

theorem onTerm_heeds (heeds : ∀ pid child, server.children pid = some child → Heeds child) {pid : Int}
    {child : ShmChild} (present : server.onTerm.children pid = some child) : Heeds child := by
  obtain ⟨before, was, rfl | rfl⟩ := of_onTerm_some present
  · exact heeds pid child was
  · obtain ⟨awake, leaves⟩ := heeds pid before was
    exact ⟨awake, leaves⟩

theorem Terminating.step (terminating : server.Terminating) {label : ShmLabel} (heeded : server.Heeded label)
    (taken : server.step label = some next) : next.Terminating := by
  have after := terminating.consistent.step taken
  obtain ⟨consistent, heeds, stops⟩ := terminating
  have outside : ∀ {stage : ShmStage}, ShmStage.isReaping server.stage = false → server.terminate = true →
      server.userCount = 0 → server.stopServer = true ∨ ShmStage.isReaping stage = true :=
    fun elsewhere terminates none => .inl ((stops terminates none).resolve_right (by simp [elsewhere]))
  cases step_change taken with
  | child label pid child moved about present taking done =>
    subst done
    refine ⟨after, fun other kept known => ?_, stops⟩
    rcases of_update_some known with ⟨rfl, rfl⟩ | ⟨-, was⟩
    · exact (heeds _ child present).childStep about present heeded taking
    · exact heeds other kept was
  | accept connfd pipefd forked stage fresh elsewhere done =>
    subst done
    refine ⟨after, fun pid child present => onListen_heeds heeds connfd pipefd forked present, ?_⟩
    obtain ⟨terminate, stopServer⟩ := onListen_flags server connfd pipefd forked
    dsimp only
    rw [terminate, stopServer]
    intro terminates none
    rcases onListen_cases server connfd pipefd forked with ⟨count, -⟩ | ⟨pid, -, -, done⟩
    · exact outside elsewhere terminates (count ▸ none)
    · have lower := consistent.lower
      rw [done] at none
      simp only [register] at none
      omega
  | term stage elsewhere done =>
    subst done
    refine ⟨after, fun pid child present => onTerm_heeds heeds present, ?_⟩
    unfold onTerm
    split_ifs with none
    · exact fun _ _ => .inl rfl
    · exact fun _ zero => absurd zero none
  | reap pid child present left inside done =>
    subst done
    obtain ⟨-, stage, -⟩ := reap_kept server pid
    exact ⟨after, fun other kept known => heeds other kept (of_reap_some known), fun _ _ => .inr (stage ▸ inside)⟩
  | reaped stage done =>
    subst done
    exact ⟨after, heeds, fun terminates none => .inl (by simp_all)⟩
  | turn label stage elsewhere forks waits done =>
    subst done
    exact ⟨after, heeds, outside elsewhere⟩

instance (child : ShmChild) : Decidable (Leaving child) := inferInstanceAs (Decidable (_ ∨ _ ∧ _))

instance (child : ShmChild) (result : RecvResult) : Decidable (Ending child result) :=
  inferInstanceAs (Decidable (_ → _ → _))

instance (server : ShmServer) : (label : ShmLabel) → Decidable (server.Heeded label)
  | .deliver _ => inferInstanceAs (Decidable (∀ child ∈ _, Leaving child))
  | .handle _ result => inferInstanceAs (Decidable (∀ child ∈ _, Ending child result))
  | .accept _ _ (some _) => inferInstanceAs (Decidable (_ → _))
  | .accept _ _ none | .epollWait _ | .epollFailure | .acceptFailure | .recv _ | .relay | .signal | .waitpid _ | .leave
  | .test _ | .fetch _ _ | .exit _ => .isTrue trivial

/-- The parent handles a signal. -/
def signals (signal : Signal) : List ShmLabel := [.epollWait [.signals], .recv [signal], .signal]

end UnixProgramming.Ipc.ShmServer

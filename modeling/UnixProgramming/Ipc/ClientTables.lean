import UnixProgramming.Ipc.ShmServer

/-! The tables `users` and `sub_process` are inverse to each other over the rows in use, and
the rows in use are those of the unreaped children. -/

namespace UnixProgramming.Ipc.ShmServer

open UnixProgramming.Lib

variable {server next : ShmServer}

/-- The row is in use. -/
def Used (server : ShmServer) (row : Int) : Prop := 0 ≤ row ∧ row < server.userCount

structure Consistent (server : ShmServer) : Prop where
  lower : 0 ≤ server.userCount
  upper : server.userCount ≤ userLimit
  inverse : ∀ row, server.Used row → server.subProcess (server.users row).pid = row
  /-- A row in use holds a child and the parent end of its pipe. -/
  rows : ∀ row, server.Used row →
    (server.children (server.users row).pid).map (·.pipefd) = some (server.users row).pipefd.1
  /-- Every child has a row. -/
  placed : ∀ pid child, server.children pid = some child →
    server.Used (server.subProcess pid) ∧ (server.users (server.subProcess pid)).pid = pid

theorem Consistent.create (users : Int → ClientData) : Consistent (create users) := by
  refine ⟨Int.le_refl 0, by simp [ShmServer.create, userLimit], fun row used => ?_, fun row used => ?_, fun pid child present => ?_⟩
  · obtain ⟨above, below⟩ := used
    exact absurd below (by simpa [ShmServer.create] using above)
  · obtain ⟨above, below⟩ := used
    exact absurd below (by simpa [ShmServer.create] using above)
  · cases present

/-- Two rows in use hold different pids. -/
theorem Consistent.distinct (consistent : server.Consistent) {row other : Int} (used : server.Used row)
    (alsoUsed : server.Used other) (same : (server.users row).pid = (server.users other).pid) : row = other := by
  rw [← consistent.inverse row used, same, consistent.inverse other alsoUsed]

/-- Children may change as long as none appears, disappears or changes its pipe. -/
theorem Consistent.keep (consistent : server.Consistent) (users : next.users = server.users)
    (subProcess : next.subProcess = server.subProcess) (userCount : next.userCount = server.userCount)
    (children : ∀ pid, (next.children pid).map (·.pipefd) = (server.children pid).map (·.pipefd)) :
    next.Consistent := by
  obtain ⟨lower, upper, inverse, rows, placed⟩ := consistent
  have used : ∀ row, next.Used row ↔ server.Used row := fun row => by rw [Used, Used, userCount]
  refine ⟨userCount ▸ lower, userCount ▸ upper, fun row inUse => ?_, fun row inUse => ?_, fun pid child present => ?_⟩
  · rw [subProcess, users]
    exact inverse row ((used row).mp inUse)
  · rw [children, users]
    exact rows row ((used row).mp inUse)
  · have before : ((server.children pid).map (·.pipefd)).isSome := by
      rw [← children, present]
      rfl
    obtain ⟨old, was⟩ := Option.isSome_iff_exists.mp (by simpa using before)
    rw [used, subProcess, users]
    exact placed pid old was

theorem Consistent.register (consistent : server.Consistent) (room : server.userCount < userLimit)
    {pid : Int} (fresh : server.Fresh pid) (connfd : Int) (pipefd : Int × Int) :
    (server.register connfd pipefd pid).Consistent := by
  obtain ⟨lower, upper, inverse, rows, placed⟩ := consistent
  obtain ⟨-, -, absent⟩ := fresh
  have others : ∀ row, server.Used row → (server.users row).pid ≠ pid := by
    intro row used same
    have present := rows row used
    rw [same, absent] at present
    cases present
  refine ⟨?_, ?_, fun row used => ?_, fun row used => ?_, fun other child present => ?_⟩
  · show 0 ≤ server.userCount + 1
    omega
  · show server.userCount + 1 ≤ userLimit
    omega
  · by_cases last : row = server.userCount
    · simp [ShmServer.register, last]
    · have before : server.Used row := ⟨used.1, by have below : row < server.userCount + 1 := used.2; omega⟩
      simp [ShmServer.register, last, others row before, inverse row before]
  · by_cases last : row = server.userCount
    · simp [ShmServer.register, last]
    · have before : server.Used row := ⟨used.1, by have below : row < server.userCount + 1 := used.2; omega⟩
      simpa [ShmServer.register, last, others row before] using rows row before
  · by_cases this : other = pid
    · refine ⟨⟨?_, ?_⟩, ?_⟩
      · simpa [ShmServer.register, this] using lower
      · simp only [ShmServer.register, this, Function.update_self]
        omega
      · simp [ShmServer.register, this]
    · have old : server.children other = some child := by simpa [ShmServer.register, this] using present
      obtain ⟨⟨above, below⟩, own⟩ := placed other child old
      have earlier : server.subProcess other ≠ server.userCount := by omega
      refine ⟨⟨?_, ?_⟩, ?_⟩
      · simpa [ShmServer.register, this] using above
      · simp only [ShmServer.register, Function.update_of_ne this]
        omega
      · simpa [ShmServer.register, this, earlier] using own

/-- The last row in use. -/
def lastRow (server : ShmServer) : Int := server.userCount - 1

theorem Used.last {row : Int} (used : server.Used row) : server.Used server.lastRow := by
  unfold Used lastRow at *
  omega

/-- A row before the last one is in use. -/
theorem used_of_lt_last {row : Int} (above : 0 ≤ row) (below : row < server.lastRow) : server.Used row := by
  unfold Used lastRow at *
  omega

theorem Used.lt_last {row : Int} (used : server.Used row) (apart : row ≠ server.lastRow) : row < server.lastRow := by
  unfold Used lastRow at *
  omega

/-- What reaping a child does: the check of its row passes, and the last row moves there. -/
theorem Consistent.reap_eq (consistent : server.Consistent) {pid : Int} {child : ShmChild}
    (present : server.children pid = some child) :
    server.reap pid = { server with
      children := Function.update server.children pid none
      closed := server.closed ++ [child.pipefd]
      userCount := server.lastRow
      users := Function.update server.users (server.subProcess pid) (server.users server.lastRow)
      subProcess := Function.update (Function.update server.subProcess pid (-1))
        (server.users server.lastRow).pid (server.subProcess pid) } := by
  obtain ⟨used, own⟩ := consistent.placed pid child present
  have pipe : child.pipefd = (server.users (server.subProcess pid)).pipefd.1 := by
    have same := consistent.rows _ used
    rw [own, present] at same
    exact Option.some.inj same
  have upper := consistent.upper
  obtain ⟨above, below⟩ := used
  have check : ¬ (server.subProcess pid < 0 ∨ server.subProcess pid > userLimit) := by omega
  unfold ShmServer.reap
  dsimp only
  rw [if_neg check, Function.update_self, pipe]
  rfl

/-- The tables stay inverse. When the row of the reaped child is the last one, its pid keeps
an entry in `sub_process`, which no row in use has. -/
theorem Consistent.reap (consistent : server.Consistent) {pid : Int} {child : ShmChild}
    (present : server.children pid = some child) : (server.reap pid).Consistent := by
  obtain ⟨usedRow, own⟩ := consistent.placed pid child present
  have distinct : ∀ {row other : Int}, server.Used row → server.Used other → row ≠ other →
      (server.users row).pid ≠ (server.users other).pid :=
    fun used alsoUsed apart same => apart (consistent.distinct used alsoUsed same)
  rw [consistent.reap_eq present]
  obtain ⟨lower, upper, inverse, rows, placed⟩ := consistent
  have usedLast : server.Used server.lastRow := usedRow.last
  have earlier : ∀ {row : Int}, 0 ≤ row → row < server.lastRow → server.Used row ∧ row ≠ server.lastRow :=
    fun above below => ⟨used_of_lt_last above below, Int.ne_of_lt below⟩
  refine ⟨usedLast.1, ?_, fun row used => ?_, fun row used => ?_, fun other present => ?_⟩
  · show server.lastRow ≤ userLimit
    unfold lastRow
    omega
  · obtain ⟨before, inner⟩ := earlier used.1 used.2
    by_cases moved : row = server.subProcess pid
    · simp [moved]
    · have notPid := own ▸ distinct before usedRow moved
      simp [moved, notPid, distinct before usedLast inner, inverse row before]
  · obtain ⟨before, inner⟩ := earlier used.1 used.2
    by_cases moved : row = server.subProcess pid
    · have notPid := own ▸ distinct usedLast usedRow (moved ▸ inner.symm)
      simpa [moved, notPid] using rows _ usedLast
    · have notPid := own ▸ distinct before usedRow moved
      simpa [moved, notPid] using rows row before
  · intro same
    have apart : other ≠ pid := by
      rintro rfl
      simp at same
    obtain ⟨usedOther, named⟩ := placed other present (by simpa [apart] using same)
    by_cases moved : server.subProcess other = server.lastRow
    · -- the child of the last row now has the row of the reaped one
      rw [moved] at named
      have inner : server.subProcess pid ≠ server.lastRow := by
        intro same
        rw [same, named] at own
        exact apart own
      refine ⟨⟨?_, ?_⟩, ?_⟩
      · simpa [named] using usedRow.1
      · simp only [named, Function.update_self]
        exact usedRow.lt_last inner
      · simp [named]
    · have notLast : other ≠ (server.users server.lastRow).pid := named ▸ distinct usedOther usedLast moved
      have notRow : server.subProcess other ≠ server.subProcess pid := by
        intro same
        rw [same, own] at named
        exact apart named.symm
      refine ⟨⟨?_, ?_⟩, ?_⟩
      · simpa [notLast, apart] using usedOther.1
      · simp only [Function.update_of_ne notLast, Function.update_of_ne apart]
        exact usedOther.lt_last moved
      · simpa [notLast, apart, notRow] using named

theorem Consistent.onListen (consistent : server.Consistent) {forked : Option Int}
    (fresh : ∀ pid ∈ forked, server.Fresh pid) (connfd : Int) (pipefd : Int × Int) :
    (server.onListen connfd pipefd forked).Consistent := by
  unfold ShmServer.onListen
  split_ifs with full
  · exact consistent
  · cases forked with
    | some pid => exact consistent.register (by omega) (fresh pid rfl) connfd pipefd
    | none =>
      -- the row behind the last one in use
      obtain ⟨lower, upper, inverse, rows, placed⟩ := consistent
      have inside : ∀ {row : Int}, server.Used row → row ≠ server.userCount := fun used => Int.ne_of_lt used.2
      refine ⟨lower, upper, fun row used => ?_, fun row used => ?_, fun pid child present => ?_⟩
      · simpa [abandon, inside used] using inverse row used
      · simpa [abandon, inside used] using rows row used
      · obtain ⟨used, own⟩ := placed pid child present
        exact ⟨used, by simpa [abandon, inside used] using own⟩

theorem childStep_pipefd {child moved : ShmChild} {label : ShmLabel} (taken : childStep child label = some moved) :
    moved.pipefd = child.pipefd ∧ moved.idx = child.idx := by
  unfold childStep at taken
  split at taken
  · split_ifs at taken
    all_goals cases taken; exact ⟨rfl, rfl⟩
  · split_ifs at taken
    cases taken
    exact ⟨rfl, rfl⟩
  · split at taken
    · cases taken
      exact ⟨rfl, rfl⟩
    · cases taken
  · split_ifs at taken
    all_goals cases taken; exact ⟨rfl, rfl⟩
  · split_ifs at taken
    cases taken
    exact ⟨rfl, rfl⟩
  · cases taken

theorem onTerm_children (server : ShmServer) (pid : Int) :
    (server.onTerm.children pid).map (·.pipefd) = (server.children pid).map (·.pipefd) := by
  unfold onTerm
  split_ifs
  · rfl
  · dsimp only
    split_ifs
    · rw [Option.map_map]
      rfl
    · rfl

theorem Consistent.step (consistent : server.Consistent) {label : ShmLabel}
    (taken : server.step label = some next) : next.Consistent := by
  cases step_change taken with
  | child label pid child moved about present taking done =>
    subst done
    refine consistent.keep rfl rfl rfl fun other => ?_
    by_cases same : other = pid
    · simp [same, setChild, present, (childStep_pipefd taking).1]
    · simp [same, setChild]
  | accept connfd pipefd forked stage fresh outside done =>
    subst done
    exact (consistent.onListen fresh connfd pipefd).keep rfl rfl rfl fun _ => rfl
  | term stage outside done =>
    subst done
    refine consistent.keep ?_ ?_ ?_ (onTerm_children server)
    all_goals unfold onTerm; split_ifs <;> rfl
  | reap pid child present left inside done => exact done ▸ consistent.reap present
  | reaped stage done => exact done ▸ consistent.keep rfl rfl rfl fun _ => rfl
  | turn label stage outside forks waits done => exact done ▸ consistent.keep rfl rfl rfl fun _ => rfl

/-- What reaping does to the rows: the parent end of the child's own row is closed, that row
is dropped, and every other row stays, possibly in another place. -/
structure ReapLaw (server : ShmServer) (pid : Int) (child : ShmChild) (next : ShmServer) : Prop where
  closes : next.closed = server.closed ++ [child.pipefd]
  count : next.userCount = server.userCount - 1
  drops : ∀ row, next.Used row → (next.users row).pid ≠ pid
  keeps : ∀ data : ClientData, data.pid ≠ pid →
    ((∃ row, next.Used row ∧ next.users row = data) ↔ ∃ row, server.Used row ∧ server.users row = data)

theorem Consistent.reapLaw (consistent : server.Consistent) {pid : Int} {child : ShmChild}
    (present : server.children pid = some child) : ReapLaw server pid child (server.reap pid) := by
  have after := consistent.reap present
  obtain ⟨usedRow, own⟩ := consistent.placed pid child present
  rw [consistent.reap_eq present] at after ⊢
  refine ⟨rfl, rfl, fun row used same => ?_, fun data other => ⟨?_, ?_⟩⟩
  · have held := after.rows row used
    rw [same] at held
    simp at held
  · rintro ⟨row, used, rfl⟩
    have below : row < server.lastRow := used.2
    by_cases moved : row = server.subProcess pid
    · exact ⟨server.lastRow, usedRow.last, by simp [moved]⟩
    · exact ⟨row, used_of_lt_last used.1 below, by simp [moved]⟩
  · rintro ⟨row, used, rfl⟩
    have apart : row ≠ server.subProcess pid := by
      rintro rfl
      exact other own
    by_cases last : row = server.lastRow
    · exact ⟨server.subProcess pid, ⟨usedRow.1, usedRow.lt_last (last ▸ Ne.symm apart)⟩, by simp [last]⟩
    · exact ⟨row, ⟨used.1, used.lt_last last⟩, by simp [apart]⟩

/-- The client tables in every run: the rows in use hold the pids of the unreaped children,
each once, `sub_process` leads back from the pid to the row, and reaping a child drops its
own row alone. -/
theorem client_tables_consistent (users : Int → ClientData) (labels : List ShmLabel)
    (reached : run step (create users) labels = some server) :
    0 ≤ server.userCount ∧ server.userCount ≤ userLimit ∧
      (∀ row other, server.Used row → server.Used other → (server.users row).pid = (server.users other).pid →
        row = other) ∧
      (∀ pid, (server.children pid).isSome ↔ ∃ row, server.Used row ∧ (server.users row).pid = pid) ∧
      (∀ row, server.Used row → server.subProcess (server.users row).pid = row) ∧
      ∀ pid next, server.step (.waitpid (some pid)) = some next →
        ∃ child, server.children pid = some child ∧ ReapLaw server pid child next := by
  have consistent : server.Consistent :=
    run_invariant (fun _ _ _ kept taken => kept.step taken) (Consistent.create users) reached
  refine ⟨consistent.lower, consistent.upper, fun _ _ used alsoUsed => consistent.distinct used alsoUsed,
    fun pid => ⟨fun known => ?_, ?_⟩, consistent.inverse, fun pid next taken => ?_⟩
  · obtain ⟨child, present⟩ := Option.isSome_iff_exists.mp known
    exact ⟨_, consistent.placed pid child present⟩
  · rintro ⟨row, used, rfl⟩
    have held := consistent.rows row used
    exact Option.isSome_map.symm.trans (by rw [held]; rfl)
  · cases step_change taken with
    | child _ _ _ _ about => cases about
    | reap _ child present left inside done => exact ⟨child, present, done ▸ consistent.reapLaw present⟩
    | turn _ _ _ _ waits => exact absurd rfl (waits (some pid))

/-- Clients connect one after the other. -/
def connects (connections : List (Int × Int × Int)) : List ShmLabel :=
  .epollWait (connections.map fun _ => .listen) ::
    connections.map fun (connfd, pipe, pid) => .accept connfd (pipe, pipe + 1) (some pid)

/-- Children end and are reaped in one pass. -/
def departs (pids : List Int) : List ShmLabel :=
  pids.map .exit ++ [.epollWait [.signals], .recv [.sigchld], .signal] ++ pids.map (fun pid => .waitpid (some pid)) ++
    [.waitpid none]

/-- A row in the middle and the last row are dropped, and a pid is used again. -/
theorem client_tables_consistent_reused :
    ∃ server, run step (create fun _ => ⟨0, 0, 0, 0⟩)
        (connects [(7, 20, 10), (8, 22, 11), (9, 24, 12)] ++ departs [10, 11] ++ connects [(7, 30, 11)]) = some server ∧
      server.closed = [20, 22] ∧ server.rows = [12, 11] ∧ server.userCount ≤ userLimit ∧
      server.subProcess (server.users 1).pid = 1 := by
  have computed :
    (run step (create fun _ => ⟨0, 0, 0, 0⟩) (connects [(7, 20, 10), (8, 22, 11), (9, 24, 12)] ++ departs [10, 11] ++
      connects [(7, 30, 11)])).map (fun server => (server.closed, server.rows, server.userCount)) =
      some ([20, 22], [12, 11], 2) := by decide +kernel
  obtain ⟨server, reached, same⟩ := Option.map_eq_some_iff.mp computed
  simp only [Prod.mk.injEq] at same
  obtain ⟨closed, rows, count⟩ := same
  obtain ⟨-, upper, -, -, inverse, -⟩ := client_tables_consistent (fun _ => ⟨0, 0, 0, 0⟩) _ reached
  exact ⟨server, reached, closed, rows, upper, inverse 1 ⟨by decide, by omega⟩⟩

end UnixProgramming.Ipc.ShmServer

import Mathlib.Data.List.FinRange
import UnixProgramming.Pool.RoundRobin

/-! The parent's table of children. Slots leave use one at a time, each when `waitpid`
returns the pid of its child, and nothing is sent to a slot that is out of use. -/

namespace UnixProgramming.Pool.ProcessPool

open UnixProgramming.Lib

variable {n : Nat} {pool next : ProcessPool n} {forked : Fin n → Int}

/-- The slots in use are those whose child is not reaped; a parent end is closed once its
slot is out of use. -/
structure Table (forked : Fin n → Int) (pool : ProcessPool n) : Prop where
  entries : ∀ slot, pool.pids slot = -1 ∨ pool.pids slot = forked slot
  closed : ∀ slot, slot ∈ pool.closed ↔ pool.pids slot = -1
  once : pool.closed.Nodup
  children : ∀ pid ∈ pool.running ++ pool.exited, ∃ slot, pool.pids slot = pid ∧ pid ≠ -1
  unreaped : (pool.running ++ pool.exited).Nodup

theorem Table.create [NeZero n] (positive : ∀ slot, 0 < forked slot) (distinct : Function.Injective forked) :
    Table forked (create forked) where
  entries := fun slot => .inr rfl
  closed := fun slot => by
    have above := positive slot
    simp only [ProcessPool.create, List.not_mem_nil, false_iff]
    omega
  once := .nil
  children := by
    intro pid member
    simp only [ProcessPool.create, List.append_nil, List.mem_ofFn] at member
    obtain ⟨slot, rfl⟩ := member
    have above := positive slot
    exact ⟨slot, rfl, by omega⟩
  unreaped := by simpa [ProcessPool.create] using List.nodup_ofFn.mpr distinct

/-- Nothing happens to the slots, and no child appears or is reaped. -/
theorem Table.keep (table : Table forked pool) (pids : next.pids = pool.pids) (closed : next.closed = pool.closed)
    (processes : (next.running ++ next.exited).Perm (pool.running ++ pool.exited)) : Table forked next := by
  obtain ⟨entries, shut, once, children, unreaped⟩ := table
  refine ⟨?_, ?_, ?_, ?_, processes.nodup_iff.mpr unreaped⟩
  · rwa [pids]
  · rwa [closed, pids]
  · rwa [closed]
  · rw [pids]
    exact fun pid member => children pid (processes.mem_iff.mp member)

/-- The slot of a pid is the only one that holds it. -/
theorem Table.unique (table : Table forked pool) (distinct : Function.Injective forked) {slot other : Fin n}
    (used : pool.pids slot ≠ -1) (same : pool.pids other = pool.pids slot) : other = slot := by
  have left := (table.entries slot).resolve_left used
  have right := (table.entries other).resolve_left (same ▸ used)
  exact distinct (right.symm.trans (same.trans left))

/-- What reaping an exited child does to the table: its slot, and only that, leaves use. -/
theorem Table.reap_eq (table : Table forked pool) (distinct : Function.Injective forked) {pid : Int}
    (child : pid ∈ pool.exited) :
    ∃ slot, forked slot = pid ∧ pool.pids slot = pid ∧ pid ≠ -1 ∧
      (pool.reap pid).pids = Function.update pool.pids slot (-1) ∧ (pool.reap pid).closed = pool.closed ++ [slot] := by
  obtain ⟨slot, same, used⟩ := table.children pid (List.mem_append_right _ child)
  have own := (table.entries slot).resolve_left (same ▸ used)
  have only : ∀ other, pool.pids other = pid ↔ other = slot := by
    intro other
    constructor
    · intro equal
      exact table.unique distinct (same ▸ used) (equal.trans same.symm)
    · rintro rfl
      exact same
  refine ⟨slot, own.symm.trans same, same, used, ?_, ?_⟩
  · funext other
    simp only [ProcessPool.reap, only, Function.update_apply]
  · simp only [ProcessPool.reap, only]
    rw [List.filter_eq, List.count_eq_one_of_mem (List.nodup_finRange n) (List.mem_finRange slot), List.replicate_one]

theorem Table.reap (table : Table forked pool) (distinct : Function.Injective forked) {pid : Int}
    (child : pid ∈ pool.exited) : Table forked (pool.reap pid) := by
  obtain ⟨slot, own, same, used, pids, shut⟩ := table.reap_eq distinct child
  obtain ⟨entries, closed, once, children, unreaped⟩ := table
  have fresh : slot ∉ pool.closed := fun member => used (same.symm.trans ((closed slot).mp member))
  refine ⟨?_, ?_, ?_, ?_, ?_⟩
  · intro other
    rw [pids, Function.update_apply]
    split_ifs
    · exact .inl rfl
    · exact entries other
  · intro other
    rw [pids, shut, List.mem_append, List.mem_singleton, closed, Function.update_apply]
    split_ifs with this <;> simp [this]
  · rw [shut]
    exact List.nodup_append'.mpr ⟨once, List.nodup_singleton _, List.disjoint_singleton.mpr fresh⟩
  · intro other member
    have before : other ∈ pool.running ++ pool.exited := by
      rcases List.mem_append.mp member with runs | exits
      · exact List.mem_append_left _ runs
      · exact List.mem_append_right _ (List.mem_of_mem_erase exits)
    -- a pid is in the two lists once, so the one reaped is in neither any more
    have apart : other ≠ pid := by
      rintro rfl
      rcases List.mem_append.mp member with runs | exits
      · exact List.disjoint_of_nodup_append unreaped runs child
      · exact (unreaped.of_append_right).not_mem_erase exits
    obtain ⟨place, holds, valid⟩ := children other before
    refine ⟨place, ?_, valid⟩
    rw [pids, Function.update_of_ne, holds]
    rintro rfl
    exact apart (holds.symm.trans same)
  · exact unreaped.sublist (List.Sublist.append_left List.erase_sublist _)

theorem Table.step (table : Table forked pool) (distinct : Function.Injective forked) {label : ParentLabel}
    (taken : pool.step label = some next) : Table forked next := by
  cases step_change taken with
  | exit pid alive running exited quiet =>
    refine table.keep quiet.pids quiet.closed ?_
    rw [running, exited]
    exact List.perm_middle.trans ((List.perm_cons_erase alive).symm.append_right _)
  | dispatch pending stage done =>
    subst done
    unfold ProcessPool.onListen
    split_ifs
    · exact table.keep rfl rfl (.refl _)
    · exact table.keep rfl rfl (.refl _)
  | reap pid child done => exact done ▸ table.reap distinct child
  | reaped stage nobody done => subst done; exact table.keep rfl rfl (.refl _)
  | kill stage done => subst done; exact table.keep rfl rfl (.refl _)
  | quiet label running exited quiet =>
    refine table.keep quiet.pids quiet.closed ?_
    rw [running, exited]

/-- What one step does to the table, to the parent ends and to the children. -/
structure TableLaw (forked : Fin n → Int) (pool : ProcessPool n) (label : ParentLabel) (next : ProcessPool n) :
    Prop where
  /-- `waitpid` returns the pid of a slot in use: that slot leaves use and its end is closed. -/
  reaps : ∀ pid, label = .waitpid (some pid) → ∃ slot, forked slot = pid ∧ pool.pids slot = pid ∧
    next.pids = Function.update pool.pids slot (-1) ∧ next.closed = pool.closed ++ [slot]
  /-- Nothing else touches a slot. -/
  keeps : (∀ pid, label ≠ .waitpid (some pid)) → next.pids = pool.pids ∧ next.closed = pool.closed
  sends : next.dispatches = pool.dispatches ∨
    ∃ slot, pool.pids slot ≠ -1 ∧ next.dispatches = pool.dispatches ++ [⟨pool.pids, slot⟩]
  kills : ∃ slots : List (Fin n), (∀ slot ∈ slots, pool.pids slot ≠ -1) ∧
    next.kills = pool.kills ++ slots.map fun slot => (slot, pool.pids slot)
  stops : label = .waitpid none → (next.stop = true ↔ ∀ slot, next.pids slot = -1)

theorem onListen_sends (pool : ProcessPool n) (pending : List ParentEvent) :
    (pool.onListen pending).dispatches = pool.dispatches ∨
      ∃ slot, pool.pids slot ≠ -1 ∧ (pool.onListen pending).dispatches = pool.dispatches ++ [⟨pool.pids, slot⟩] := by
  unfold ProcessPool.onListen
  split_ifs with unused
  · exact .inl rfl
  · exact .inr ⟨pool.found, unused, rfl⟩

theorem onListen_kept (pool : ProcessPool n) (pending : List ParentEvent) :
    (pool.onListen pending).closed = pool.closed ∧ (pool.onListen pending).kills = pool.kills := by
  unfold ProcessPool.onListen
  split_ifs <;> exact ⟨rfl, rfl⟩

/-- A step that is quiet about the table. -/
theorem TableLaw.of_quiet (quiet : Quiet pool next) {label : ParentLabel} (waits : ∀ pid, label ≠ .waitpid pid) :
    TableLaw forked pool label next where
  reaps := fun pid same => absurd same (waits _)
  keeps := fun _ => ⟨quiet.pids, quiet.closed⟩
  sends := .inl quiet.dispatches
  kills := ⟨[], by simp, by simp [quiet.kills]⟩
  stops := fun same => absurd same (waits _)

theorem Table.law (table : Table forked pool) (distinct : Function.Injective forked) {label : ParentLabel}
    (taken : pool.step label = some next) : TableLaw forked pool label next := by
  cases step_change taken with
  | exit pid alive running exited quiet => exact .of_quiet quiet (by simp)
  | dispatch pending stage done =>
    subst done
    obtain ⟨closed, kills⟩ := onListen_kept pool pending
    exact ⟨by simp, fun _ => ⟨onListen_pids pool pending, closed⟩, onListen_sends pool pending,
      ⟨[], by simp, by simp [kills]⟩, by simp⟩
  | reap pid child done =>
    subst done
    obtain ⟨slot, own, same, -, pids, shut⟩ := table.reap_eq distinct child
    refine ⟨?_, fun other => absurd rfl (other pid), .inl rfl, ⟨[], by simp, by simp [ProcessPool.reap]⟩, by simp⟩
    rintro _ ⟨⟩
    exact ⟨slot, own, same, pids, shut⟩
  | reaped stage nobody done =>
    subst done
    exact ⟨by simp, fun _ => ⟨rfl, rfl⟩, .inl rfl, ⟨[], by simp, by simp⟩, fun _ => decide_eq_true_iff⟩
  | kill stage done =>
    subst done
    refine ⟨by simp, fun _ => ⟨rfl, rfl⟩, .inl rfl, ⟨_, ?_, rfl⟩, by simp⟩
    intro slot member
    exact of_decide_eq_true (List.mem_filter.mp member).2
  | quiet label running exited quiet listens waits => exact .of_quiet quiet waits

/-- The child table in every run: a slot holds its child's pid until `waitpid` returns that
pid and -1 from then on, its parent end is closed once, at that step, and every step from
there on keeps to the law. -/
theorem child_table [NeZero n] (forked : Fin n → Int) (positive : ∀ slot, 0 < forked slot)
    (distinct : Function.Injective forked) (labels : List ParentLabel)
    (reached : run step (create forked) labels = some pool) :
    (∀ slot, pool.pids slot = -1 ∨ pool.pids slot = forked slot) ∧ pool.closed.Nodup ∧
      (∀ slot, slot ∈ pool.closed ↔ pool.pids slot = -1) ∧
      ∀ label next, pool.step label = some next → TableLaw forked pool label next := by
  have table : Table forked pool :=
    run_invariant (fun _ _ _ kept taken => kept.step distinct taken) (Table.create positive distinct) reached
  exact ⟨table.entries, table.once, table.closed, fun _ _ taken => table.law distinct taken⟩

/-- Two exits behind one `SIGCHLD`, after a `SIGTERM` in the same batch. -/
def coalescedExits : List ParentLabel :=
  [.epollWait [.listen, .signals, .listen], .dispatch, .exit 13, .exit 11, .recv [.sigterm, .sigchld], .signal, .signal,
    .waitpid (some 11), .waitpid (some 13), .waitpid none, .dispatch]

theorem child_table_coalesced :
    ∃ pool, run step (create threeChildren) coalescedExits = some pool ∧
      pool.closed = [0, 2] ∧ pool.closed.Nodup ∧ pool.pids 0 = -1 ∧ pool.pids 1 = 12 ∧ pool.stop = false ∧
      pool.dispatches.map (·.slot) = [0, 1] := by
  have computed :
    (run step (create threeChildren) coalescedExits).map (fun pool =>
      (pool.closed, pool.pids 1, pool.stop, pool.dispatches.map (·.slot))) =
      some ([0, 2], 12, false, [0, 1]) := by decide +kernel
  obtain ⟨pool, reached, same⟩ := Option.map_eq_some_iff.mp computed
  simp only [Prod.mk.injEq] at same
  obtain ⟨closed, second, running, slots⟩ := same
  obtain ⟨-, once, shut, -⟩ := child_table threeChildren (by simp only [threeChildren]; omega)
    (fun slot other same => by simp only [threeChildren] at same; omega) coalescedExits reached
  exact ⟨pool, reached, closed, once, (shut 0).mp (by simp [closed]), second, running, slots⟩

end UnixProgramming.Pool.ProcessPool

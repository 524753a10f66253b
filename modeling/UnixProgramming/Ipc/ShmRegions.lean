import UnixProgramming.Ipc.ClientTables

/-! The regions of the shared memory. A child works on the region of the row it was forked
for and keeps it when its row moves, so a later client must not be given that row while the
child lives. -/

namespace UnixProgramming.Ipc.ShmServer

open UnixProgramming.Lib

variable {server next : ShmServer}

/-- A child that has not left its loop. -/
def Live (server : ShmServer) (pid : Int) (child : ShmChild) : Prop :=
  server.children pid = some child ∧ child.stage ≠ .left

/-- No row in use holds a live child that was forked for the row `user_count`. -/
def Vacant (server : ShmServer) : ShmLabel → Prop
  | .accept _ _ (some _) => server.userCount < userLimit →
    ∀ pid ∈ server.rows, ∀ child ∈ server.children pid, child.stage ≠ .left → child.idx ≠ server.userCount
  | _ => True

/-- Live children have regions of their own inside the shared memory. -/
structure Exclusive (server : ShmServer) : Prop where
  inside : ∀ pid child, server.Live pid child → 0 ≤ child.idx ∧ child.idx < userLimit
  apart : ∀ pid other child second, server.Live pid child → server.Live other second → pid ≠ other →
    child.idx ≠ second.idx

theorem Exclusive.create (users : Int → ClientData) : Exclusive (create users) :=
  ⟨fun _ _ live => (Option.some_ne_none _ live.1.symm).elim, fun _ _ _ _ live => (Option.some_ne_none _ live.1.symm).elim⟩

theorem mem_rows {pid : Int} : pid ∈ server.rows ↔ ∃ row, server.Used row ∧ (server.users row).pid = pid := by
  simp only [rows, List.mem_map, List.mem_range, Used]
  constructor
  · rintro ⟨row, below, same⟩
    exact ⟨row, by omega, same⟩
  · rintro ⟨row, ⟨above, below⟩, same⟩
    refine ⟨row.toNat, by omega, ?_⟩
    rwa [Int.toNat_of_nonneg above]

/-- Live children are old ones, with the regions they had. -/
theorem Exclusive.keep (exclusive : server.Exclusive)
    (old : ∀ pid child, next.Live pid child → ∃ before, server.Live pid before ∧ before.idx = child.idx) :
    next.Exclusive := by
  refine ⟨fun pid child live => ?_, fun pid other child second live alsoLive distinct => ?_⟩
  · obtain ⟨before, was, same⟩ := old pid child live
    exact same ▸ exclusive.inside pid before was
  · obtain ⟨before, was, same⟩ := old pid child live
    obtain ⟨earlier, alsoWas, alike⟩ := old other second alsoLive
    rw [← same, ← alike]
    exact exclusive.apart pid other before earlier was alsoWas distinct

theorem Exclusive.register (exclusive : server.Exclusive) (lower : 0 ≤ server.userCount)
    (room : server.userCount < userLimit)
    (vacant : ∀ pid child, server.Live pid child → child.idx ≠ server.userCount)
    (connfd : Int) (pipefd : Int × Int) (pid : Int) : (server.register connfd pipefd pid).Exclusive := by
  have old : ∀ other child, (server.register connfd pipefd pid).Live other child →
      (other = pid ∧ child.idx = server.userCount) ∨ (other ≠ pid ∧ server.Live other child) := by
    rintro other child ⟨present, running⟩
    rcases of_update_some present with ⟨same, rfl⟩ | ⟨apart, was⟩
    · exact .inl ⟨same, rfl⟩
    · exact .inr ⟨apart, was, running⟩
  refine ⟨fun other child live => ?_, fun first second child sibling live alsoLive distinct => ?_⟩
  · rcases old other child live with ⟨-, fresh⟩ | ⟨-, was⟩
    · rw [fresh]
      exact ⟨lower, room⟩
    · exact exclusive.inside other child was
  · rcases old first child live with ⟨rfl, fresh⟩ | ⟨other, was⟩
    · rcases old second sibling alsoLive with ⟨rfl, -⟩ | ⟨-, alsoWas⟩
      · exact absurd rfl distinct
      · rw [fresh]
        exact (vacant second sibling alsoWas).symm
    · rcases old second sibling alsoLive with ⟨rfl, fresh⟩ | ⟨-, alsoWas⟩
      · rw [fresh]
        exact vacant first child was
      · exact exclusive.apart first second child sibling was alsoWas distinct

/-- A child that has left its loop does not come back. -/
theorem childStep_left {child moved : ShmChild} {label : ShmLabel} (taken : childStep child label = some moved)
    (left : child.stage = .left) : moved.stage = .left := by
  unfold childStep at taken
  split at taken <;> simp_all
  obtain ⟨-, rfl⟩ := taken
  rfl

theorem onTerm_live {pid : Int} {child : ShmChild} (live : server.onTerm.Live pid child) :
    ∃ before, server.Live pid before ∧ before.idx = child.idx := by
  obtain ⟨present, running⟩ := live
  obtain ⟨before, was, rfl | rfl⟩ := of_onTerm_some present
  · exact ⟨child, ⟨was, running⟩, rfl⟩
  · exact ⟨before, ⟨was, running⟩, rfl⟩

theorem Exclusive.step (exclusive : server.Exclusive) (consistent : server.Consistent) {label : ShmLabel}
    (vacant : server.Vacant label) (taken : server.step label = some next) : next.Exclusive := by
  cases step_change taken with
  | child label pid child moved about present taking done =>
    subst done
    refine exclusive.keep fun other after live => ?_
    obtain ⟨known, running⟩ := live
    rcases of_update_some known with ⟨rfl, rfl⟩ | ⟨-, was⟩
    · exact ⟨child, ⟨present, fun left => running (childStep_left taking left)⟩, (childStep_pipefd taking).2.symm⟩
    · exact ⟨after, ⟨was, running⟩, rfl⟩
  | accept connfd pipefd forked stage fresh outside done =>
    subst done
    have listened : (server.onListen connfd pipefd forked).Exclusive := by
      unfold onListen
      split_ifs with full
      · exact exclusive
      · cases forked with
        | none => exact exclusive.keep fun _ child live => ⟨child, live, rfl⟩
        | some pid =>
          refine exclusive.register consistent.lower (by omega) (fun other child live => ?_) connfd pipefd pid
          have row : other ∈ server.rows := mem_rows.mpr ⟨_, consistent.placed other child live.1⟩
          exact vacant (by omega) other row child live.1 live.2
    exact listened.keep fun _ child live => ⟨child, live, rfl⟩
  | term stage outside done => subst done; exact exclusive.keep fun _ _ live => onTerm_live live
  | reap pid child present left inside done =>
    subst done
    exact exclusive.keep fun _ child live => ⟨child, ⟨of_reap_some live.1, live.2⟩, rfl⟩
  | reaped stage done => subst done; exact exclusive.keep fun _ child live => ⟨child, live, rfl⟩
  | turn label stage outside forks waits done =>
    subst done
    exact exclusive.keep fun _ child live => ⟨child, live, rfl⟩

instance (server : ShmServer) : (label : ShmLabel) → Decidable (server.Vacant label)
  | .accept _ _ (some _) => inferInstanceAs (Decidable (_ → _))
  | .accept _ _ none | .epollWait _ | .epollFailure | .acceptFailure | .recv _ | .relay | .signal | .waitpid _ | .leave
  | .test _ | .fetch _ _ | .handle _ _ | .deliver _ | .exit _ => .isTrue trivial

end UnixProgramming.Ipc.ShmServer

import UnixProgramming.Lib.Run

/-! Runs that come to an end. When every step lowers a measure and a state that is not
finished has a step, every run can be continued until it is finished. -/

namespace UnixProgramming.Lib
universe u v
variable {State : Type u} {Label : Type v} {step : State → Label → Option State}

/-- Some step is enabled. -/
def Enabled (step : State → Label → Option State) (state : State) : Prop :=
  ∃ label next, step state label = some next

theorem enabled_of_isSome {state : State} {label : Label} (taken : (step state label).isSome) : Enabled step state :=
  ⟨label, Option.isSome_iff_exists.mp taken⟩

/-- The state can be continued to a finished one. -/
def Completes (step : State → Label → Option State) (finished : State → Prop) (state : State) : Prop :=
  ∃ labels final, run step state labels = some final ∧ finished final

theorem Completes.of_finished {finished : State → Prop} {state : State} (done : finished state) :
    Completes step finished state := ⟨[], state, rfl, done⟩

theorem Completes.of_step {finished : State → Prop} {state next : State} {label : Label}
    (taken : step state label = some next) (completes : Completes step finished next) :
    Completes step finished state := by
  obtain ⟨labels, final, reached, done⟩ := completes
  exact ⟨label :: labels, final, run_cons_some.mpr ⟨next, taken, reached⟩, done⟩

/-- A state in which nothing is enabled stays as it is. -/
theorem run_of_stuck {state final : State} {labels : List Label} (stuck : ¬ Enabled step state)
    (reached : run step state labels = some final) : final = state := by
  cases labels with
  | nil => exact (Option.some.inj reached).symm
  | cons label rest =>
    obtain ⟨next, taken, -⟩ := run_cons_some.mp reached
    exact absurd ⟨label, next, taken⟩ stuck

theorem not_completes_of_stuck {finished : State → Prop} {state : State} (stuck : ¬ Enabled step state)
    (unfinished : ¬ finished state) : ¬ Completes step finished state := by
  rintro ⟨labels, final, reached, done⟩
  exact unfinished (run_of_stuck stuck reached ▸ done)

/-- The progress rule. -/
theorem completes_of_progress {invariant finished : State → Prop} {measure : State → Nat}
    (preserved : ∀ state label next, invariant state → step state label = some next → invariant next)
    (lower : ∀ state label next, invariant state → step state label = some next → measure next < measure state)
    (progress : ∀ state, invariant state → finished state ∨ Enabled step state)
    {state : State} (start : invariant state) : Completes step finished state := by
  obtain done | ⟨label, next, taken⟩ := progress state start
  · exact .of_finished done
  · have := lower state label next start taken
    exact .of_step taken (completes_of_progress preserved lower progress (preserved state label next start taken))
termination_by measure state

end UnixProgramming.Lib

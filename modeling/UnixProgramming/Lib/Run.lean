import Mathlib.Algebra.GroupWithZero.Nat
import Mathlib.Data.List.Basic

/-! Finite runs of a labelled partial step function. A label carries every
choice of the environment, so one list of labels is one interleaving and a
statement over all lists is a statement over all runs. -/

namespace UnixProgramming.Lib
universe u v w
variable {State : Type u} {Label : Type v}

-- Names the proof behind the literals of `Fin 2`, so that every module has the same term for them.
instance neZero_two : NeZero 2 := ⟨Nat.succ_ne_zero 1⟩

/-- Take the labelled steps in order; `none` as soon as one is not enabled. -/
def run (step : State → Label → Option State) : State → List Label → Option State
  | state, [] => some state
  | state, label :: rest => (step state label).bind fun next => run step next rest

/-- Every step of the run is taken from a state in which its guard holds. -/
def Meets (step : State → Label → Option State) (guard : State → Label → Prop) :
    State → List Label → Prop
  | _, [] => True
  | state, label :: rest =>
    guard state label ∧ ∀ next, step state label = some next → Meets step guard next rest

variable {step : State → Label → Option State} {guard : State → Label → Prop}

@[simp] theorem run_nil (state : State) : run step state [] = some state := rfl

theorem run_cons (state : State) (label : Label) (rest : List Label) :
    run step state (label :: rest) = (step state label).bind fun next => run step next rest := rfl

theorem run_cons_some {state final : State} {label : Label} {rest : List Label} :
    run step state (label :: rest) = some final ↔
      ∃ next, step state label = some next ∧ run step next rest = some final := by
  simp [run_cons, Option.bind_eq_some_iff]

theorem run_append (state : State) (first second : List Label) :
    run step state (first ++ second) =
      (run step state first).bind fun middle => run step middle second := by
  induction first generalizing state with
  | nil => rfl
  | cons label rest ih =>
    rw [List.cons_append, run_cons, run_cons]
    cases step state label with
    | none => rfl
    | some next => exact ih next

theorem run_append_some {state final : State} {first second : List Label} :
    run step state (first ++ second) = some final ↔
      ∃ middle, run step state first = some middle ∧ run step middle second = some final := by
  simp [run_append, Option.bind_eq_some_iff]

theorem Meets.cons {state next : State} {label : Label} {rest : List Label}
    (held : guard state label) (taken : step state label = some next)
    (meets : Meets step guard next rest) : Meets step guard state (label :: rest) := by
  refine ⟨held, fun other same => ?_⟩
  obtain rfl := Option.some.inj (taken.symm.trans same)
  exact meets

/-- Whether a concrete run meets a decidable guard can be evaluated. -/
instance Meets.decidable [∀ state label, Decidable (guard state label)] :
    ∀ (state : State) (labels : List Label), Decidable (Meets step guard state labels)
  | _, [] => .isTrue trivial
  | state, label :: rest =>
    match taken : step state label with
    | none => decidable_of_iff (guard state label) (by simp [Meets, taken])
    | some next =>
      have := Meets.decidable next rest
      decidable_of_iff (guard state label ∧ Meets step guard next rest) (by simp [Meets, taken])

theorem meets_trivial (state : State) (labels : List Label) : Meets step (fun _ _ => True) state labels := by
  induction labels generalizing state with
  | nil => trivial
  | cons label rest ih => exact ⟨trivial, fun next _ => ih next⟩

/-- The invariant rule for guarded runs: what every guarded step keeps holds in
every state a guarded run reaches. -/
theorem run_invariant_of_meets {invariant : State → Prop}
    (preserved : ∀ state label next, invariant state → guard state label →
      step state label = some next → invariant next)
    {state final : State} {labels : List Label} (start : invariant state)
    (meets : Meets step guard state labels) (reached : run step state labels = some final) :
    invariant final := by
  induction labels generalizing state with
  | nil =>
    cases Option.some.inj reached
    exact start
  | cons label rest ih =>
    obtain ⟨next, taken, remaining⟩ := run_cons_some.mp reached
    exact ih (preserved state label next start meets.1 taken) (meets.2 next taken) remaining

/-- The invariant rule without a guard. -/
theorem run_invariant {invariant : State → Prop}
    (preserved : ∀ state label next, invariant state → step state label = some next → invariant next)
    {state final : State} {labels : List Label} (start : invariant state)
    (reached : run step state labels = some final) : invariant final :=
  run_invariant_of_meets (fun state label next held _ taken => preserved state label next held taken) start
    (meets_trivial state labels) reached

/-- When a guarded step is always enabled and keeps the invariant, every guarded
run goes through to its end. -/
theorem run_total_of_meets {invariant : State → Prop}
    (progress : ∀ state label, invariant state → guard state label →
      ∃ next, step state label = some next ∧ invariant next)
    {state : State} {labels : List Label} (start : invariant state)
    (meets : Meets step guard state labels) :
    ∃ final, run step state labels = some final ∧ invariant final := by
  induction labels generalizing state with
  | nil => exact ⟨state, rfl, start⟩
  | cons label rest ih =>
    obtain ⟨next, taken, kept⟩ := progress state label start meets.1
    obtain ⟨final, reached, held⟩ := ih kept (meets.2 next taken)
    exact ⟨final, run_cons_some.mpr ⟨next, taken, reached⟩, held⟩

/-- Two guards agree along a run when they agree in every state of an invariant that the steps
under the first one keep. A third guard says which runs are looked at. -/
theorem meets_congr {invariant : State → Prop} {context other : State → Label → Prop}
    (same : ∀ state label, invariant state → context state label → (guard state label ↔ other state label))
    (preserved : ∀ state label next, invariant state → context state label → guard state label →
      step state label = some next → invariant next)
    {state : State} {labels : List Label} (start : invariant state) (meets : Meets step context state labels) :
    Meets step guard state labels ↔ Meets step other state labels := by
  induction labels generalizing state with
  | nil => exact Iff.rfl
  | cons label rest ih =>
    have here := same state label start meets.1
    constructor
    · rintro ⟨held, later⟩
      refine ⟨here.mp held, fun next taken => ?_⟩
      exact (ih (preserved state label next start meets.1 held taken) (meets.2 next taken)).mp (later next taken)
    · rintro ⟨held, later⟩
      refine ⟨here.mpr held, fun next taken => ?_⟩
      exact (ih (preserved state label next start meets.1 (here.mpr held) taken) (meets.2 next taken)).mpr
        (later next taken)

/-- Forward simulation over whole runs: when every abstract step is matched by a
concrete one that keeps the relation, so is every abstract run. -/
theorem run_simulation {Abstract : Type w} {abstractStep : Abstract → Label → Option Abstract}
    {related : State → Abstract → Prop}
    (matched : ∀ state abstract label abstractNext, related state abstract →
      abstractStep abstract label = some abstractNext →
      ∃ next, step state label = some next ∧ related next abstractNext)
    {state : State} {abstract abstractFinal : Abstract} {labels : List Label}
    (start : related state abstract)
    (reached : run abstractStep abstract labels = some abstractFinal) :
    ∃ final, run step state labels = some final ∧ related final abstractFinal := by
  induction labels generalizing state abstract with
  | nil =>
    cases Option.some.inj reached
    exact ⟨state, rfl, start⟩
  | cons label rest ih =>
    obtain ⟨abstractNext, taken, remaining⟩ := run_cons_some.mp reached
    obtain ⟨next, concrete, kept⟩ := matched state abstract label abstractNext start taken
    obtain ⟨final, finished, relatedFinal⟩ := ih kept remaining
    exact ⟨final, run_cons_some.mpr ⟨next, concrete, finished⟩, relatedFinal⟩

end UnixProgramming.Lib

import Mathlib.Data.List.Forall2
import UnixProgramming.Lib.Run

/-! Runs of a step function that answers every label with an output. -/

namespace UnixProgramming.Lib
universe u v w x
variable {State : Type u} {Label : Type v} {Output : Type w}

/-- The outputs of a run in order, and the state it ends in. -/
def trace (step : State → Label → Option (Output × State)) : State → List Label → Option (List Output × State)
  | state, [] => some ([], state)
  | state, label :: rest => do
    let (output, next) ← step state label
    let (outputs, final) ← trace step next rest
    return (output :: outputs, final)

variable {step : State → Label → Option (Output × State)}

theorem trace_cons {state next final : State} {label : Label} {rest : List Label} {output : Output}
    {outputs : List Output} (taken : step state label = some (output, next))
    (finished : trace step next rest = some (outputs, final)) :
    trace step state (label :: rest) = some (output :: outputs, final) := by
  simp [trace, taken, finished]

/-- Two machines that answer alike, step by step, wherever the reference allows the
label, answer alike over every run the reference allows. -/
theorem trace_agreement {Reference : Type x} {Other : Type u} {OtherOutput : Type w}
    {allowed : Reference → Label → Option Reference} {otherStep : Other → Label → Option (OtherOutput × Other)}
    {related : Reference → State → Other → Prop} {agree : Output → OtherOutput → Prop}
    (matched : ∀ reference state other label next, related reference state other →
      allowed reference label = some next →
      ∃ output new otherOutput otherNew, step state label = some (output, new) ∧
        otherStep other label = some (otherOutput, otherNew) ∧ agree output otherOutput ∧
        related next new otherNew)
    {reference last : Reference} {state : State} {other : Other} {labels : List Label}
    (start : related reference state other) (reached : run allowed reference labels = some last) :
    ∃ outputs final otherOutputs otherFinal, trace step state labels = some (outputs, final) ∧
      trace otherStep other labels = some (otherOutputs, otherFinal) ∧
      List.Forall₂ agree outputs otherOutputs ∧ related last final otherFinal := by
  induction labels generalizing reference state other with
  | nil =>
    cases Option.some.inj reached
    exact ⟨[], state, [], other, rfl, rfl, .nil, start⟩
  | cons label rest ih =>
    obtain ⟨next, taken, remaining⟩ := run_cons_some.mp reached
    obtain ⟨output, new, otherOutput, otherNew, stepped, otherStepped, alike, kept⟩ :=
      matched reference state other label next start taken
    obtain ⟨outputs, final, otherOutputs, otherFinal, finished, otherFinished, allAlike, atEnd⟩ :=
      ih kept remaining
    exact ⟨output :: outputs, final, otherOutput :: otherOutputs, otherFinal, trace_cons stepped finished,
      trace_cons otherStepped otherFinished, .cons alike allAlike, atEnd⟩

end UnixProgramming.Lib

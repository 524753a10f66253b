import Mathlib.Data.List.Count

/-! What an event loop sees. Signals come as bytes through a pipe. With edge-triggered
readiness an arrival sets the edge of a descriptor, and an event of the descriptor is
fetched at most once for each edge: arrivals before the fetch share it. -/

namespace UnixProgramming.Lib

inductive Signal where
  | sigchld
  | sigterm
  | sigint
  | sigpipe
  deriving DecidableEq, Repr

/-- The edge after a fetch that has, or has not, the event among its results. -/
def fetched (edge among : Bool) : Bool := edge && !among

/-- A fetch turns the edge into at most one event. -/
theorem fetched_toNat {Event : Type} [DecidableEq Event] {edge : Bool} {events : List Event} {event : Event}
    (single : events.count event ≤ edge.toNat) :
    (fetched edge (events.contains event)).toNat + events.count event = edge.toNat := by
  by_cases member : event ∈ events
  · have positive := List.count_pos_iff.mpr member
    cases edge with
    | false =>
      rw [Bool.toNat_false] at single
      omega
    | true =>
      rw [Bool.toNat_true] at single
      simp [fetched, member]
      omega
  · simp [fetched, member, List.count_eq_zero_of_not_mem member]

end UnixProgramming.Lib

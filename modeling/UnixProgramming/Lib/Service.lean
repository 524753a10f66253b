import Mathlib.Algebra.BigOperators.Fin
import Mathlib.Algebra.Order.BigOperators.Group.Finset
import UnixProgramming.Lib.Progress

/-! The connections of a listening server. Each connection takes steps of its own; `connect()`
puts it into the backlog and `accept()` takes the first one out. A server that serves one
connection at a time accepts only while it serves none. -/

namespace UnixProgramming.Lib
universe u v

/-- Where a connection stands with the server. -/
inductive Phase where
  | outside
  | waiting
  | served
  | finished
  deriving DecidableEq, Repr

/-- A step leaves the phase or goes on to the next one. -/
def Phase.Advances : Phase → Phase → Prop
  | .outside, next => next = .outside ∨ next = .waiting
  | .waiting, next => next = .waiting ∨ next = .served
  | .served, next => next = .served ∨ next = .finished
  | .finished, next => next = .finished

/-- What one connection does, client and server together. -/
structure Service (Conn : Type u) (Label : Type v) where
  step : Conn → Label → Option Conn
  phase : Conn → Phase
  advances : ∀ conn label next, step conn label = some next → (phase conn).Advances (phase next)

structure Listening (n : Nat) (Conn : Type u) where
  conns : Fin n → Conn
  /-- The connections to be accepted, the oldest first. -/
  queue : List (Fin n)

namespace Service
variable {Conn : Type u} {Label : Type v} {n : Nat}

/-- One step of one connection, under the limits of the backlog and of a `single` server. -/
def listen (service : Service Conn Label) (backlog : Nat) (single : Bool) (state : Listening n Conn)
    (label : Fin n × Label) : Option (Listening n Conn) :=
  (service.step (state.conns label.1) label.2).bind fun conn =>
    let conns := Function.update state.conns label.1 conn
    match service.phase (state.conns label.1), service.phase conn with
    | .outside, .waiting => if state.queue.length ≤ backlog then some ⟨conns, state.queue ++ [label.1]⟩ else none
    | .waiting, .served =>
      if state.queue.head? = some label.1 ∧ (single → ∀ other, service.phase (state.conns other) ≠ .served) then
        some ⟨conns, state.queue.tail⟩
      else none
    | _, _ => some ⟨conns, state.queue⟩

/-- The backlog holds the waiting connections, each once. -/
structure Queued (service : Service Conn Label) (state : Listening n Conn) : Prop where
  distinct : state.queue.Nodup
  member : ∀ row, row ∈ state.queue ↔ service.phase (state.conns row) = .waiting

def Finished (service : Service Conn Label) (state : Listening n Conn) : Prop :=
  ∀ row, service.phase (state.conns row) = .finished

variable {service : Service Conn Label} {backlog : Nat} {single : Bool} {state next final : Listening n Conn}
  {row : Fin n} {label : Label}

/-- What a step does: to the connection, and to the backlog. -/
theorem listen_cases (taken : service.listen backlog single state (row, label) = some next) :
    ∃ conn, service.step (state.conns row) label = some conn ∧ next.conns = Function.update state.conns row conn ∧
      (service.phase (state.conns row) = .outside ∧ service.phase conn = .waiting ∧
          next.queue = state.queue ++ [row] ∨
        service.phase (state.conns row) = .waiting ∧ service.phase conn = .served ∧
          state.queue = row :: next.queue ∨
        service.phase (state.conns row) = service.phase conn ∧ next.queue = state.queue ∨
        service.phase (state.conns row) = .served ∧ service.phase conn = .finished ∧ next.queue = state.queue) := by
  obtain ⟨conn, stepped, rest⟩ := Option.bind_eq_some_iff.mp taken
  refine ⟨conn, stepped, ?_⟩
  have forward := service.advances _ _ _ stepped
  revert rest forward
  cases service.phase (state.conns row) <;> cases service.phase conn <;>
    simp only [Phase.Advances, reduceCtorEq, or_false, false_or, false_implies, implies_true, Option.ite_none_right_eq_some,
      Option.some.injEq, and_imp, true_and, false_and, and_false, forall_true_left]
  case outside.waiting =>
    rintro - rfl
    exact ⟨rfl, rfl⟩
  case waiting.served =>
    rintro first - rfl
    refine ⟨rfl, ?_⟩
    obtain ⟨rest, same⟩ := List.head?_eq_some_iff.mp first
    rw [same, List.tail_cons]
  all_goals
    intro same
    first
    | exact fun _ => same ▸ ⟨rfl, rfl⟩
    | exact same ▸ ⟨rfl, rfl⟩

theorem Queued.after (queued : service.Queued state)
    (taken : service.listen backlog single state (row, label) = some next) : service.Queued next := by
  obtain ⟨distinct, member⟩ := queued
  obtain ⟨conn, -, conns, change⟩ := listen_cases taken
  have here : next.conns row = conn := by rw [conns, Function.update_self]
  have other : ∀ place, place ≠ row → next.conns place = state.conns place := fun place apart => by
    rw [conns, Function.update_of_ne apart]
  rcases change with ⟨before, after, queue⟩ | ⟨before, after, queue⟩ | ⟨same, queue⟩ | ⟨before, after, queue⟩
  · have absent : row ∉ state.queue := fun inside => by
      rw [member, before] at inside
      cases inside
    refine ⟨by rw [queue, ← List.concat_eq_append]; exact distinct.concat absent, fun place => ?_⟩
    by_cases apart : place = row
    · rw [apart, here, after, queue]
      simp
    · rw [other place apart, queue, List.mem_append, List.mem_singleton, or_iff_left apart]
      exact member place
  · rw [queue, List.nodup_cons] at distinct
    refine ⟨distinct.2, fun place => ?_⟩
    by_cases apart : place = row
    · rw [apart, here, after]
      exact iff_of_false distinct.1 (by simp)
    · rw [other place apart, ← member place, queue, List.mem_cons, or_iff_right apart]
  · refine ⟨queue ▸ distinct, fun place => ?_⟩
    by_cases apart : place = row
    · rw [apart, here, queue, ← same]
      exact member row
    · rw [other place apart, queue]
      exact member place
  · refine ⟨queue ▸ distinct, fun place => ?_⟩
    by_cases apart : place = row
    · rw [apart, here, queue, after, member, before]
      simp
    · rw [other place apart, queue]
      exact member place

/-- The steps one connection takes in a run. -/
def own (row : Fin n) (labels : List (Fin n × Label)) : List Label :=
  labels.filterMap fun label => if label.1 = row then some label.2 else none

theorem own_cons_self (label : Label) (rest : List (Fin n × Label)) :
    own row ((row, label) :: rest) = label :: own row rest := by
  simp [own]

theorem own_cons_other {other : Fin n} (apart : other ≠ row) (label : Label) (rest : List (Fin n × Label)) :
    own row ((other, label) :: rest) = own row rest := by
  simp [own, apart]

/-- Seen from one connection, a run of the server is a run of this connection. -/
theorem run_own {labels : List (Fin n × Label)}
    (reached : run (service.listen backlog single) state labels = some final) (row : Fin n) :
    run service.step (state.conns row) (own row labels) = some (final.conns row) := by
  induction labels generalizing state with
  | nil =>
    cases Option.some.inj reached
    rfl
  | cons pair rest ih =>
    obtain ⟨place, label⟩ := pair
    obtain ⟨next, taken, remaining⟩ := run_cons_some.mp reached
    obtain ⟨conn, stepped, conns, -⟩ := listen_cases taken
    have later := ih remaining
    by_cases same : place = row
    · subst place
      rw [own_cons_self, run_cons_some]
      rw [conns, Function.update_self] at later
      exact ⟨conn, stepped, later⟩
    · rw [own_cons_other same]
      rwa [conns, Function.update_of_ne (Ne.symm same)] at later

/-- What every step of a connection keeps holds of all connections after a run. -/
theorem run_each (invariant : Fin n → Conn → Prop)
    (preserved : ∀ row conn label next, invariant row conn → service.step conn label = some next → invariant row next)
    (start : ∀ row, invariant row (state.conns row)) {labels : List (Fin n × Label)}
    (reached : run (service.listen backlog single) state labels = some final) (row : Fin n) :
    invariant row (final.conns row) :=
  run_invariant (preserved row) (start row) (run_own reached row)

theorem run_queued (queued : service.Queued state) {labels : List (Fin n × Label)}
    (reached : run (service.listen backlog single) state labels = some final) : service.Queued final :=
  run_invariant (fun _ _ _ held taken => held.after taken) queued reached

/-- When the server finishes all its connections, each of them finishes. -/
theorem completes_each (completes : Completes (service.listen backlog single) service.Finished state) (row : Fin n) :
    Completes service.step (fun conn => service.phase conn = .finished) (state.conns row) := by
  obtain ⟨labels, final, reached, done⟩ := completes
  exact ⟨own row labels, final.conns row, run_own reached row, done row⟩

/-- A connection that is not finished is connected and accepted sooner or later. -/
structure Serves (service : Service Conn Label) (invariant : Conn → Prop) (measure : Conn → Nat) : Prop where
  preserved : ∀ conn label next, invariant conn → service.step conn label = some next → invariant next
  lower : ∀ conn label next, invariant conn → service.step conn label = some next → measure next < measure conn
  connects : ∀ conn, invariant conn → service.phase conn = .outside →
    ∃ label next, service.step conn label = some next ∧ service.phase next = .waiting
  accepted : ∀ conn, invariant conn → service.phase conn = .waiting →
    ∃ label next, service.step conn label = some next ∧ service.phase next = .served

theorem enabled_of_served {conn : Conn} (served : service.phase (state.conns row) = .served)
    (stepped : service.step (state.conns row) label = some conn) : Enabled (service.listen backlog single) state :=
  ⟨(row, label), ⟨Function.update state.conns row conn, state.queue⟩, by simp [listen, stepped, served]⟩

theorem enabled_of_waiting {conn : Conn} (waiting : service.phase (state.conns row) = .waiting)
    (first : state.queue.head? = some row)
    (free : single → ∀ other, service.phase (state.conns other) ≠ .served)
    (stepped : service.step (state.conns row) label = some conn) (served : service.phase conn = .served) :
    Enabled (service.listen backlog single) state :=
  ⟨(row, label), ⟨Function.update state.conns row conn, state.queue.tail⟩, by
    simpa [listen, stepped, waiting, served, first] using free⟩

theorem enabled_of_outside {conn : Conn} (outside : service.phase (state.conns row) = .outside)
    (empty : state.queue = []) (stepped : service.step (state.conns row) label = some conn)
    (waiting : service.phase conn = .waiting) : Enabled (service.listen backlog single) state :=
  ⟨(row, label), ⟨Function.update state.conns row conn, [row]⟩, by
    simp [listen, stepped, outside, waiting, empty]⟩

variable {invariant : Conn → Prop} {measure : Conn → Nat}

/-- A server that cannot go on is stuck in the connections it serves, and when it could accept
another one there is none. -/
theorem stuck_cases (serves : service.Serves invariant measure) (queued : service.Queued state)
    (held : ∀ row, invariant (state.conns row)) (stuck : ¬ Enabled (service.listen backlog single) state) :
    (∀ row, service.phase (state.conns row) = .served → ¬ Enabled service.step (state.conns row)) ∧
      ((single → ∀ row, service.phase (state.conns row) ≠ .served) →
        ∀ row, service.phase (state.conns row) = .finished ∨ service.phase (state.conns row) = .served) := by
  refine ⟨?_, fun free row => ?_⟩
  · rintro row served ⟨label, conn, stepped⟩
    exact stuck (enabled_of_served served stepped)
  have empty : state.queue = [] := by
    cases same : state.queue with
    | nil => rfl
    | cons first rest =>
      have waiting := (queued.member first).mp (by simp [same])
      obtain ⟨label, conn, stepped, served⟩ := serves.accepted _ (held first) waiting
      exact absurd (enabled_of_waiting waiting (by simp [same]) free stepped served) stuck
  cases phase : service.phase (state.conns row) with
  | outside =>
    obtain ⟨label, conn, stepped, waiting⟩ := serves.connects _ (held row) phase
    exact absurd (enabled_of_outside phase empty stepped waiting) stuck
  | waiting =>
    have member := (queued.member row).mpr phase
    rw [empty] at member
    cases member
  | served => exact .inr rfl
  | finished => exact .inl rfl

/-- What every state of a run keeps. -/
def Kept (service : Service Conn Label) (invariant : Conn → Prop) (state : Listening n Conn) : Prop :=
  service.Queued state ∧ ∀ row, invariant (state.conns row)

theorem Kept.after (serves : service.Serves invariant measure) {label : Fin n × Label}
    (kept : service.Kept invariant state)
    (taken : service.listen backlog single state label = some next) : service.Kept invariant next := by
  refine ⟨kept.1.after taken, fun row => ?_⟩
  have reached : run (service.listen backlog single) state [label] = some next := by simp [run_cons, taken]
  exact run_each (fun _ => invariant) (fun _ => serves.preserved) kept.2 reached row

theorem sum_lower (serves : service.Serves invariant measure) (kept : service.Kept invariant state)
    (taken : service.listen backlog single state (row, label) = some next) :
    ∑ place, measure (next.conns place) < ∑ place, measure (state.conns place) := by
  obtain ⟨conn, stepped, conns, -⟩ := listen_cases taken
  have here := serves.lower _ _ _ (kept.2 row) stepped
  refine Finset.sum_lt_sum (fun place _ => ?_) ⟨row, Finset.mem_univ row, ?_⟩
  · by_cases same : place = row
    · rw [same, conns, Function.update_self]
      exact here.le
    · rw [conns, Function.update_of_ne same]
  · rw [conns, Function.update_self]
    exact here

theorem completes_of_stuck {finished : Listening n Conn → Prop} (serves : service.Serves invariant measure)
    (settled : ∀ state, service.Kept invariant state → ¬ Enabled (service.listen backlog single) state →
      finished state)
    (kept : service.Kept invariant state) : Completes (service.listen backlog single) finished state :=
  completes_of_progress (fun _ _ _ held taken => held.after serves taken)
    (fun _ _ _ held taken => sum_lower serves held taken)
    (fun state held => or_iff_not_imp_right.mpr (settled state held)) kept

/-- When no served connection can get stuck, every run can be continued until all connections are
finished, also by a server that serves one at a time. -/
theorem finishes (serves : service.Serves invariant measure)
    (progress : ∀ conn, invariant conn → service.phase conn = .served → Enabled service.step conn)
    (kept : service.Kept invariant state) : Completes (service.listen backlog single) service.Finished state := by
  refine completes_of_stuck serves (fun state held stuck => ?_) kept
  obtain ⟨inside, outside⟩ := stuck_cases serves held.1 held.2 stuck
  have free : ∀ row, service.phase (state.conns row) ≠ .served := fun row served =>
    inside row served (progress _ (held.2 row) served)
  exact fun row => (outside (fun _ => free) row).resolve_right (free row)

/-- A server that accepts at any time finishes every connection that does not get stuck by itself. -/
theorem settles (serves : service.Serves invariant measure) (kept : service.Kept invariant state) :
    Completes (service.listen backlog false)
      (fun state => ∀ row, service.phase (state.conns row) = .finished ∨
        service.phase (state.conns row) = .served ∧ ¬ Enabled service.step (state.conns row)) state := by
  refine completes_of_stuck serves (fun state held stuck row => ?_) kept
  obtain ⟨inside, outside⟩ := stuck_cases serves held.1 held.2 stuck
  exact (outside (fun wrong => by cases wrong) row).imp_right fun served => ⟨served, inside row served⟩

/-- A server with one connection. -/
def alone (service : Service Conn Label) (conn : Conn) : Listening 1 Conn :=
  ⟨fun _ => conn, if service.phase conn = .waiting then [⟨0, Nat.zero_lt_one⟩] else []⟩

theorem listen_alone {conn after : Conn} (stepped : service.step conn label = some after) :
    service.listen backlog single (service.alone conn) (⟨0, Nat.zero_lt_one⟩, label) = some (service.alone after) := by
  have every : Function.update (fun _ : Fin 1 => conn) ⟨0, Nat.zero_lt_one⟩ after = fun _ => after :=
    funext fun place => by rw [Subsingleton.elim place ⟨0, Nat.zero_lt_one⟩, Function.update_self]
  have forward := service.advances _ _ _ stepped
  simp only [listen, alone, stepped, Option.bind_some, every]
  cases before : service.phase conn <;> cases later : service.phase after <;>
    simp_all [Phase.Advances]

/-- A run of one connection is a run of a server that has no other. -/
theorem run_alone {conn after : Conn} {labels : List Label} (reached : run service.step conn labels = some after) :
    run (service.listen backlog single) (service.alone conn) (labels.map (Prod.mk ⟨0, Nat.zero_lt_one⟩)) =
      some (service.alone after) := by
  induction labels generalizing conn with
  | nil =>
    cases Option.some.inj reached
    rfl
  | cons label rest ih =>
    obtain ⟨next, taken, remaining⟩ := run_cons_some.mp reached
    exact run_cons_some.mpr ⟨service.alone next, listen_alone taken, ih remaining⟩

end Service
end UnixProgramming.Lib

import UnixProgramming.Lib.EventLoop
import Mathlib.Data.List.Basic

/-! Signals as events. A signal is pending until its handler runs, and is one with another
of its kind that comes in the meantime. The handler writes a byte for it into a pipe, whose
other end is watched with `EPOLLET` and read by a single `recv`. -/

namespace UnixProgramming.Lib
universe u

structure SignalPipe (Kind : Type u) where
  pending : List Kind
  bytes : List Kind
  /-- An edge of the read end is not fetched. -/
  edge : Bool
deriving DecidableEq, Repr

namespace SignalPipe
variable {Kind : Type u}

def quiet : SignalPipe Kind := ⟨[], [], false⟩

def fetch (pipe : SignalPipe Kind) (among : Bool) : SignalPipe Kind := { pipe with edge := fetched pipe.edge among }

def read (pipe : SignalPipe Kind) (length : Nat) : SignalPipe Kind := { pipe with bytes := pipe.bytes.drop length }

/-- The signal is still to be read. -/
def Carries (pipe : SignalPipe Kind) (signal : Kind) : Prop := signal ∈ pipe.pending ∨ signal ∈ pipe.bytes

/-- What is in the pipe has an event, fetched or not. -/
def Announced (pipe : SignalPipe Kind) (held : Prop) : Prop := pipe.bytes ≠ [] → pipe.edge = true ∨ held

@[simp] theorem fetch_pending (pipe : SignalPipe Kind) (among : Bool) : (pipe.fetch among).pending = pipe.pending := rfl

@[simp] theorem fetch_bytes (pipe : SignalPipe Kind) (among : Bool) : (pipe.fetch among).bytes = pipe.bytes := rfl

@[simp] theorem read_pending (pipe : SignalPipe Kind) (length : Nat) : (pipe.read length).pending = pipe.pending := rfl

theorem read_all {pipe : SignalPipe Kind} {length : Nat} (whole : pipe.bytes.length ≤ length) :
    (pipe.read length).bytes = [] := List.drop_eq_nil_of_le whole

theorem Carries.fetch {pipe : SignalPipe Kind} {signal : Kind} (carries : pipe.Carries signal) (among : Bool) :
    (pipe.fetch among).Carries signal := carries

/-- A `recv` of everything has the signal among what it returns, or leaves it pending. -/
theorem Carries.read {pipe : SignalPipe Kind} {signal : Kind} {length : Nat} (carries : pipe.Carries signal)
    (whole : pipe.bytes.length ≤ length) : (pipe.read length).Carries signal ∨ signal ∈ pipe.bytes.take length := by
  rw [List.take_of_length_le whole]
  obtain pending | arrived := carries
  · exact .inl (.inl pending)
  · exact .inr arrived

theorem Announced.mono {pipe : SignalPipe Kind} {held other : Prop} (announced : pipe.Announced held)
    (weaker : held → other) : pipe.Announced other := by
  intro waiting
  exact (announced waiting).imp_right weaker

/-- The event is handed over with the edge. -/
theorem Announced.fetch {pipe : SignalPipe Kind} {held : Prop} {among : Bool} (announced : pipe.Announced held)
    (handed : among = true → held) : (pipe.fetch among).Announced held := by
  intro waiting
  obtain set | already := announced waiting
  · cases among with
    | true => exact .inr (handed rfl)
    | false => exact .inl (by simp [SignalPipe.fetch, fetched, set])
  · exact .inr already

theorem Announced.read {pipe : SignalPipe Kind} {length : Nat} (whole : pipe.bytes.length ≤ length) (held : Prop) :
    (pipe.read length).Announced held := by
  intro waiting
  exact absurd (read_all whole) waiting

/-- A price for a pending signal, for a byte, and for the event. -/
def weight (signal byte event : Nat) (pipe : SignalPipe Kind) : Nat :=
  signal * pipe.pending.length + byte * pipe.bytes.length + event * pipe.edge.toNat

variable [DecidableEq Kind]

def raise (pipe : SignalPipe Kind) (signal : Kind) : SignalPipe Kind :=
  { pipe with pending := pipe.pending.insert signal }

/-- The handler runs. A byte for which the pipe has no room is lost. -/
def handle (capacity : Nat) (pipe : SignalPipe Kind) (signal : Kind) : SignalPipe Kind :=
  if pipe.bytes.length < capacity then ⟨pipe.pending.erase signal, pipe.bytes ++ [signal], true⟩
  else { pipe with pending := pipe.pending.erase signal }

theorem carries_raise (pipe : SignalPipe Kind) (signal : Kind) : (pipe.raise signal).Carries signal :=
  .inl List.mem_insert_self

theorem Carries.raise {pipe : SignalPipe Kind} {signal : Kind} (carries : pipe.Carries signal) (other : Kind) :
    (pipe.raise other).Carries signal := carries.imp_left List.mem_insert_of_mem

/-- A handler that finds room loses no signal. -/
theorem Carries.handle {pipe : SignalPipe Kind} {signal : Kind} {capacity : Nat} (carries : pipe.Carries signal)
    (room : pipe.bytes.length < capacity) (other : Kind) : (pipe.handle capacity other).Carries signal := by
  rw [SignalPipe.handle, if_pos room]
  by_cases same : signal = other
  · exact .inr (by simp [same])
  · exact carries.imp (fun pending => (List.mem_erase_of_ne same).mpr pending) (List.mem_append_left _)

theorem Announced.raise {pipe : SignalPipe Kind} {held : Prop} (announced : pipe.Announced held) (signal : Kind) :
    (pipe.raise signal).Announced held := announced

theorem Announced.handle {pipe : SignalPipe Kind} {held : Prop} (announced : pipe.Announced held) (capacity : Nat)
    (signal : Kind) : (pipe.handle capacity signal).Announced held := by
  unfold SignalPipe.handle
  split_ifs
  · exact fun _ => .inl rfl
  · exact announced

theorem handle_length_le {pipe : SignalPipe Kind} {capacity : Nat} (within : pipe.bytes.length ≤ capacity)
    (signal : Kind) : (pipe.handle capacity signal).bytes.length ≤ capacity := by
  unfold SignalPipe.handle
  split_ifs with room
  · simp only [List.length_append, List.length_singleton]
    omega
  · exact within

end SignalPipe
end UnixProgramming.Lib

import Mathlib.Data.List.Basic

/-! The receiving side of a stream socket that is watched with `EPOLLET`. -/

namespace UnixProgramming.Lib

/-- All the peer has sent, what of it is not received yet, whether the peer has closed,
and whether an edge is not fetched. -/
structure Socket where
  sent : List UInt8
  incoming : List UInt8
  ended : Bool
  edge : Bool
deriving DecidableEq, Repr

namespace Socket

def fresh : Socket := ⟨[], [], false, false⟩

/-- There is something to be received, bytes or the end of the stream. -/
def ready (socket : Socket) : Bool := !socket.incoming.isEmpty || socket.ended

def send (socket : Socket) (bytes : List UInt8) : Socket :=
  { socket with sent := socket.sent ++ bytes, incoming := socket.incoming ++ bytes, edge := true }

def close (socket : Socket) : Socket := { socket with ended := true, edge := true }

/-- So many bytes are received. -/
def take (socket : Socket) (count : Nat) : Socket := { socket with incoming := socket.incoming.drop count }

/-- What `EPOLL_CTL_ADD` and `EPOLL_CTL_MOD` do: an edge for what is there already. -/
def watch (socket : Socket) : Socket := { socket with edge := socket.ready }

/-- What a `recv` of so many bytes returns: nothing at the end of the stream, and `none`
where it would block. -/
def recv (socket : Socket) (length : Nat) : Option (List UInt8) :=
  if socket.incoming ≠ [] then some (socket.incoming.take length)
  else if socket.ended then some []
  else none

@[simp] theorem take_sent (socket : Socket) (count : Nat) : (socket.take count).sent = socket.sent := rfl

@[simp] theorem take_ended (socket : Socket) (count : Nat) : (socket.take count).ended = socket.ended := rfl

@[simp] theorem take_edge (socket : Socket) (count : Nat) : (socket.take count).edge = socket.edge := rfl

@[simp] theorem watch_sent (socket : Socket) : socket.watch.sent = socket.sent := rfl

@[simp] theorem watch_incoming (socket : Socket) : socket.watch.incoming = socket.incoming := rfl

@[simp] theorem watch_ended (socket : Socket) : socket.watch.ended = socket.ended := rfl

@[simp] theorem watch_edge (socket : Socket) : socket.watch.edge = socket.ready := rfl

@[simp] theorem watch_ready (socket : Socket) : socket.watch.ready = socket.ready := rfl

theorem ready_eq_false {socket : Socket} : socket.ready = false ↔ socket.incoming = [] ∧ socket.ended = false := by
  simp [ready]

theorem recv_none {socket : Socket} {length : Nat} : socket.recv length = none ↔ socket.ready = false := by
  rw [ready_eq_false, recv]
  split_ifs <;> simp_all

/-- A `recv` with room for a byte returns none only at the end of the stream. -/
theorem recv_nil {socket : Socket} {length : Nat} (room : 0 < length) :
    socket.recv length = some [] ↔ socket.incoming = [] ∧ socket.ended = true := by
  have some : length ≠ 0 := by omega
  rw [recv]
  split_ifs with waiting ended
  · simp [waiting, some]
  · simp_all
  · simp_all

/-- What is received is the front of what was to be received. -/
theorem recv_prefix {socket : Socket} {length : Nat} {bytes : List UInt8} (received : socket.recv length = some bytes) :
    bytes ++ (socket.take bytes.length).incoming = socket.incoming := by
  have front : bytes <+: socket.incoming := by
    rw [recv] at received
    split_ifs at received
    · cases received
      exact List.take_prefix _ _
    · cases received
      exact List.nil_prefix
  obtain ⟨rest, whole⟩ := front
  rw [take, ← whole, List.drop_left]

end Socket
end UnixProgramming.Lib

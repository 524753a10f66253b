import UnixProgramming.Lib.Service
import UnixProgramming.Lib.Transfer

/-! The echo client and the iterative echo server. Both sockets block, and each direction holds
a bounded number of bytes, so a `write()` or a `recv()` that waits for all its bytes is taken
in as many steps as the other side lets it. -/

namespace UnixProgramming.Echo

open UnixProgramming.Lib

/-- The size of `buf`, on both sides. -/
def bufSize : Nat := 1024

inductive ClientStage where
  /-- `connect()` has not returned. -/
  | connecting
  /-- In `read()` from the terminal. -/
  | reading
  /-- In `write()` to the server. -/
  | writing (count sent : Nat)
  /-- In `recv()` with `MSG_WAITALL`. -/
  | receiving (count received : Nat)
  /-- Before `write()` to the terminal. -/
  | printing (count : Nat)
  | closed
  deriving DecidableEq, Repr

inductive ServerStage where
  /-- The connection is not accepted yet. -/
  | pending
  | reading
  /-- Before `write()` to the terminal of the server. -/
  | logging (count : Nat)
  /-- In `write()` to the client. -/
  | writing (count sent : Nat)
  | closed
  deriving DecidableEq, Repr

/-- One client, its connection, and the server while it serves it. -/
structure Conn where
  client : ClientStage
  server : ServerStage
  stdin : List UInt8
  stdout : List UInt8
  clientBuf : List UInt8
  toServer : List UInt8
  toClient : List UInt8
  serverBuf : List UInt8
  /-- What the server has written to its terminal. -/
  logged : List UInt8
  deriving DecidableEq, Repr

inductive Label where
  | connect
  /-- The terminal hands over at most this many bytes, none at its end. -/
  | input (limit : Nat)
  /-- The kernel takes this many bytes of the `write()`. -/
  | send (count : Nat)
  | recv (count : Nat)
  | print
  | accept
  | fetch (limit : Nat)
  | log
  | reply (count : Nat)
  deriving DecidableEq, Repr

namespace Conn

/-- The buffers of both sides are not initialised. -/
def create (input clientBuf serverBuf : List UInt8) : Conn where
  client := .connecting
  server := .pending
  stdin := input
  stdout := []
  clientBuf := clientBuf
  toServer := []
  toClient := []
  serverBuf := serverBuf
  logged := []

def step (capacity : Capacity) (conn : Conn) : Label → Option Conn
  | .connect => if conn.client = .connecting then some { conn with client := .reading } else none
  | .input limit =>
    if conn.client = .reading ∧ 0 < limit then
      let got := conn.stdin.take (min limit bufSize)
      some { conn with
        client := if got = [] then .closed else .writing got.length 0
        stdin := conn.stdin.drop (min limit bufSize)
        clientBuf := overwrite conn.clientBuf 0 got }
    else none
  | .send count =>
    match conn.client with
    | .writing total sent =>
      if 0 < count ∧ sent + count ≤ total ∧ conn.toServer.length + count ≤ capacity.toServer then
        some { conn with
          client := if sent + count = total then .receiving total 0 else .writing total (sent + count)
          toServer := conn.toServer ++ (conn.clientBuf.drop sent).take count }
      else none
    | _ => none
  | .recv count =>
    match conn.client with
    | .receiving total received =>
      if conn.toClient = [] then
        if conn.server = .closed then some { conn with client := .printing total } else none
      else if 0 < count ∧ count ≤ conn.toClient.length ∧ received + count ≤ total then
        some { conn with
          client := if received + count = total then .printing total else .receiving total (received + count)
          toClient := conn.toClient.drop count
          clientBuf := overwrite conn.clientBuf received (conn.toClient.take count) }
      else none
    | _ => none
  | .print =>
    match conn.client with
    | .printing total =>
      some { conn with client := .reading, stdout := conn.stdout ++ conn.clientBuf.take total }
    | _ => none
  | .accept =>
    if conn.server = .pending ∧ conn.client ≠ .connecting then some { conn with server := .reading } else none
  | .fetch limit =>
    if conn.server = .reading ∧ 0 < limit ∧ (conn.toServer ≠ [] ∨ conn.client = .closed) then
      let got := conn.toServer.take (min limit bufSize)
      some { conn with
        server := if got = [] then .closed else .logging got.length
        toServer := conn.toServer.drop (min limit bufSize)
        serverBuf := overwrite conn.serverBuf 0 got }
    else none
  | .log =>
    match conn.server with
    | .logging total =>
      some { conn with server := .writing total 0, logged := conn.logged ++ conn.serverBuf.take total }
    | _ => none
  | .reply count =>
    match conn.server with
    | .writing total sent =>
      if 0 < count ∧ sent + count ≤ total ∧ conn.toClient.length + count ≤ capacity.toClient then
        some { conn with
          server := if sent + count = total then .reading else .writing total (sent + count)
          toClient := conn.toClient ++ (conn.serverBuf.drop sent).take count }
      else none
    | _ => none

/-- What a step can do, branch by branch. -/
inductive Steps (capacity : Capacity) (conn : Conn) : Label → Conn → Prop where
  | connect (connecting : conn.client = .connecting) :
    Steps capacity conn .connect { conn with client := .reading }
  | input (limit : Nat) (reading : conn.client = .reading) (positive : 0 < limit) :
    Steps capacity conn (.input limit) { conn with
      client := if conn.stdin.take (min limit bufSize) = [] then .closed
        else .writing (conn.stdin.take (min limit bufSize)).length 0
      stdin := conn.stdin.drop (min limit bufSize)
      clientBuf := overwrite conn.clientBuf 0 (conn.stdin.take (min limit bufSize)) }
  | send (total sent count : Nat) (writing : conn.client = .writing total sent) (positive : 0 < count)
    (fits : sent + count ≤ total) (room : conn.toServer.length + count ≤ capacity.toServer) :
    Steps capacity conn (.send count) { conn with
      client := if sent + count = total then .receiving total 0 else .writing total (sent + count)
      toServer := conn.toServer ++ (conn.clientBuf.drop sent).take count }
  | short (total got count : Nat) (receiving : conn.client = .receiving total got) (empty : conn.toClient = [])
    (closed : conn.server = .closed) :
    Steps capacity conn (.recv count) { conn with client := .printing total }
  | recv (total got count : Nat) (receiving : conn.client = .receiving total got) (positive : 0 < count)
    (present : count ≤ conn.toClient.length) (fits : got + count ≤ total) :
    Steps capacity conn (.recv count) { conn with
      client := if got + count = total then .printing total else .receiving total (got + count)
      toClient := conn.toClient.drop count
      clientBuf := overwrite conn.clientBuf got (conn.toClient.take count) }
  | print (total : Nat) (printing : conn.client = .printing total) :
    Steps capacity conn .print
      { conn with client := .reading, stdout := conn.stdout ++ conn.clientBuf.take total }
  | accept (pending : conn.server = .pending) (connected : conn.client ≠ .connecting) :
    Steps capacity conn .accept { conn with server := .reading }
  | fetch (limit : Nat) (reading : conn.server = .reading) (positive : 0 < limit)
    (ready : conn.toServer ≠ [] ∨ conn.client = .closed) :
    Steps capacity conn (.fetch limit) { conn with
      server := if conn.toServer.take (min limit bufSize) = [] then .closed
        else .logging (conn.toServer.take (min limit bufSize)).length
      toServer := conn.toServer.drop (min limit bufSize)
      serverBuf := overwrite conn.serverBuf 0 (conn.toServer.take (min limit bufSize)) }
  | log (total : Nat) (logging : conn.server = .logging total) :
    Steps capacity conn .log
      { conn with server := .writing total 0, logged := conn.logged ++ conn.serverBuf.take total }
  | reply (total sent count : Nat) (writing : conn.server = .writing total sent) (positive : 0 < count)
    (fits : sent + count ≤ total) (room : conn.toClient.length + count ≤ capacity.toClient) :
    Steps capacity conn (.reply count) { conn with
      server := if sent + count = total then .reading else .writing total (sent + count)
      toClient := conn.toClient ++ (conn.serverBuf.drop sent).take count }

theorem steps_of_step {capacity : Capacity} {conn next : Conn} {label : Label}
    (taken : conn.step capacity label = some next) : Steps capacity conn label next := by
  cases label with
  | connect =>
    obtain ⟨before, same⟩ := Option.ite_none_right_eq_some.mp taken
    cases same
    exact .connect before
  | input limit =>
    obtain ⟨⟨reading, positive⟩, same⟩ := Option.ite_none_right_eq_some.mp taken
    cases same
    exact .input limit reading positive
  | send count =>
    simp only [step] at taken
    split at taken
    next total sent writing =>
      obtain ⟨⟨positive, fits, room⟩, same⟩ := Option.ite_none_right_eq_some.mp taken
      cases same
      exact .send total sent count writing positive fits room
    next => cases taken
  | recv count =>
    simp only [step] at taken
    split at taken
    next total got receiving =>
      split at taken
      next empty =>
        obtain ⟨closed, same⟩ := Option.ite_none_right_eq_some.mp taken
        cases same
        exact .short total got count receiving empty closed
      next =>
        obtain ⟨⟨positive, present, fits⟩, same⟩ := Option.ite_none_right_eq_some.mp taken
        cases same
        exact .recv total got count receiving positive present fits
    next => cases taken
  | print =>
    simp only [step] at taken
    split at taken
    next total printing =>
      cases taken
      exact .print total printing
    next => cases taken
  | accept =>
    obtain ⟨⟨pending, connected⟩, same⟩ := Option.ite_none_right_eq_some.mp taken
    cases same
    exact .accept pending connected
  | fetch limit =>
    obtain ⟨⟨reading, positive, ready⟩, same⟩ := Option.ite_none_right_eq_some.mp taken
    cases same
    exact .fetch limit reading positive ready
  | log =>
    simp only [step] at taken
    split at taken
    next total logging =>
      cases taken
      exact .log total logging
    next => cases taken
  | reply count =>
    simp only [step] at taken
    split at taken
    next total sent writing =>
      obtain ⟨⟨positive, fits, room⟩, same⟩ := Option.ite_none_right_eq_some.mp taken
      cases same
      exact .reply total sent count writing positive fits room
    next => cases taken

/-- What the client has read and not printed. -/
def chunk (conn : Conn) : List UInt8 :=
  match conn.client with
  | .writing count _ => conn.clientBuf.take count
  | .receiving count _ => conn.clientBuf.take count
  | .printing count => conn.clientBuf.take count
  | _ => []

/-- The part of it that has come back. -/
def received (conn : Conn) : Nat :=
  match conn.client with
  | .receiving _ received => received
  | .printing count => count
  | _ => 0

def unsent (conn : Conn) : List UInt8 :=
  match conn.client with
  | .writing count sent => (conn.clientBuf.take count).drop sent
  | _ => []

def unlogged (conn : Conn) : List UInt8 :=
  match conn.server with
  | .logging count => conn.serverBuf.take count
  | _ => []

def unreplied (conn : Conn) : List UInt8 :=
  match conn.server with
  | .logging count => conn.serverBuf.take count
  | .writing count sent => (conn.serverBuf.take count).drop sent
  | _ => []

/-- The numbers of a call in progress. -/
def ClientFits : ClientStage → Prop
  | .writing count sent => sent < count ∧ count ≤ bufSize
  | .receiving count received => received < count ∧ count ≤ bufSize
  | .printing count => 0 < count ∧ count ≤ bufSize
  | _ => True

def ServerFits : ServerStage → Prop
  | .logging count => 0 < count ∧ count ≤ bufSize
  | .writing count sent => sent < count ∧ count ≤ bufSize
  | _ => True

structure Sound (input : List UInt8) (conn : Conn) : Prop where
  clientSize : conn.clientBuf.length = bufSize
  serverSize : conn.serverBuf.length = bufSize
  clientFits : ClientFits conn.client
  serverFits : ServerFits conn.server
  /-- The bytes on their way are the part of the chunk that has not come back. -/
  flight : conn.toClient ++ conn.unreplied ++ conn.toServer ++ conn.unsent = conn.chunk.drop conn.received
  printed : conn.stdout ++ conn.chunk ++ conn.stdin = input
  logs : conn.logged ++ conn.unlogged ++ conn.toServer ++ conn.unsent ++ conn.stdin = input
  ended : conn.client = .closed → conn.stdin = []
  served : conn.server = .closed → conn.client = .closed
  outside : conn.client = .connecting → conn.server = .pending

variable {capacity : Capacity} {input : List UInt8} {conn next : Conn}

theorem Sound.start {clientBuf serverBuf : List UInt8} (clientSize : clientBuf.length = bufSize)
    (serverSize : serverBuf.length = bufSize) : Sound input (create input clientBuf serverBuf) := by
  constructor <;>
    simp_all [create, ClientFits, ServerFits, unreplied, unsent, unlogged, chunk, received]

theorem nil_of_take_nil {stream : List UInt8} {limit : Nat} (positive : 0 < limit)
    (empty : stream.take (min limit bufSize) = []) : stream = [] := by
  cases stream with
  | nil => rfl
  | cons byte rest =>
    have some : min limit bufSize = min limit bufSize - 1 + 1 := by
      rw [bufSize]
      omega
    rw [some] at empty
    cases empty

theorem Sound.readTerminal (sound : Sound input conn) {limit : Nat} (reading : conn.client = .reading)
    (positive : 0 < limit) :
    Sound input { conn with
      client := if conn.stdin.take (min limit bufSize) = [] then .closed
        else .writing (conn.stdin.take (min limit bufSize)).length 0
      stdin := conn.stdin.drop (min limit bufSize)
      clientBuf := overwrite conn.clientBuf 0 (conn.stdin.take (min limit bufSize)) } := by
  obtain ⟨clientSize, serverSize, clientFits, serverFits, flight, printed, logs, ended, served, outside⟩ := sound
  obtain ⟨client, server, stdin, stdout, clientBuf, toServer, toClient, serverBuf, logged⟩ := conn
  cases reading
  have whole := List.take_append_drop (min limit bufSize) stdin
  have short : (stdin.take (min limit bufSize)).length ≤ bufSize := by
    rw [List.length_take]
    omega
  have same := take_overwrite clientBuf (stdin.take (min limit bufSize))
  have size := length_overwrite clientSize short
  by_cases empty : stdin.take (min limit bufSize) = []
  · have ends := nil_of_take_nil positive empty
    constructor <;> simp_all [ClientFits, ServerFits, unreplied, unsent, unlogged, chunk, received]
  · have some := List.length_pos_iff.mpr empty
    generalize stdin.take (min limit bufSize) = got at *
    generalize stdin.drop (min limit bufSize) = rest at *
    subst whole
    constructor <;> simp_all [ClientFits, ServerFits, unreplied, unsent, unlogged, chunk, received]

theorem Sound.writeServer (sound : Sound input conn) {total sent count : Nat} (writing : conn.client = .writing total sent)
    (fits : sent + count ≤ total) :
    Sound input { conn with
      client := if sent + count = total then .receiving total 0 else .writing total (sent + count)
      toServer := conn.toServer ++ (conn.clientBuf.drop sent).take count } := by
  obtain ⟨clientSize, serverSize, clientFits, serverFits, flight, printed, logs, ended, served, outside⟩ := sound
  obtain ⟨client, server, stdin, stdout, clientBuf, toServer, toClient, serverBuf, logged⟩ := conn
  cases writing
  have part := take_drop_append clientBuf sent count total fits
  by_cases all : sent + count = total
  · have none : (clientBuf.take total).drop (sent + count) = [] := List.drop_eq_nil_of_le (by simp [all])
    rw [none, List.append_nil] at part
    constructor <;> simp_all [ClientFits, ServerFits, unreplied, unsent, unlogged, chunk, received]
    omega
  · constructor <;> simp_all [ClientFits, ServerFits, unreplied, unsent, unlogged, chunk, received]
    omega

theorem Sound.recv (sound : Sound input conn) {total got count : Nat} (receiving : conn.client = .receiving total got)
    (present : count ≤ conn.toClient.length) (fits : got + count ≤ total) :
    Sound input { conn with
      client := if got + count = total then .printing total else .receiving total (got + count)
      toClient := conn.toClient.drop count
      clientBuf := overwrite conn.clientBuf got (conn.toClient.take count) } := by
  obtain ⟨clientSize, serverSize, clientFits, serverFits, flight, printed, logs, ended, served, outside⟩ := sound
  obtain ⟨client, server, stdin, stdout, clientBuf, toServer, toClient, serverBuf, logged⟩ := conn
  cases receiving
  -- The bytes that come back are the ones the buffer still holds.
  have front := congrArg (List.take count) flight
  have back := congrArg (List.drop count) flight
  simp only [List.append_assoc] at front back
  rw [List.take_append_of_le_length present] at front
  rw [List.drop_append_of_le_length present] at back
  have kept : overwrite clientBuf got (toClient.take count) = clientBuf := by
    rw [front]
    simp only [chunk, received, List.drop_take, List.take_take, min_eq_left (Nat.le_sub_of_add_le' fits)]
    exact overwrite_self clientBuf got count
  by_cases all : got + count = total
  · constructor <;> simp_all [ClientFits, ServerFits, unreplied, unsent, unlogged, chunk, received]
    omega
  · constructor <;> simp_all [ClientFits, ServerFits, unreplied, unsent, unlogged, chunk, received]
    omega

theorem Sound.readClient (sound : Sound input conn) {limit : Nat} (reading : conn.server = .reading)
    (positive : 0 < limit) (ready : conn.toServer ≠ [] ∨ conn.client = .closed) :
    Sound input { conn with
      server := if conn.toServer.take (min limit bufSize) = [] then .closed
        else .logging (conn.toServer.take (min limit bufSize)).length
      toServer := conn.toServer.drop (min limit bufSize)
      serverBuf := overwrite conn.serverBuf 0 (conn.toServer.take (min limit bufSize)) } := by
  obtain ⟨clientSize, serverSize, clientFits, serverFits, flight, printed, logs, ended, served, outside⟩ := sound
  obtain ⟨client, server, stdin, stdout, clientBuf, toServer, toClient, serverBuf, logged⟩ := conn
  cases reading
  have whole := List.take_append_drop (min limit bufSize) toServer
  have short : (toServer.take (min limit bufSize)).length ≤ bufSize := by
    rw [List.length_take]
    omega
  have same := take_overwrite serverBuf (toServer.take (min limit bufSize))
  have size := length_overwrite serverSize short
  by_cases empty : toServer.take (min limit bufSize) = []
  · have ends := nil_of_take_nil positive empty
    constructor <;> simp_all [ClientFits, ServerFits, unreplied, unsent, unlogged, chunk, received]
  · have some := List.length_pos_iff.mpr empty
    generalize toServer.take (min limit bufSize) = got at *
    generalize toServer.drop (min limit bufSize) = rest at *
    subst whole
    constructor <;> simp_all [ClientFits, ServerFits, unreplied, unsent, unlogged, chunk, received]

theorem Sound.writeClient (sound : Sound input conn) {total sent count : Nat} (writing : conn.server = .writing total sent)
    (fits : sent + count ≤ total) :
    Sound input { conn with
      server := if sent + count = total then .reading else .writing total (sent + count)
      toClient := conn.toClient ++ (conn.serverBuf.drop sent).take count } := by
  obtain ⟨clientSize, serverSize, clientFits, serverFits, flight, printed, logs, ended, served, outside⟩ := sound
  obtain ⟨client, server, stdin, stdout, clientBuf, toServer, toClient, serverBuf, logged⟩ := conn
  cases writing
  have part := take_drop_append serverBuf sent count total fits
  by_cases all : sent + count = total
  · have none : (serverBuf.take total).drop (sent + count) = [] := List.drop_eq_nil_of_le (by simp [all])
    rw [none, List.append_nil] at part
    constructor <;> simp_all [ClientFits, ServerFits, unreplied, unsent, unlogged, chunk, received]
  · simp only [unreplied] at flight
    rw [← part] at flight
    constructor <;> simp_all [ClientFits, ServerFits, unreplied, unsent, unlogged, chunk, received]
    omega

theorem Sound.after (sound : Sound input conn) {label : Label} (taken : conn.step capacity label = some next) :
    Sound input next := by
  cases steps_of_step taken with
  | connect connecting =>
    obtain ⟨clientSize, serverSize, clientFits, serverFits, flight, printed, logs, ended, served, outside⟩ := sound
    constructor <;> simp_all [ClientFits, unreplied, unsent, unlogged, chunk, received]
  | input limit reading positive => exact sound.readTerminal reading positive
  | send total sent count writing positive fits room => exact sound.writeServer writing fits
  | short total got count receiving empty closed =>
    have shut := sound.served closed
    rw [receiving] at shut
    cases shut
  | recv total got count receiving positive present fits => exact sound.recv receiving present fits
  | print total printing =>
    obtain ⟨clientSize, serverSize, clientFits, serverFits, flight, printed, logs, ended, served, outside⟩ := sound
    constructor <;> simp_all [ClientFits, unreplied, unsent, unlogged, chunk, received]
  | accept pending connected =>
    obtain ⟨clientSize, serverSize, clientFits, serverFits, flight, printed, logs, ended, served, outside⟩ := sound
    constructor <;> simp_all [ServerFits, unreplied, unsent, unlogged, chunk, received]
  | fetch limit reading positive ready => exact sound.readClient reading positive ready
  | log total logging =>
    obtain ⟨clientSize, serverSize, clientFits, serverFits, flight, printed, logs, ended, served, outside⟩ := sound
    constructor <;> simp_all [ServerFits, unreplied, unsent, unlogged, chunk, received]
  | reply total sent count writing positive fits room => exact sound.writeClient writing fits

end Conn
end UnixProgramming.Echo

import UnixProgramming.Csapp.LineChunks
import UnixProgramming.Csapp.RioTurn
import UnixProgramming.Lib.Service
import UnixProgramming.Lib.Transfer

/-! The line echo client and the `echo()` of its servers, over the robust I/O package. Both sockets
block, and each direction of the connection holds a bounded number of bytes. -/

namespace UnixProgramming.Csapp.LineEcho

open UnixProgramming.Lib

inductive ClientStage where
  | connecting
  /-- In `fgets`. -/
  | reading
  /-- In `rio_writen` of `n` bytes. -/
  | writing (n sent : Nat)
  /-- In `rio_readlineb`. -/
  | receiving (stored : List UInt8)
  /-- Before `fputs`. -/
  | printing
  | closed
  deriving DecidableEq, Repr

inductive ServerStage where
  /-- The connection is not accepted yet. -/
  | pending
  /-- In `rio_readlineb`. -/
  | reading (stored : List UInt8)
  /-- In `rio_writen` of `n` bytes. -/
  | writing (n sent : Nat)
  | closed
  deriving DecidableEq, Repr

/-- The bytes on their way to a side are the ones its `rio_t` has still to read. -/
structure Conn where
  client : ClientStage
  server : ServerStage
  stdin : List UInt8
  stdout : List UInt8
  clientBuf : List UInt8
  clientRio : Rio
  serverBuf : List UInt8
  serverRio : Rio
  deriving DecidableEq, Repr

inductive Label where
  | connect
  | fgets
  /-- The kernel takes this many bytes of the client's `write()`. -/
  | send (count : Nat)
  /-- An iteration of the client's `rio_readlineb`, with at most this many bytes for a `read()`. -/
  | receive (limit : Nat)
  | fputs
  | accept
  | fetch (limit : Nat)
  | reply (count : Nat)
  deriving DecidableEq, Repr

/-- What `rio_readlineb` has put into its buffer when it returns. -/
def stores (buf : List UInt8) (delivery : Rio.Delivery) : List UInt8 :=
  overwrite buf 0 (delivery.data ++ if delivery.terminated then [0] else [])

/-- `rio_writen` of no bytes returns at once. -/
def writing (n : Nat) : ClientStage := if n = 0 then .receiving [] else .writing n 0

namespace Conn

def create (input clientBuf serverBuf : List UInt8) (clientRio serverRio : Rio) : Conn where
  client := .connecting
  server := .pending
  stdin := input
  stdout := []
  clientBuf := clientBuf
  clientRio := clientRio.rioReadinitb ⟨[], [], []⟩
  serverBuf := serverBuf
  serverRio := serverRio.rioReadinitb ⟨[], [], []⟩

/-- The client's `rio_readlineb` goes on or returns; the value it returns is not looked at. -/
def received (conn : Conn) : Rio.Turn × Rio → Option Conn
  | (.blocked, _) => none
  | (.more stored, rp) => some { conn with client := .receiving stored, clientRio := rp.rested }
  | (.returned delivery, rp) =>
    some { conn with
      client := .printing, clientBuf := stores conn.clientBuf delivery, clientRio := rp.rested }

/-- The server's `rio_readlineb` goes on or returns; its value is taken for a `size_t`. -/
def fetched (conn : Conn) : Rio.Turn × Rio → Option Conn
  | (.blocked, _) => none
  | (.more stored, rp) => some { conn with server := .reading stored, serverRio := rp.rested }
  | (.returned delivery, rp) =>
    let n := (delivery.value.getD 0 % 2 ^ 64).toNat
    some { conn with
      server := if n = 0 then .closed else .writing n 0
      serverBuf := stores conn.serverBuf delivery
      serverRio := rp.rested }

def step (capacity : Capacity) (conn : Conn) : Label → Option Conn
  | .connect => if conn.client = .connecting then some { conn with client := .reading } else none
  | .fgets =>
    if conn.client = .reading then
      let line := Rio.lineOf (maxline - 1) conn.stdin
      if line = [] then some { conn with client := .closed }
      else
        let buf := overwrite conn.clientBuf 0 (line ++ [0])
        some { conn with
          client := writing (str buf 0).length, stdin := conn.stdin.drop line.length, clientBuf := buf }
    else none
  | .send count =>
    match conn.client with
    | .writing n sent =>
      if 0 < count ∧ sent + count ≤ n ∧ conn.serverRio.fd.source.length + count ≤ capacity.toServer then
        some { conn with
          client := if sent + count = n then .receiving [] else .writing n (sent + count)
          serverRio := conn.serverRio.feed ((conn.clientBuf.drop sent).take count) }
      else none
    | _ => none
  | .receive limit =>
    match conn.client with
    | .receiving stored =>
      let ended := decide (conn.server = .closed)
      if 0 < limit ∧ conn.clientRio.Offers stored ended then
        conn.received ((conn.clientRio.granted limit ended).turn maxline stored)
      else none
    | _ => none
  | .fputs =>
    if conn.client = .printing then
      some { conn with client := .reading, stdout := conn.stdout ++ str conn.clientBuf 0 }
    else none
  | .accept =>
    if conn.server = .pending ∧ conn.client ≠ .connecting then some { conn with server := .reading [] } else none
  | .fetch limit =>
    match conn.server with
    | .reading stored =>
      let ended := decide (conn.client = .closed)
      if 0 < limit ∧ conn.serverRio.Offers stored ended then
        conn.fetched ((conn.serverRio.granted limit ended).turn maxline stored)
      else none
    | _ => none
  | .reply count =>
    match conn.server with
    | .writing n sent =>
      if 0 < count ∧ sent + count ≤ n ∧ conn.clientRio.fd.source.length + count ≤ capacity.toClient then
        some { conn with
          server := if sent + count = n then .reading [] else .writing n (sent + count)
          clientRio := conn.clientRio.feed ((conn.serverBuf.drop sent).take count) }
      else none
    | _ => none

/-- What a step can do, branch by branch. -/
inductive Steps (capacity : Capacity) (conn : Conn) : Label → Conn → Prop where
  | connect (connecting : conn.client = .connecting) :
    Steps capacity conn .connect { conn with client := .reading }
  | close (reading : conn.client = .reading) (nothing : Rio.lineOf (maxline - 1) conn.stdin = []) :
    Steps capacity conn .fgets { conn with client := .closed }
  | fgets (line : List UInt8) (reading : conn.client = .reading)
    (same : line = Rio.lineOf (maxline - 1) conn.stdin) (more : line ≠ []) :
    Steps capacity conn .fgets { conn with
      client := writing (str (overwrite conn.clientBuf 0 (line ++ [0])) 0).length
      stdin := conn.stdin.drop line.length
      clientBuf := overwrite conn.clientBuf 0 (line ++ [0]) }
  | send (n sent count : Nat) (writing : conn.client = .writing n sent) (positive : 0 < count)
    (fits : sent + count ≤ n) (room : conn.serverRio.fd.source.length + count ≤ capacity.toServer) :
    Steps capacity conn (.send count) { conn with
      client := if sent + count = n then .receiving [] else .writing n (sent + count)
      serverRio := conn.serverRio.feed ((conn.clientBuf.drop sent).take count) }
  | receive (stored : List UInt8) (limit : Nat) (next : Conn) (receiving : conn.client = .receiving stored)
    (positive : 0 < limit) (offers : conn.clientRio.Offers stored (decide (conn.server = .closed)))
    (same : conn.received ((conn.clientRio.granted limit (decide (conn.server = .closed))).turn maxline stored) =
      some next) :
    Steps capacity conn (.receive limit) next
  | fputs (printing : conn.client = .printing) :
    Steps capacity conn .fputs { conn with client := .reading, stdout := conn.stdout ++ str conn.clientBuf 0 }
  | accept (pending : conn.server = .pending) (connected : conn.client ≠ .connecting) :
    Steps capacity conn .accept { conn with server := .reading [] }
  | fetch (stored : List UInt8) (limit : Nat) (next : Conn) (reading : conn.server = .reading stored)
    (positive : 0 < limit) (offers : conn.serverRio.Offers stored (decide (conn.client = .closed)))
    (same : conn.fetched ((conn.serverRio.granted limit (decide (conn.client = .closed))).turn maxline stored) =
      some next) :
    Steps capacity conn (.fetch limit) next
  | reply (n sent count : Nat) (writing : conn.server = .writing n sent) (positive : 0 < count)
    (fits : sent + count ≤ n) (room : conn.clientRio.fd.source.length + count ≤ capacity.toClient) :
    Steps capacity conn (.reply count) { conn with
      server := if sent + count = n then .reading [] else .writing n (sent + count)
      clientRio := conn.clientRio.feed ((conn.serverBuf.drop sent).take count) }

theorem steps_of_step {capacity : Capacity} {conn next : Conn} {label : Label}
    (taken : conn.step capacity label = some next) : Steps capacity conn label next := by
  cases label with
  | connect =>
    obtain ⟨before, same⟩ := Option.ite_none_right_eq_some.mp taken
    cases same
    exact .connect before
  | fgets =>
    obtain ⟨reading, same⟩ := Option.ite_none_right_eq_some.mp taken
    dsimp only at same
    split at same
    next nothing =>
      cases same
      exact .close reading nothing
    next more =>
      cases same
      exact .fgets _ reading rfl more
  | send count =>
    simp only [step] at taken
    split at taken
    next n sent writing =>
      obtain ⟨⟨positive, fits, room⟩, same⟩ := Option.ite_none_right_eq_some.mp taken
      cases same
      exact .send n sent count writing positive fits room
    next => cases taken
  | receive limit =>
    simp only [step] at taken
    split at taken
    next stored receiving =>
      obtain ⟨⟨positive, offers⟩, same⟩ := Option.ite_none_right_eq_some.mp taken
      exact .receive stored limit next receiving positive offers same
    next => cases taken
  | fputs =>
    obtain ⟨printing, same⟩ := Option.ite_none_right_eq_some.mp taken
    cases same
    exact .fputs printing
  | accept =>
    obtain ⟨⟨pending, connected⟩, same⟩ := Option.ite_none_right_eq_some.mp taken
    cases same
    exact .accept pending connected
  | fetch limit =>
    simp only [step] at taken
    split at taken
    next stored reading =>
      obtain ⟨⟨positive, offers⟩, same⟩ := Option.ite_none_right_eq_some.mp taken
      exact .fetch stored limit next reading positive offers same
    next => cases taken
  | reply count =>
    simp only [step] at taken
    split at taken
    next n sent writing =>
      obtain ⟨⟨positive, fits, room⟩, same⟩ := Option.ite_none_right_eq_some.mp taken
      cases same
      exact .reply n sent count writing positive fits room
    next => cases taken

end Conn
end UnixProgramming.Csapp.LineEcho

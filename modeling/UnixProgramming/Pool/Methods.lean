import UnixProgramming.Pool.Ownership

/-! The statements of the server's threads, run one after the other by a thread that
has the object to itself, do what the methods they belong to do. -/

namespace UnixProgramming.Pool.Slot

open UnixProgramming.Lib HttpConn

/-- The main loop inside an object, until it leaves it. -/
def mainRun (fd : Nat) : Slot × Option MainTask → Action → Option (Slot × Option MainTask)
  | (slot, some task), action => slot.mainStep fd task action
  | (_, none), _ => none

/-- A worker inside an object, until it leaves it. -/
def workerRun : Slot × Option WorkerTask → Action → Option (Slot × Option WorkerTask)
  | (slot, some task), action => slot.workerStep task action
  | (_, none), _ => none

theorem init_run (fd : Nat) (slot : Slot) :
    run (mainRun fd) (slot, some .initSockfd) [.next, .next, .next, .next] =
      some ({ slot with
        conn := slot.conn.initConn fd
        registration := slot.addfd.registration
        connected := true
        generation := slot.generation + 1 }, none) := by
  cases entry : slot.registration <;> simp [run_cons, mainRun, mainStep, addfd, entry] <;> rfl

theorem receive_run (fd : Nat) (slot : Slot) (outcomes : List Recv) :
    ∃ actions, run (mainRun fd) (slot, some .receive) actions =
      some ({ slot with conn := (slot.conn.readLoop outcomes).2 },
        some (if (slot.conn.readLoop outcomes).1 then .append else slot.closing)) := by
  induction outcomes generalizing slot with
  | nil => exact ⟨[.recv .again], rfl⟩
  | cons outcome rest ih =>
    cases outcome with
    | again => exact ⟨[.recv .again], rfl⟩
    | error => exact ⟨[.recv .error], rfl⟩
    | data received =>
      by_cases ended : received.take (readBufferSize - slot.conn.readIdx) = []
      · refine ⟨[.recv (.data received)], ?_⟩
        simp [run_cons, mainRun, mainStep, readLoop, ended]
      · obtain ⟨actions, taken⟩ := ih { slot with conn := { slot.conn with
          readBuf := slot.conn.readBuf ++ received.take (readBufferSize - slot.conn.readIdx) } }
        refine ⟨.recv (.data received) :: actions, ?_⟩
        simp only [run_cons, mainRun, mainStep, ended, if_false, Option.bind_some, readLoop]
        exact taken

/-- The statements of `read()` come to the call that `Session` makes of it. -/
theorem read_run (fd : Nat) (slot : Slot) (outcomes : List Recv) :
    ∃ actions, run (mainRun fd) (slot, some .read) actions =
      some ({ slot with conn := (slot.conn.read outcomes).2 },
        some (if (slot.conn.read outcomes).1 then .append else slot.closing)) := by
  by_cases full : readBufferSize ≤ slot.conn.readIdx
  · refine ⟨[.next], ?_⟩
    simp [run_cons, mainRun, mainStep, HttpConn.read, full]
  · obtain ⟨actions, taken⟩ := receive_run fd slot outcomes
    refine ⟨.next :: actions, ?_⟩
    simp only [run_cons, mainRun, mainStep, full, if_false, Option.bind_some, HttpConn.read]
    exact taken

/-- The descriptor as the last `modfd` of a call leaves it. -/
def rearm (slot : Slot) : Option Interest → Slot
  | some interest => slot.modfd interest
  | none => slot

/-- Where the main loop goes when `write()` returns. -/
def afterWrite (slot : Slot) (value : Bool) : Option MainTask := if value then none else some slot.closing

theorem unmap_linger (conn : HttpConn) : conn.unmap.linger = conn.linger := by
  unfold HttpConn.unmap
  split_ifs <;> rfl

theorem sending_run (fd : Nat) (slot : Slot) (memory : Address → List UInt8) (outcomes : List Writev)
    {bytesToSend bytesHaveSend : Int} {result : WriteResult}
    (written : writeLoop memory slot.conn bytesToSend bytesHaveSend outcomes = some result) :
    ∃ actions, run (mainRun fd) (slot, some (.sending bytesToSend bytesHaveSend)) actions =
      some (rearm { slot with conn := result.conn } result.armed, slot.afterWrite result.value) := by
  induction outcomes generalizing bytesToSend bytesHaveSend result with
  | nil => cases written
  | cons outcome rest ih =>
    cases outcome with
    | again =>
      simp only [writeLoop] at written
      split_ifs at written
      cases written
      exact ⟨[.writev .again, .next], rfl⟩
    | error =>
      simp only [writeLoop] at written
      split_ifs at written
      cases written
      exact ⟨[.writev .error, .next], rfl⟩
    | accepted count =>
      simp only [writeLoop] at written
      split_ifs at written with finished last kept
      · cases written
        rw [unmap_linger] at kept
        refine ⟨[.writev (.accepted count), .next, .next, .next], ?_⟩
        simp [run_cons, mainRun, mainStep, finished, kept, rearm, afterWrite]
      · cases written
        rw [unmap_linger] at kept
        refine ⟨[.writev (.accepted count), .next, .next], ?_⟩
        simp [run_cons, mainRun, mainStep, finished, kept, rearm, afterWrite, closing]
      · obtain ⟨later, sent, rfl⟩ := Option.map_eq_some_iff.mp written
        obtain ⟨actions, taken⟩ := ih sent
        refine ⟨.writev (.accepted count) :: actions, ?_⟩
        simp only [run_cons, mainRun, mainStep, finished, if_false, Option.bind_some]
        exact taken

/-- The statements of `write()` come to the call that `Session` makes of it. -/
theorem write_run (fd : Nat) (slot : Slot) (memory : Address → List UInt8) (outcomes : List Writev)
    {result : WriteResult} (written : slot.conn.write memory outcomes = some result) :
    ∃ actions, run (mainRun fd) (slot, some .write) actions =
      some (rearm { slot with conn := result.conn } result.armed, slot.afterWrite result.value) := by
  unfold HttpConn.write at written
  split_ifs at written with empty unused
  · cases written
    refine ⟨[.next, .next, .next], ?_⟩
    have same : slot.conn.init.sockfd = slot.conn.sockfd := rfl
    simp only [run_cons, mainRun, mainStep, empty, if_true, Option.bind_some, run_nil, rearm, afterWrite, modfd, same]
    split_ifs <;> rfl
  · obtain ⟨actions, taken⟩ := sending_run fd slot memory outcomes written
    refine ⟨.next :: actions, ?_⟩
    simp only [run_cons, mainRun, mainStep, empty, if_false, Option.bind_some]
    exact taken

/-- The statements of `close_conn` on an open connection. -/
theorem close_run (slot : Slot) (generation : Nat) {fd : Nat} (held : slot.conn.sockfd = some fd) :
    run workerRun (slot, some (.close generation .check)) [.next, .next, .next, .next, .next, .next] =
      some ({ slot with conn := slot.conn.closeConn }.shut, none) := by
  simp [run_cons, workerRun, workerStep, closeStep, held, shut, modfd, closeConn]

/-- The statements of `process()` come to the call that `Session` makes of it. -/
theorem process_run (fs : FileSystem) (slot : Slot) {fd : Nat} (held : slot.conn.sockfd = some fd) :
    ∃ actions, run workerRun (slot, some .processRead) actions =
      some (match slot.conn.process fs with
        | ⟨conn, some interest⟩ => ({ slot with conn := conn }.modfd interest, none)
        | ⟨conn, none⟩ => ({ slot with conn := conn }.shut, none)) := by
  have readSame := processRead_sockfd fs slot.conn
  have writeSame := processWrite_sockfd (processRead fs slot.conn).2 (processRead fs slot.conn).1
  unfold HttpConn.process
  generalize parsed : processRead fs slot.conn = result at *
  obtain ⟨code, conn⟩ := result
  by_cases incomplete : code = .noRequest
  · refine ⟨[.parse fs, .next], ?_⟩
    simp [run_cons, workerRun, workerStep, parsed, incomplete]
  · generalize response : conn.processWrite code = answer at *
    obtain ⟨built, ready⟩ := answer
    cases built with
    | true =>
      refine ⟨[.parse fs, .next, .next], ?_⟩
      simp [run_cons, workerRun, workerStep, parsed, incomplete, response]
    | false =>
      have closed := close_run { slot with conn := ready } slot.generation
        (writeSame.trans (readSame.trans held))
      refine ⟨.parse fs :: .next :: [.next, .next, .next, .next, .next, .next], ?_⟩
      rw [run_cons]
      simp only [workerRun, workerStep, parsed, incomplete, if_false, Option.bind_some]
      rw [run_cons]
      simp only [workerRun, workerStep, response, Bool.false_eq_true, if_false, Option.bind_some]
      exact closed

end UnixProgramming.Pool.Slot

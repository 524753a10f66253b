import UnixProgramming.Lib.Run
import UnixProgramming.Pool.Fragmentation
import UnixProgramming.Pool.HttpResponse

/-! The life of one `http_conn` object as the main loop and the workers drive it:
each event armed by `modfd` is handled by one method call at a time, and the object
serves one connection after another. -/

namespace UnixProgramming.Pool

open UnixProgramming.Lib HttpConn

/-- Where a connection is: not open, waiting for an event, in the work queue, or
open but refused by the work queue. -/
inductive Phase where
  | closed
  | armed (interest : Interest)
  | queued
  | stranded
deriving DecidableEq, Repr

structure Session where
  conn : HttpConn
  phase : Phase
deriving DecidableEq, Repr

/-- What happens to the object, with the answers of the system calls made then. A
hang-up or an error is reported like an event the descriptor is armed for. -/
inductive SessionEvent where
  | accept (sockfd : Nat)
  | hangup
  | readable (outcomes : List Recv) (admitted : Bool)
  | process (fs : FileSystem)
  | writable (memory : Address → List UInt8) (outcomes : List Writev)

namespace Session

def close (session : Session) : Session := ⟨session.conn.closeConn, .closed⟩

def step (session : Session) : SessionEvent → Option Session
  | .accept sockfd =>
    if session.phase = .closed then some ⟨session.conn.initConn sockfd, .armed .epollin⟩ else none
  | .hangup =>
    match session.phase with
    | .armed _ => some session.close
    | _ => none
  | .readable outcomes admitted =>
    if session.phase = .armed .epollin then
      let (readable, conn) := session.conn.read outcomes
      if readable then some ⟨conn, if admitted then .queued else .stranded⟩
      else some (close ⟨conn, session.phase⟩)
    else none
  | .process fs =>
    if session.phase = .queued then
      match session.conn.process fs with
      | ⟨conn, some interest⟩ => some ⟨conn, .armed interest⟩
      | ⟨conn, none⟩ => some ⟨conn, .closed⟩
    else none
  | .writable memory outcomes =>
    if session.phase = .armed .epollout then
      match session.conn.write memory outcomes with
      | some ⟨true, conn, some interest, _⟩ => some ⟨conn, .armed interest⟩
      | some ⟨false, conn, _, _⟩ => some (close ⟨conn, session.phase⟩)
      | _ => none
    else none

end Session

namespace HttpConn

/-- The members the parser has no business with. -/
def outer (conn : HttpConn) : Option Nat × List UInt8 × Address × List Iovec × List MapCall :=
  (conn.sockfd, conn.writeBuf, conn.fileAddress, conn.iv, conn.mapCalls)

theorem loopCondition_outer (conn : HttpConn) (status : LineStatus) :
    (conn.loopCondition status).2.outer = conn.outer := by
  unfold loopCondition
  split_ifs <;> rfl

theorem parseRequestLine_outer (conn : HttpConn) (text : Nat) :
    (conn.parseRequestLine text).2.outer = conn.outer := by
  unfold parseRequestLine parseUrl parseVersion
  dsimp only
  repeat' split
  all_goals rfl

theorem paresHeaders_outer (conn : HttpConn) (text : Nat) : (conn.paresHeaders text).2.outer = conn.outer := by
  unfold paresHeaders
  dsimp only
  repeat' split
  all_goals rfl

theorem paresContent_outer (conn : HttpConn) (text : Nat) : (conn.paresContent text).2.outer = conn.outer := by
  unfold paresContent
  dsimp only
  repeat' split
  all_goals rfl

/-- What `do_request` does with mappings: a file that is there, readable and no
directory is mapped, and nothing else happens. -/
def Requested (fs : FileSystem) (before : HttpConn) (code : HttpCode) (after : HttpConn) : Prop :=
  after.sockfd = before.sockfd ∧ after.writeBuf = before.writeBuf ∧
    ((code ≠ .fileRequest ∧ after.fileAddress = before.fileAddress ∧ after.mapCalls = before.mapCalls) ∨
      ∃ stat, code = .fileRequest ∧ fs.stat after.realFile = some stat ∧ stat.otherRead = true ∧ stat.isDir = false ∧
        after.fileStat = stat ∧
        after.fileAddress = ((fs.mmap after.realFile).map Address.mapped).getD .mapFailed ∧
        after.mapCalls = before.mapCalls ++ [.mmap (fs.mmap after.realFile) stat.size])

theorem requested_of_outer {fs : FileSystem} {before after : HttpConn} {code : HttpCode}
    (other : code ≠ .fileRequest) (same : after.outer = before.outer) : Requested fs before code after := by
  simp only [outer, Prod.mk.injEq] at same
  exact ⟨same.1, same.2.1, .inl ⟨other, same.2.2.1, same.2.2.2.2⟩⟩

theorem Requested.congr {fs : FileSystem} {first before after : HttpConn} {code : HttpCode}
    (requested : Requested fs before code after) (same : before.outer = first.outer) :
    Requested fs first code after := by
  simp only [outer, Prod.mk.injEq] at same
  obtain ⟨sockfd, writeBuf, address, -, calls⟩ := same
  simpa only [Requested, sockfd, writeBuf, address, calls] using requested

theorem doRequest_requested (fs : FileSystem) (conn : HttpConn) :
    Requested fs conn (doRequest fs conn).1 (doRequest fs conn).2 := by
  unfold doRequest
  dsimp only
  cases found : fs.stat (realPath ((conn.url.map (str conn.readBuf)).getD [])) with
  | none => exact requested_of_outer (by simp) rfl
  | some stat =>
    cases readable : stat.otherRead with
    | false =>
      simp only [readable, Bool.false_eq_true, not_false_eq_true, if_true]
      exact requested_of_outer (by simp) rfl
    | true =>
      cases directory : stat.isDir with
      | true =>
        simp only [readable, directory, not_true_eq_false, if_false, if_true]
        exact requested_of_outer (by simp) rfl
      | false =>
        simp only [readable, directory, not_true_eq_false, Bool.false_eq_true, if_false]
        exact ⟨rfl, rfl, .inr ⟨stat, rfl, found, readable, directory, rfl, rfl, rfl⟩⟩

theorem processLine_requested {fs : FileSystem} {conn next : HttpConn} {code : HttpCode}
    (body : processLine fs conn = (.done code, next)) : Requested fs conn code next := by
  unfold processLine at body
  dsimp only at body
  split at body
  · split_ifs at body <;> cases body
    exact requested_of_outer (by decide) (parseRequestLine_outer _ _)
  · split_ifs at body <;> cases body
    · exact requested_of_outer (by decide) (paresHeaders_outer _ _)
    · exact (doRequest_requested fs _).congr (paresHeaders_outer _ _)
  · split_ifs at body <;> cases body
    exact (doRequest_requested fs _).congr (paresContent_outer _ _)

theorem processLine_outer {fs : FileSystem} {conn next : HttpConn} {status : LineStatus}
    (body : processLine fs conn = (.loop status, next)) : next.outer = conn.outer := by
  unfold processLine at body
  dsimp only at body
  split at body
  · split_ifs at body <;> cases body
    exact parseRequestLine_outer _ _
  · split_ifs at body <;> cases body
    exact paresHeaders_outer _ _
  · split_ifs at body <;> cases body
    exact paresContent_outer _ _

theorem processReadLoop_requested (fs : FileSystem) (conn : HttpConn) (status : LineStatus) :
    Requested fs conn (processReadLoop fs conn status).1 (processReadLoop fs conn status).2 := by
  fun_induction processReadLoop fs conn status with
  | case1 conn status ready condition code next body =>
    have scanned := loopCondition_outer conn status
    rw [condition] at scanned
    exact (processLine_requested body).congr scanned
  | case2 conn status ready condition after next body ih =>
    have scanned := loopCondition_outer conn status
    rw [condition] at scanned
    exact ih.congr ((processLine_outer body).trans scanned)
  | case3 conn status found next other condition =>
    have scanned := loopCondition_outer conn status
    rw [condition] at scanned
    exact requested_of_outer (by simp) scanned

theorem doRequest_realFile (first second : FileSystem) (conn : HttpConn) :
    (doRequest first conn).2.realFile = (doRequest second conn).2.realFile := by
  unfold doRequest
  dsimp only
  repeat' split
  all_goals rfl

/-- The file system decides about the result of a request, not about which file is
asked for. -/
theorem processLine_realFile (first second : FileSystem) {conn next : HttpConn} {result : SwitchResult}
    (body : processLine first conn = (result, next)) :
    processLine second conn = (result, next) ∨
      ∃ code other, processLine second conn = (.done code, other) ∧ other.realFile = next.realFile ∧
        ∃ code, result = .done code := by
  unfold processLine at body ⊢
  dsimp only at body ⊢
  split at body
  · exact .inl body
  · split_ifs at body ⊢ with rejected complete
    · exact .inl body
    · cases body
      exact .inr ⟨_, _, rfl, doRequest_realFile second first _, _, rfl⟩
    · exact .inl body
  · split_ifs at body ⊢ with complete
    · cases body
      exact .inr ⟨_, _, rfl, doRequest_realFile second first _, _, rfl⟩
    · exact .inl body

theorem processReadLoop_realFile (first second : FileSystem) (conn : HttpConn) (status : LineStatus) :
    (processReadLoop first conn status).2.realFile = (processReadLoop second conn status).2.realFile := by
  fun_induction processReadLoop first conn status with
  | case1 conn status ready condition code next body =>
    rcases processLine_realFile first second body with same | ⟨other, found, same, realFile, -⟩
    · rw [processReadLoop_return condition same]
    · rw [processReadLoop_return condition same, realFile]
  | case2 conn status ready condition after next body ih =>
    rcases processLine_realFile first second body with same | ⟨_, _, _, _, _, impossible⟩
    · rw [processReadLoop_continue condition same, ih]
    · cases impossible
  | case3 conn status found next other condition =>
    rw [processReadLoop_stop condition (by simpa using other)]

/-- The file the buffered request asks for, if it is complete. -/
def requestedFile (conn : HttpConn) : List UInt8 := (processRead ⟨fun _ => none, fun _ => none⟩ conn).2.realFile

end HttpConn

end UnixProgramming.Pool

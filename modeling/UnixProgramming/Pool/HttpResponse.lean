import UnixProgramming.Pool.HttpConn

/-! The response side of `http_conn`: filling the write buffer, sending it, and the
entry point `process` the worker threads call. Of `m_write_buf` the model keeps the
bytes below `m_write_idx`. -/

namespace UnixProgramming.Pool.HttpConn

open UnixProgramming.Lib

def ok200Title : List UInt8 := bytes "OK"

def error400Title : List UInt8 := bytes "Bad Request"

def error400Form : List UInt8 := bytes "Your request has bad syntax or is inherently impossible to satisfy.\n"

def error403Title : List UInt8 := bytes "Forbidden"

def error403Form : List UInt8 := bytes "You do not have permission to get file from this server.\n"

def error404Title : List UInt8 := bytes "Not Found"

def error404Form : List UInt8 := bytes "The requested file was not found on this server.\n"

def error500Title : List UInt8 := bytes "Internal Error"

def error500Form : List UInt8 := bytes "There was an unusual problem serving the requested file.\n"

/-- `%d`. -/
def decimal (value : Int) : List UInt8 :=
  (if value < 0 then [45] else []) ++
    (Nat.toDigits 10 value.natAbs).map fun digit => UInt8.ofNat digit.toNat

theorem toDigits_range {value : Nat} {digit : Char} (member : digit ∈ Nat.toDigits 10 value) :
    48 ≤ digit.toNat ∧ digit.toNat ≤ 57 := by
  have range := Nat.isDigit_of_mem_toDigits (by decide) (by decide) member
  simp only [Char.isDigit, Bool.and_eq_true, decide_eq_true_eq] at range
  exact range

/-- `add_response` with the text its format gives: `vsnprintf` is given one byte
less than the room that is left, and a text it would cut is not counted in. -/
def addResponse (conn : HttpConn) (text : List UInt8) : Bool × HttpConn :=
  if writeBufferSize ≤ conn.writeBuf.length then (false, conn)
  else if writeBufferSize - 1 - conn.writeBuf.length ≤ text.length then (false, conn)
  else (true, { conn with writeBuf := conn.writeBuf ++ text })

def addStatusLine (conn : HttpConn) (status : Nat) (title : List UInt8) : Bool × HttpConn :=
  conn.addResponse (bytes "HTTP/1.1 " ++ decimal status ++ bytes " " ++ title ++ bytes "\r\n")

def addContentLength (conn : HttpConn) (contentLength : Int) : Bool × HttpConn :=
  conn.addResponse (bytes "Content-Length: " ++ decimal contentLength ++ bytes "\r\n")

def addLinger (conn : HttpConn) : Bool × HttpConn :=
  conn.addResponse (bytes "Connection: " ++ (if conn.linger then bytes "keep-alive" else bytes "close") ++ bytes "\r\n")

def addBlankLine (conn : HttpConn) : Bool × HttpConn := conn.addResponse (bytes "\r\n")

def addContent (conn : HttpConn) (content : List UInt8) : Bool × HttpConn := conn.addResponse content

/-- `add_headers`, whose parameter is an `int`; the results of its three parts are
dropped. -/
def addHeaders (conn : HttpConn) (contentLength : Nat) : HttpConn :=
  ((conn.addContentLength (toInt32 contentLength)).2.addLinger.2).addBlankLine.2

/-- The four error cases of `process_write`. -/
def errorResponse (conn : HttpConn) (status : Nat) (title form : List UInt8) : Bool × HttpConn :=
  let conn := (conn.addStatusLine status title).2
  let conn := conn.addHeaders form.length
  let (added, conn) := conn.addContent form
  if added then (true, { conn with iv := [.writeBuf conn.writeBuf.length] }) else (false, conn)

/-- The `FILE_REQUEST` case. For an empty file the page `ok_string` is built, but
control falls through to the default case. -/
def fileResponse (conn : HttpConn) : Bool × HttpConn :=
  let conn := (conn.addStatusLine 200 ok200Title).2
  if conn.fileStat.size ≠ 0 then
    let conn := conn.addHeaders conn.fileStat.size
    (true, { conn with iv := [.writeBuf conn.writeBuf.length, .file conn.fileAddress conn.fileStat.size] })
  else
    let okString := bytes "<html><body></body></html>"
    let conn := conn.addHeaders okString.length
    (false, (conn.addContent okString).2)

def processWrite (conn : HttpConn) : HttpCode → Bool × HttpConn
  | .internalError => conn.errorResponse 500 error500Title error500Form
  | .badRequest => conn.errorResponse 400 error400Title error400Form
  | .noResource => conn.errorResponse 404 error404Title error404Form
  | .forbiddenRequest => conn.errorResponse 403 error403Title error403Form
  | .fileRequest => conn.fileResponse
  | _ => (false, conn)

/-- Filling in a response touches the write buffer and the iovecs only. -/
def Builds (before after : HttpConn) : Prop :=
  ∃ buf iv, after = { before with writeBuf := buf, iv := iv }

theorem Builds.refl (conn : HttpConn) : Builds conn conn := ⟨conn.writeBuf, conn.iv, rfl⟩

theorem Builds.trans {first second third : HttpConn} (left : Builds first second)
    (right : Builds second third) : Builds first third := by
  obtain ⟨_, _, rfl⟩ := left
  obtain ⟨buf, iv, rfl⟩ := right
  exact ⟨buf, iv, rfl⟩

theorem addResponse_builds (conn : HttpConn) (text : List UInt8) : Builds conn (conn.addResponse text).2 := by
  unfold addResponse
  split_ifs
  · exact .refl conn
  · exact .refl conn
  · exact ⟨conn.writeBuf ++ text, conn.iv, rfl⟩

theorem addStatusLine_builds (conn : HttpConn) (status : Nat) (title : List UInt8) :
    Builds conn (conn.addStatusLine status title).2 := by
  unfold addStatusLine
  exact addResponse_builds conn _

theorem addContent_builds (conn : HttpConn) (content : List UInt8) : Builds conn (conn.addContent content).2 := by
  unfold addContent
  exact addResponse_builds conn content

theorem addHeaders_builds (conn : HttpConn) (length : Nat) : Builds conn (conn.addHeaders length) := by
  unfold addHeaders addContentLength addLinger addBlankLine
  exact ((addResponse_builds conn _).trans (addResponse_builds _ _)).trans (addResponse_builds _ _)

theorem errorResponse_builds (conn : HttpConn) (status : Nat) (title form : List UInt8) :
    Builds conn (conn.errorResponse status title form).2 := by
  have built := ((addStatusLine_builds conn status title).trans (addHeaders_builds _ form.length)).trans
    (addContent_builds _ form)
  unfold errorResponse
  dsimp only
  generalize ((conn.addStatusLine status title).2.addHeaders form.length).addContent form = result at built ⊢
  obtain ⟨added, full⟩ := result
  cases added with
  | false => exact built
  | true => exact built.trans ⟨full.writeBuf, _, rfl⟩

theorem fileResponse_builds (conn : HttpConn) : Builds conn conn.fileResponse.2 := by
  have status := addStatusLine_builds conn 200 ok200Title
  unfold fileResponse
  dsimp only
  generalize (conn.addStatusLine 200 ok200Title).2 = started at status ⊢
  split_ifs
  · have headed := status.trans (addHeaders_builds started started.fileStat.size)
    generalize started.addHeaders started.fileStat.size = full at headed ⊢
    exact headed.trans ⟨full.writeBuf, _, rfl⟩
  · exact (status.trans (addHeaders_builds _ _)).trans (addContent_builds _ _)

theorem processWrite_builds (conn : HttpConn) (code : HttpCode) : Builds conn (conn.processWrite code).2 := by
  unfold processWrite
  split
  · exact errorResponse_builds conn _ _ _
  · exact errorResponse_builds conn _ _ _
  · exact errorResponse_builds conn _ _ _
  · exact errorResponse_builds conn _ _ _
  · exact fileResponse_builds conn
  · exact .refl conn

def unmap (conn : HttpConn) : HttpConn :=
  if conn.fileAddress = .null then conn
  else { conn with
    mapCalls := conn.mapCalls ++ [.munmap conn.fileAddress conn.fileStat.size]
    fileAddress := .null }

/-- The events `modfd` arms a descriptor for, besides hang-up. -/
inductive Interest where
  | epollin
  | epollout
deriving DecidableEq, Repr

/-- What one `writev` returns: the number of bytes the socket took (one call takes
less than `2^31` of them), or -1 with `errno` set to `EAGAIN` or to anything else. -/
inductive Writev where
  | accepted (count : Nat)
  | again
  | error
deriving DecidableEq, Repr

/-- The bytes the iovecs describe, given the contents of the mapped memory. -/
def gather (memory : Address → List UInt8) (conn : HttpConn) : List UInt8 :=
  (conn.iv.map fun
    | .writeBuf length => conn.writeBuf.take length
    | .file address length => (memory address).take length).flatten

/-- How a call of `write()` ends: its value, the last `modfd`, and the bytes the
socket took during the call. -/
structure WriteResult where
  value : Bool
  conn : HttpConn
  armed : Option Interest
  sent : List UInt8
deriving DecidableEq, Repr

/-- The loop of `write()` over the outcomes of its `writev` calls, which it must use
up exactly. The iovecs are never advanced, so each call starts at the first byte. -/
def writeLoop (memory : Address → List UInt8) (conn : HttpConn) (bytesToSend bytesHaveSend : Int) :
    List Writev → Option WriteResult
  | [] => none
  | .again :: rest => if rest = [] then some ⟨true, conn, some .epollout, []⟩ else none
  | .error :: rest => if rest = [] then some ⟨false, conn.unmap, none, []⟩ else none
  | .accepted count :: rest =>
    let taken := (conn.gather memory).take count
    let bytesToSend := bytesToSend - count
    let bytesHaveSend := bytesHaveSend + count
    if bytesToSend ≤ bytesHaveSend then
      if rest = [] then
        let conn := conn.unmap
        if conn.linger then some ⟨true, conn.init, some .epollin, taken⟩
        else some ⟨false, conn, some .epollin, taken⟩
      else none
    else (writeLoop memory conn bytesToSend bytesHaveSend rest).map fun result =>
      { result with sent := taken ++ result.sent }

def write (memory : Address → List UInt8) (conn : HttpConn) (outcomes : List Writev) : Option WriteResult :=
  if conn.writeBuf.length = 0 then
    if outcomes = [] then some ⟨true, conn.init, some .epollin, []⟩ else none
  else writeLoop memory conn conn.writeBuf.length 0 outcomes

/-- `close_conn`; taking the descriptor out of epoll and closing it is up to the
server's model. -/
def closeConn (conn : HttpConn) : HttpConn := { conn with sockfd := none }

/-- How `process` leaves the connection, and the `modfd` that has an effect: after
`close_conn` the descriptor is -1. -/
structure ProcessResult where
  conn : HttpConn
  armed : Option Interest
deriving DecidableEq, Repr

def process (fs : FileSystem) (conn : HttpConn) : ProcessResult :=
  let (readRet, conn) := processRead fs conn
  if readRet = .noRequest then ⟨conn, some .epollin⟩
  else
    let (writeRet, conn) := conn.processWrite readRet
    if writeRet then ⟨conn, some .epollout⟩ else ⟨conn.closeConn, none⟩

end UnixProgramming.Pool.HttpConn

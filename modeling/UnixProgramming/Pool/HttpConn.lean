import UnixProgramming.Lib.CString

/-! The connection object `http_conn` of the thread-pool web server and its
request parser. Of `m_read_buf` the model keeps the bytes below `m_read_idx`; the
ones above are NUL from `init` on. Pointers into the buffer are offsets. -/

namespace UnixProgramming.Pool

open UnixProgramming.Lib

def filenameLen : Nat := 200

def readBufferSize : Nat := 2048

def writeBufferSize : Nat := 1024

inductive Method where
  | get | post | head | put | delete | trace | options | connect | patch
deriving DecidableEq, Repr

inductive CheckState where
  | requestLine
  | header
  | connect
deriving DecidableEq, Repr

inductive HttpCode where
  | noRequest | getRequest | badRequest | noResource
  | forbiddenRequest | fileRequest | internalError | closedConnection
deriving DecidableEq, Repr

inductive LineStatus where
  | ok
  | bad
  | open
deriving DecidableEq, Repr

/-- The members of `struct stat` the server looks at. -/
structure FileStat where
  size : Nat
  otherRead : Bool
  isDir : Bool
deriving DecidableEq, Repr

/-- The values of `m_file_address`. -/
inductive Address where
  | null
  | mapFailed
  | mapped (address : Nat)
deriving DecidableEq, Repr

/-- What the file system answers for a path: `stat`, and `open` with `mmap`, which
gives the address of the mapping unless it fails. -/
structure FileSystem where
  stat : List UInt8 → Option FileStat
  mmap : List UInt8 → Option Nat

/-- The calls that create and remove mappings, with the length passed, and the
start of a new connection on the object. -/
inductive MapCall where
  | mmap (result : Option Nat) (length : Nat)
  | munmap (address : Address) (length : Nat)
  | newConnection
deriving DecidableEq, Repr

/-- What the elements of `m_iv` point at. -/
inductive Iovec where
  | writeBuf (length : Nat)
  | file (address : Address) (length : Nat)
deriving DecidableEq, Repr

/-- `writeBuf` holds the bytes below `m_write_idx`, `realFile` the string in
`m_real_file`, and `iv` the first `m_iv_count` elements of `m_iv`. The peer's
address is left out; `mapCalls` records the mapping calls of the object so far. -/
structure HttpConn where
  sockfd : Option Nat
  readBuf : List UInt8
  checkedIdx : Nat
  startLine : Nat
  writeBuf : List UInt8
  checkState : CheckState
  method : Method
  realFile : List UInt8
  url : Option Nat
  version : Option Nat
  host : Option Nat
  contentLength : Int
  linger : Bool
  fileAddress : Address
  fileStat : FileStat
  iv : List Iovec
  mapCalls : List MapCall
deriving DecidableEq, Repr

namespace HttpConn

def readIdx (conn : HttpConn) : Nat := conn.readBuf.length

/-- The private `init()`; the mapping and the iovecs are not touched. -/
def init (conn : HttpConn) : HttpConn :=
  { conn with
    checkState := .requestLine
    linger := false
    method := .get
    url := none
    version := none
    contentLength := 0
    host := none
    startLine := 0
    checkedIdx := 0
    readBuf := []
    writeBuf := []
    realFile := [] }

/-- The public `init(sockfd, addr)`; registering the descriptor with epoll is up to
the server's model. -/
def initConn (conn : HttpConn) (sockfd : Nat) : HttpConn :=
  init { conn with sockfd := some sockfd, mapCalls := conn.mapCalls ++ [.newConnection] }

/-- An object in zeroed memory, whose `init()` has not run yet. -/
def zeroed : HttpConn where
  sockfd := some 0
  readBuf := []
  checkedIdx := 0
  startLine := 0
  writeBuf := []
  checkState := .requestLine
  method := .get
  realFile := []
  url := none
  version := none
  host := none
  contentLength := 0
  linger := false
  fileAddress := .null
  fileStat := ⟨0, false, false⟩
  iv := []
  mapCalls := []

/-- The loop of `parse_line` over the unchecked bytes, which are counted by its
first argument: the line status, the buffer and `m_checked_idx`. -/
def parseLineLoop : Nat → List UInt8 → Nat → LineStatus × List UInt8 × Nat
  | 0, buf, checked => (.open, buf, checked)
  | unchecked + 1, buf, checked =>
    let temp := buf.getD checked 0
    if temp = 13 then
      if checked + 1 = buf.length then (.open, buf, checked)
      else if buf.getD (checked + 1) 0 = 10 then
        (.ok, (buf.set checked 0).set (checked + 1) 0, checked + 2)
      else (.bad, buf, checked)
    else if temp = 10 then
      if 1 < checked ∧ buf.getD (checked - 1) 0 = 13 then
        (.ok, (buf.set (checked - 1) 0).set checked 0, checked + 1)
      else (.bad, buf, checked)
    else parseLineLoop unchecked buf (checked + 1)

def parseLine (conn : HttpConn) : LineStatus × HttpConn :=
  let (status, buf, checked) :=
    parseLineLoop (conn.readIdx - conn.checkedIdx) conn.readBuf conn.checkedIdx
  (status, { conn with readBuf := buf, checkedIdx := checked })

/-- What one `recv` returns: some bytes (none at the end of the stream), or -1
with `errno` set to `EAGAIN` or to anything else. -/
inductive Recv where
  | data (received : List UInt8)
  | again
  | error
deriving DecidableEq, Repr

/-- The loop of `read`. A `recv` hands over at most the bytes it is asked for; when
no more outcomes are given the socket is empty. -/
def readLoop (conn : HttpConn) : List Recv → Bool × HttpConn
  | [] => (true, conn)
  | .again :: _ => (true, conn)
  | .error :: _ => (false, conn)
  | .data received :: rest =>
    let received := received.take (readBufferSize - conn.readIdx)
    if received = [] then (false, conn)
    else readLoop { conn with readBuf := conn.readBuf ++ received } rest

def read (conn : HttpConn) (outcomes : List Recv) : Bool × HttpConn :=
  if readBufferSize ≤ conn.readIdx then (false, conn) else readLoop conn outcomes

/-- The value of `m_url` once a leading `http://` and the host are skipped. -/
def requestTarget (buf : List UInt8) (url : Nat) : Option Nat :=
  if caseEqualUpTo 7 (str buf url) (bytes "http://") then
    (strchr (str buf (url + 7)) 47).map (url + 7 + ·)
  else some url

/-- `parse_request_line` from the version on, when `m_version` has been set. -/
def parseVersion (conn : HttpConn) (url version : Nat) : HttpCode × HttpConn :=
  if caseEqual (str conn.readBuf version) (bytes "HTTP/1.1") then
    let target := requestTarget conn.readBuf url
    let conn := { conn with url := target }
    match target with
    | none => (.badRequest, conn)
    | some target =>
      if conn.readBuf.getD target 0 = 47 then (.noRequest, { conn with checkState := .header })
      else (.badRequest, conn)
  else (.badRequest, conn)

/-- `parse_request_line` from the URL on, when the method has been recognised. -/
def parseUrl (conn : HttpConn) (url : Nat) : HttpCode × HttpConn :=
  let url := url + blanks (str conn.readBuf url)
  let conn := { conn with url := some url }
  match firstBlank (str conn.readBuf url) with
  | none => (.badRequest, { conn with version := none })
  | some offset =>
    let conn := { conn with readBuf := conn.readBuf.set (url + offset) 0 }
    let version := url + offset + 1
    let version := version + blanks (str conn.readBuf version)
    parseVersion { conn with version := some version } url version

def parseRequestLine (conn : HttpConn) (text : Nat) : HttpCode × HttpConn :=
  match firstBlank (str conn.readBuf text) with
  | none => (.badRequest, { conn with url := none })
  | some offset =>
    let url := text + offset + 1
    let conn := { conn with readBuf := conn.readBuf.set (text + offset) 0, url := some url }
    if caseEqual (str conn.readBuf text) (bytes "GET") then
      parseUrl { conn with method := .get } url
    else (.badRequest, conn)

def paresHeaders (conn : HttpConn) (text : Nat) : HttpCode × HttpConn :=
  let line := str conn.readBuf text
  if line = [] then
    if conn.contentLength ≠ 0 then (.noRequest, { conn with checkState := .connect })
    else (.getRequest, conn)
  else if caseEqualUpTo 11 line (bytes "Connection:") then
    let text := text + 11
    let text := text + blanks (str conn.readBuf text)
    if caseEqual (str conn.readBuf text) (bytes "keep-alive") then (.noRequest, { conn with linger := true })
    else (.noRequest, conn)
  else if caseEqualUpTo 15 line (bytes "Content-Length:") then
    let text := text + 15
    let text := text + blanks (str conn.readBuf text)
    (.noRequest, { conn with contentLength := atoi (str conn.readBuf text) })
  else if caseEqualUpTo 5 line (bytes "Host:") then
    let text := text + 5
    let text := text + blanks (str conn.readBuf text)
    (.noRequest, { conn with host := some text })
  else (.noRequest, conn)

/-- `pares_content`; a store outside the bytes in use changes nothing here. -/
def paresContent (conn : HttpConn) (text : Nat) : HttpCode × HttpConn :=
  if conn.contentLength + conn.checkedIdx ≤ conn.readIdx then
    let position := (text : Int) + conn.contentLength
    (.getRequest, { conn with readBuf := if 0 ≤ position then conn.readBuf.set position.toNat 0 else conn.readBuf })
  else (.noRequest, conn)

def docRoot : List UInt8 := bytes "."

/-- The path `do_request` builds in `m_real_file`. -/
def realPath (url : List UInt8) : List UInt8 := docRoot ++ url.take (filenameLen - docRoot.length - 1)

/-- `do_request`; it is only reached with `m_url` set. -/
def doRequest (fs : FileSystem) (conn : HttpConn) : HttpCode × HttpConn :=
  let path := realPath ((conn.url.map (str conn.readBuf)).getD [])
  let conn := { conn with realFile := path }
  match fs.stat path with
  | none => (.noResource, conn)
  | some stat =>
    let conn := { conn with fileStat := stat }
    if ¬ stat.otherRead then (.forbiddenRequest, conn)
    else if stat.isDir then (.badRequest, conn)
    else
      let result := fs.mmap path
      (.fileRequest, { conn with
        fileAddress := (result.map Address.mapped).getD .mapFailed
        mapCalls := conn.mapCalls ++ [.mmap result stat.size] })

/-- How the `switch` of `process_read` ends: with a result to return, or with the
line status the loop goes on with. -/
inductive SwitchResult where
  | done (code : HttpCode)
  | loop (status : LineStatus)
deriving DecidableEq, Repr

/-- The body of the loop of `process_read`. -/
def processLine (fs : FileSystem) (conn : HttpConn) : SwitchResult × HttpConn :=
  let text := conn.startLine
  let conn := { conn with startLine := conn.checkedIdx }
  match conn.checkState with
  | .requestLine =>
    let (ret, conn) := conn.parseRequestLine text
    if ret = .badRequest then (.done .badRequest, conn) else (.loop .ok, conn)
  | .header =>
    let (ret, conn) := conn.paresHeaders text
    if ret = .badRequest then (.done .badRequest, conn)
    else if ret = .getRequest then
      let (code, conn) := doRequest fs conn
      (.done code, conn)
    else (.loop .ok, conn)
  | .connect =>
    let (ret, conn) := conn.paresContent text
    if ret = .getRequest then
      let (code, conn) := doRequest fs conn
      (.done code, conn)
    else (.loop .open, conn)

/-- The condition of the loop of `process_read`, which calls `parse_line` unless
the parser is in the body and has just got there. -/
def loopCondition (conn : HttpConn) (status : LineStatus) : LineStatus × HttpConn :=
  if conn.checkState = .connect ∧ status = .ok then (.ok, conn) else conn.parseLine

theorem parseLineLoop_length (unchecked : Nat) (buf : List UInt8) (checked : Nat) :
    (parseLineLoop unchecked buf checked).2.1.length = buf.length := by
  fun_induction parseLineLoop unchecked buf checked <;> simp_all

theorem parseLineLoop_checked (unchecked : Nat) (buf : List UInt8) (checked : Nat)
    (bound : checked + unchecked = buf.length) :
    checked ≤ (parseLineLoop unchecked buf checked).2.2 ∧
      (parseLineLoop unchecked buf checked).2.2 ≤ buf.length ∧
      ((parseLineLoop unchecked buf checked).1 = .ok → checked < (parseLineLoop unchecked buf checked).2.2) := by
  fun_induction parseLineLoop unchecked buf checked <;> grind

/-- The indices the parsers of single lines leave alone. -/
def indices (conn : HttpConn) : Nat × Nat × Nat := (conn.readIdx, conn.checkedIdx, conn.startLine)

theorem parseVersion_indices (conn : HttpConn) (url version : Nat) :
    (parseVersion conn url version).2.indices = conn.indices := by
  unfold parseVersion
  dsimp only
  split
  · split <;> try split
    all_goals rfl
  · rfl

theorem parseUrl_indices (conn : HttpConn) (url : Nat) : (parseUrl conn url).2.indices = conn.indices := by
  unfold parseUrl
  dsimp only
  split
  · rfl
  · rw [parseVersion_indices]
    simp [indices, readIdx]

theorem parseRequestLine_indices (conn : HttpConn) (text : Nat) :
    (parseRequestLine conn text).2.indices = conn.indices := by
  unfold parseRequestLine
  dsimp only
  split
  · rfl
  · split
    · rw [parseUrl_indices]
      simp [indices, readIdx]
    · simp [indices, readIdx]

theorem paresHeaders_indices (conn : HttpConn) (text : Nat) :
    (paresHeaders conn text).2.indices = conn.indices := by
  unfold paresHeaders
  dsimp only
  repeat' split
  all_goals rfl

theorem paresContent_indices (conn : HttpConn) (text : Nat) :
    (paresContent conn text).2.indices = conn.indices := by
  unfold paresContent
  dsimp only
  repeat' split
  all_goals simp [indices, readIdx]

theorem doRequest_indices (fs : FileSystem) (conn : HttpConn) :
    (doRequest fs conn).2.indices = conn.indices := by
  unfold doRequest
  dsimp only
  repeat' split
  all_goals rfl

/-- The loop body moves `m_start_line` up to `m_checked_idx` and no other index. -/
theorem processLine_indices (fs : FileSystem) (conn : HttpConn) :
    (processLine fs conn).2.indices = (conn.readIdx, conn.checkedIdx, conn.checkedIdx) := by
  unfold processLine
  dsimp only
  repeat' split
  all_goals simp [doRequest_indices, parseRequestLine_indices, paresHeaders_indices, paresContent_indices]
  all_goals rfl

/-- Only the body goes on with a line status other than `LINE_OK`. -/
theorem processLine_continue {fs : FileSystem} {conn next : HttpConn} {status : LineStatus}
    (body : processLine fs conn = (.loop status, next)) (inBody : conn.checkState = .connect) :
    status = .open := by
  unfold processLine at body
  simp only [inBody] at body
  split at body <;> simp_all

theorem parseLine_ok {conn next : HttpConn} (found : conn.parseLine = (.ok, next)) :
    conn.checkedIdx < next.checkedIdx ∧ next.checkedIdx ≤ next.readIdx ∧ next.readIdx = conn.readIdx := by
  unfold parseLine at found
  simp only [Prod.mk.injEq] at found
  obtain ⟨status, rfl⟩ := found
  have inside : conn.checkedIdx ≤ conn.readIdx := by
    by_contra outside
    rw [Nat.sub_eq_zero_of_le (Nat.le_of_not_le outside)] at status
    cases status
  have length := parseLineLoop_length (conn.readIdx - conn.checkedIdx) conn.readBuf conn.checkedIdx
  have checked := parseLineLoop_checked (conn.readIdx - conn.checkedIdx) conn.readBuf conn.checkedIdx
    (Nat.add_sub_cancel' inside)
  simp only [readIdx] at *
  rw [length]
  exact ⟨checked.2.2 status, checked.2.1, rfl⟩

/-- What the loop of `process_read` uses up: two for each unchecked byte, and one
for the iteration that may run in the body without `parse_line`. -/
def loopMeasure (conn : HttpConn) (status : LineStatus) : Nat :=
  2 * (conn.readIdx - conn.checkedIdx) + if conn.checkState = .connect ∧ status = .ok then 1 else 0

theorem loopMeasure_lt {fs : FileSystem} {conn ready next : HttpConn} {status after : LineStatus}
    (condition : conn.loopCondition status = (.ok, ready))
    (body : processLine fs ready = (.loop after, next)) :
    next.loopMeasure after < conn.loopMeasure status := by
  have kept := processLine_indices fs ready
  rw [body] at kept
  simp only [indices, Prod.mk.injEq] at kept
  unfold loopMeasure
  unfold loopCondition at condition
  split at condition
  · rename_i direct
    cases condition
    have opened := processLine_continue body direct.1
    simp [direct, opened, kept.1, kept.2.1]
  · have progress := parseLine_ok condition
    rw [kept.1, kept.2.1, progress.2.2]
    split_ifs <;> omega

/-- The loop of `process_read`. -/
def processReadLoop (fs : FileSystem) (conn : HttpConn) (status : LineStatus) : HttpCode × HttpConn :=
  match condition : conn.loopCondition status with
  | (.ok, ready) =>
    match body : processLine fs ready with
    | (.done code, next) => (code, next)
    | (.loop after, next) => processReadLoop fs next after
  | (_, next) => (.noRequest, next)
termination_by conn.loopMeasure status
decreasing_by exact loopMeasure_lt condition body

def processRead (fs : FileSystem) (conn : HttpConn) : HttpCode × HttpConn :=
  processReadLoop fs conn .ok

end HttpConn

end UnixProgramming.Pool

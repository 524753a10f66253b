import Mathlib.Data.List.Infix
import UnixProgramming.Csapp.EchoPool
import UnixProgramming.Pool.HttpResponse

/-! The tiny web server: one request line, the headers that are skipped, and a response. A
response is the list of the calls that send it, as none of them looks at what an earlier one
returned. What is printed to the terminal is left out. -/

namespace UnixProgramming.Csapp

open UnixProgramming.Lib
open UnixProgramming.Pool.HttpConn (decimal)

/-! ## Reading the request -/

/-- What a line leaves in the memory at `buf`. -/
def Rio.Delivery.into (delivery : Rio.Delivery) (memory : List UInt8) : List UInt8 :=
  if delivery.terminated then delivery.data ++ 0 :: memory.drop (delivery.data.length + 1)
  else delivery.data ++ memory.drop delivery.data.length

theorem Descriptor.read_length {fd next : Descriptor} {size : Nat} {got : List UInt8}
    (taken : fd.read size = some (.ok got, next)) : got.length ≤ size := by
  unfold Descriptor.read at taken
  split at taken
  · cases taken
  · cases taken
  · cases taken
    exact (List.length_take_le _ _).trans (Nat.min_le_right _ _)

namespace Rio

/-- What is left to read with: the outcomes of the descriptor, each good for a full buffer, and
the bytes in the buffer. -/
def pending (rp : Rio) : Nat := rp.fd.schedule.length * (rioBufsize + 1) + rp.cnt.toNat

theorem read_pending {rp filled : Rio} {result : Except Errno (List UInt8)} {fd : Descriptor}
    (taken : rp.fd.read rioBufsize = some (result, fd)) (same : filled.fd = fd) (small : filled.cnt ≤ rioBufsize) :
    filled.pending < rp.pending := by
  have shorter : filled.fd.schedule.length + 1 ≤ rp.fd.schedule.length := same ▸ Descriptor.read_shorter taken
  have room := Nat.mul_le_mul_right (rioBufsize + 1) shorter
  unfold pending
  rw [Nat.add_one_mul] at room
  omega

theorem refill_pending (rp : Rio) :
    rp.refill = (.ready, rp) ∧ 0 < rp.cnt ∨ rp.refill.1 = .blocked ∨
      rp.refill.2.pending < rp.pending ∧ (rp.refill.1 = .ready → 0 < rp.refill.2.cnt) := by
  fun_induction refill rp with
  | case1 rp positive => exact .inl ⟨rfl, positive⟩
  | case2 => exact .inr (.inl rfl)
  | case3 rp _ errno fd taken fails =>
    exact .inr (.inr ⟨read_pending taken rfl (show (-1 : Int) ≤ rioBufsize by decide), nofun⟩)
  | case4 rp _ errno fd taken _ ih =>
    have fewer : ({ rp with fd := fd, cnt := -1 } : Rio).pending < rp.pending :=
      read_pending taken rfl (show (-1 : Int) ≤ rioBufsize by decide)
    rcases ih with ⟨same, impossible⟩ | blocked | ⟨later, positive⟩
    · cases impossible
    · exact .inr (.inl blocked)
    · exact .inr (.inr ⟨later.trans fewer, positive⟩)
  | case5 rp _ got fd taken filled ended =>
    exact .inr (.inr ⟨read_pending taken rfl (Int.ofNat_le.mpr (Descriptor.read_length taken)), nofun⟩)
  | case6 rp _ got fd taken filled more ih =>
    have fewer : ({ filled with bufptr := 0 } : Rio).pending < rp.pending :=
      read_pending taken rfl (Int.ofNat_le.mpr (Descriptor.read_length taken))
    rcases ih with ⟨same, positive⟩ | blocked | ⟨later, positive⟩
    · rw [same]
      exact .inr (.inr ⟨fewer, fun _ => positive⟩)
    · exact .inr (.inl blocked)
    · exact .inr (.inr ⟨later.trans fewer, positive⟩)

/-- The count that `rio_read` takes out of a buffer that is not empty. -/
theorem copy_pending {rp : Rio} (positive : 0 < rp.cnt) {cnt : Int}
    (taken : cnt = if rp.cnt % 2 ^ 64 < ((1 : Nat) : Int) then rp.cnt else toInt32 (1 : Nat)) :
    pending { rp with bufptr := (rp.bufptr + cnt).toNat, cnt := rp.cnt - cnt } < rp.pending := by
  have one : toInt32 (1 : Nat) = 1 := by decide
  unfold pending
  dsimp only
  rw [one] at taken
  split_ifs at taken <;> omega

theorem rioRead_pending {rp next : Rio} {value : Int} {copied : List UInt8}
    (read : rp.rioRead 1 = (some value, copied, next)) : next.pending < rp.pending := by
  unfold rioRead at read
  rcases refill_pending rp with ⟨same, positive⟩ | blocked | ⟨fewer, positive⟩
  · rw [same] at read
    cases read
    exact copy_pending positive rfl
  · split at read
    · cases read
    · next same =>
      rw [same] at blocked
      cases blocked
    · next same =>
      rw [same] at blocked
      cases blocked
  · split at read
    · cases read
    · next same =>
      rw [same] at fewer
      cases read
      exact fewer
    · next filled same =>
      rw [same] at fewer positive
      cases read
      exact (copy_pending (positive rfl) rfl).trans fewer

theorem readline_pending (maxlen n : Nat) (stored : List UInt8) (rp : Rio)
    (returned : (readline maxlen n stored rp).1.value ≠ none) :
    (readline maxlen n stored rp).2 = rp ∧ ¬ n < maxlen ∨ (readline maxlen n stored rp).2.pending < rp.pending := by
  fun_induction readline maxlen n stored rp with
  | case1 => exact (returned rfl).elim
  | case2 n stored rp _ next read => exact .inr (rioRead_pending read)
  | case3 n stored rp _ c next _ read ih =>
    have here := rioRead_pending read
    rcases ih returned with ⟨same, -⟩ | there
    · rw [same]
      exact .inr here
    · exact .inr (there.trans here)
  | case4 => exact .inr (rioRead_pending (by assumption))
  | case5 => exact .inr (rioRead_pending (by assumption))
  | case6 => exact .inr (rioRead_pending (by assumption))
  | case7 n stored rp full => exact .inl ⟨rfl, full⟩

/-- A call of `rio_readlineb` with room for a byte gets on. -/
theorem rioReadlineb_pending {rp next : Rio} {delivery : Delivery} {value : Int}
    (read : rp.rioReadlineb maxline = (delivery, next)) (returned : delivery.value = some value) :
    next.pending < rp.pending := by
  unfold rioReadlineb at read
  have fewer := readline_pending maxline 1 [] rp (by rw [read, returned]; exact nofun)
  rw [read] at fewer
  rcases fewer with ⟨-, full⟩ | fewer
  · exact (full (by decide)).elim
  · exact fewer

/-- The loop of `read_requesthdrs`, which does not look at what `rio_readlineb` returns; none
while it has not returned. -/
def skipHeaders (rp : Rio) (buf : List UInt8) : Option Rio :=
  if str buf 0 = bytes "\r\n" then some rp
  else
    match read : rp.rioReadlineb maxline with
    | (delivery, next) =>
      match returned : delivery.value with
      | none => none
      | some _ => skipHeaders next (delivery.into buf)
termination_by rp.pending
decreasing_by exact rioReadlineb_pending read returned

/-- `read_requesthdrs`; `buf` is the memory at its array. -/
def readRequesthdrs (rp : Rio) (buf : List UInt8) : Option Rio :=
  match rp.rioReadlineb maxline with
  | (delivery, next) => delivery.value.bind fun _ => skipHeaders next (delivery.into buf)

end Rio

/-- `strcpy` to the start of an array. -/
def strcpy (memory text : List UInt8) : List UInt8 := text ++ 0 :: memory.drop (text.length + 1)

/-- `strstr(text, word) != NULL`. -/
def strstr (text word : List UInt8) : Bool := text.tails.any word.isPrefixOf

/-- `%s`: the bytes between white space, and what is behind them. -/
def scanWord (text : List UInt8) : Option (List UInt8 × List UInt8) :=
  let text := text.dropWhile isSpace
  if text = [] then none else some (text.takeWhile (! isSpace ·), text.dropWhile (! isSpace ·))

/-- The memory at the arrays of `doit` that `sscanf` writes to. -/
structure Request where
  method : List UInt8
  uri : List UInt8
  version : List UInt8
  deriving DecidableEq, Repr

namespace Request

/-- `sscanf(buf, "%s %s %s", method, uri, version)`; an array without a word for it stays as it is. -/
def sscanf (request : Request) (text : List UInt8) : Request :=
  match scanWord text with
  | none => request
  | some (method, text) =>
    let request := { request with method := strcpy request.method method }
    match scanWord text with
    | none => request
    | some (uri, text) =>
      let request := { request with uri := strcpy request.uri uri }
      match scanWord text with
      | none => request
      | some (version, _) => { request with version := strcpy request.version version }

end Request

/-- What the arrays on the stack happen to hold before they are written: the memory from their
starts on. -/
structure Stack where
  rio : Rio
  buf : List UInt8
  request : Request
  /-- The byte in front of `uri`. -/
  beforeUri : UInt8
  /-- `buf` of `read_requesthdrs`. -/
  headerBuf : List UInt8
  filetype : List UInt8
  deriving DecidableEq, Repr

/-- Memory that is all NUL. -/
def Stack.zeroed : Stack where
  rio := ⟨⟨[], [], []⟩, 0, 0, []⟩
  buf := []
  request := ⟨[], [], []⟩
  beforeUri := 0
  headerBuf := []
  filetype := []

/-- What `parse_uri` returns and stores. -/
structure Target where
  isStatic : Bool
  filename : List UInt8
  cgiargs : List UInt8
  deriving DecidableEq, Repr

/-- `parse_uri`. The last byte of an empty string is the one in front of it. -/
def parseUri (uri : List UInt8) (beforeUri : UInt8) : Target :=
  if ¬ strstr uri (bytes "cgi-bin") then
    let filename := bytes "." ++ uri
    { isStatic := true
      cgiargs := []
      filename := if uri.getLastD beforeUri = 47 then filename ++ bytes "home.html" else filename }
  else
    match strchr uri 63 with
    | some offset => { isStatic := false, cgiargs := uri.drop (offset + 1), filename := bytes "." ++ uri.take offset }
    | none => { isStatic := false, cgiargs := [], filename := bytes "." ++ uri }

/-! ## The responses -/

/-- The members of `struct stat` that are looked at. -/
structure FileStat where
  isReg : Bool
  ownerRead : Bool
  ownerExecute : Bool
  size : Int
  deriving DecidableEq, Repr

/-- The files and programs of the machine. -/
structure Host where
  stat : List UInt8 → Option FileStat
  /-- The memory that `open` and an `mmap` of this length give, unless they fail. -/
  mmap : List UInt8 → Int → Option (Nat → UInt8)
  /-- What a child process for this program and query string writes to the client before it
  ends, if it ends. -/
  cgi : List UInt8 → List UInt8 → Option (List UInt8)

inductive Responder where
  | clienterror
  | serveStatic
  | serveDynamic
  deriving DecidableEq, Repr

/-- The calls that a response consists of. -/
inductive Effect where
  /-- `rio_writen` of a text. -/
  | write (responder : Responder) (text : List UInt8)
  /-- `rio_writen` of a file that has been mapped. -/
  | sendFile (filename : List UInt8) (filesize : Int)
  /-- `fork`, `execve` in the child and `wait` in the parent. -/
  | execute (filename cgiargs : List UInt8)
  deriving DecidableEq, Repr

namespace Effect

def responder : Effect → Responder
  | write responder _ => responder
  | sendFile _ _ => .serveStatic
  | execute _ _ => .serveDynamic

/-- A text of the server that begins a response. -/
def isStatusLine : Effect → Bool
  | write _ text => (bytes "HTTP/1.0 ").isPrefixOf text
  | _ => false

/-- The call; none while it has not returned. A write from the address of a failed `mmap` fails. -/
def perform (host : Host) (errno : Errno) (sink : Sink) : Effect → Option (Errno × Sink)
  | write _ text =>
    let writing := rioWriten (fun offset => text.getD offset 0) text.length errno sink
    writing.value.map fun _ => (writing.errno, writing.sink)
  | sendFile filename filesize =>
    match host.mmap filename filesize with
    | none => some (.other, sink)
    | some memory =>
      let writing := rioWriten memory (filesize % 2 ^ 64).toNat errno sink
      writing.value.map fun _ => (writing.errno, writing.sink)
  | execute filename cgiargs =>
    (host.cgi filename cgiargs).map fun output => (errno, { sink with written := sink.written ++ output })

/-- Several calls, one after another. -/
def performAll (host : Host) : List Effect → Errno → Sink → Option (Errno × Sink)
  | [], errno, sink => some (errno, sink)
  | effect :: rest, errno, sink =>
    (effect.perform host errno sink).bind fun (errno, sink) => performAll host rest errno sink

end Effect

/-- `clienterror`. A `sprintf` to `body` that begins with `body` itself appends to it. -/
def clienterror (cause errnum shortmsg longmsg : List UInt8) : List Effect :=
  let body := bytes "<html><title>Tiny Error</title>" ++ bytes "<body bgcolor=ffffff>\r\n" ++
    (errnum ++ bytes ": " ++ shortmsg ++ bytes "\r\n") ++
    (bytes "<p>" ++ longmsg ++ bytes ": " ++ cause ++ bytes "\r\n") ++
    bytes "<hr><em>The Tiny Web server</em>\r\n"
  [.write .clienterror (bytes "HTTP/1.0 " ++ errnum ++ bytes " " ++ shortmsg ++ bytes "\r\n"),
    .write .clienterror (bytes "Content-type: text/html\r\n"),
    .write .clienterror (bytes "Content-length: " ++ decimal (toInt32 body.length) ++ bytes "\r\n\r\n"),
    .write .clienterror body]

/-- `get_filetype`; the test for `.jpg` looks into the array that is to be filled. -/
def getFiletype (filename filetype : List UInt8) : List UInt8 :=
  if strstr filename (bytes ".html") then bytes "text/html"
  else if strstr filename (bytes ".gif") then bytes "image/gif"
  else if strstr filename (bytes ".png") then bytes "image/png"
  else if strstr filetype (bytes ".jpg") then bytes "image/jpeg"
  else bytes "text/plain"

def serveStatic (filename : List UInt8) (filesize : Int) (filetype : List UInt8) : List Effect :=
  [.write .serveStatic (bytes "HTTP/1.0 200 OK\r\n" ++ bytes "Server: Tiny Web Server\r\n" ++
      bytes "Connection: close\r\n" ++ (bytes "Content-length: " ++ decimal filesize ++ bytes "\r\n") ++
      (bytes "Content-type: " ++ getFiletype filename filetype ++ bytes "\r\n\r\n")),
    .sendFile filename filesize]

def serveDynamic (filename cgiargs : List UInt8) : List Effect :=
  [.write .serveDynamic (bytes "HTTP/1.0 200 OK\r\n"),
    .write .serveDynamic (bytes "Server: Tiny Web Server\r\n"),
    .execute filename cgiargs]

/-! ## A transaction -/

/-- The part of `doit` behind the headers. The branch for static files goes on to the call of
`serve_dynamic` at the end. -/
def serve (host : Host) (stack : Stack) (uri : List UInt8) : List Effect :=
  let target := parseUri uri stack.beforeUri
  match host.stat target.filename with
  | none =>
    clienterror target.filename (bytes "404") (bytes "Not found") (bytes "Tiny couldn't find this file")
  | some sbuf =>
    if target.isStatic then
      if ¬ sbuf.isReg ∨ ¬ sbuf.ownerRead then
        clienterror target.filename (bytes "403") (bytes "Forbidden") (bytes "Tiny couldn't read the file")
      else
        serveStatic target.filename (toInt32 sbuf.size) (str stack.filetype 0) ++
          serveDynamic target.filename target.cgiargs
    else
      if ¬ sbuf.isReg ∨ ¬ sbuf.ownerExecute then
        clienterror target.filename (bytes "403") (bytes "Forbidden") (bytes "Tiny couldn't run the CGI program")
      else serveDynamic target.filename target.cgiargs

/-- The request line, as far as `sscanf` finds words in it. -/
def readRequest (stack : Stack) (fd : Descriptor) : Option (Request × Rio) :=
  match (stack.rio.rioReadinitb fd).rioReadlineb maxline with
  | (delivery, rp) =>
    delivery.value.map fun _ => (stack.request.sscanf (str (delivery.into stack.buf) 0), rp)

/-- The calls that `doit` makes once it has read what it wants to. -/
def respond (host : Host) (stack : Stack) (fd : Descriptor) : Option (List Effect) :=
  (readRequest stack fd).bind fun (request, rp) =>
    let method := str request.method 0
    if ¬ caseEqual method (bytes "GET") then
      some (clienterror method (bytes "501") (bytes "Not implemented") (bytes "Tiny does not implement this method"))
    else (rp.readRequesthdrs stack.headerBuf).map fun _ => serve host stack (str request.uri 0)

/-- What a call of `doit` has done when it returns. -/
structure Transaction where
  effects : List Effect
  errno : Errno
  sink : Sink
  deriving DecidableEq, Repr

/-- `doit`; none while it has not returned. `errno` is what it is when the response begins. -/
def doit (host : Host) (stack : Stack) (fd : Descriptor) (errno : Errno) (sink : Sink) : Option Transaction :=
  (respond host stack fd).bind fun effects =>
    (Effect.performAll host effects errno sink).map fun (errno, sink) => ⟨effects, errno, sink⟩

end UnixProgramming.Csapp

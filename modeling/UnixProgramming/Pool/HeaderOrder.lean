import Mathlib.Data.List.Induction
import UnixProgramming.Pool.BodyScan

/-! What the parser keeps of the header lines. One field is set by any of its lines and two by the
last one of theirs, so only the order of lines of one name matters. -/

namespace UnixProgramming.Pool

open UnixProgramming.Lib HttpConn

/-! ## The fields -/

/-- The names `pares_headers` knows. -/
inductive HeaderName where
  | connection
  | contentLength
  | host
deriving DecidableEq, Repr

/-- The length of a name with its colon. -/
def HeaderName.length : HeaderName → Nat
  | .connection => 11
  | .contentLength => 15
  | .host => 5

/-- The name a line is recognised under. -/
def headerName (line : List UInt8) : Option HeaderName :=
  if caseEqualUpTo 11 line (bytes "Connection:") then some .connection
  else if caseEqualUpTo 15 line (bytes "Content-Length:") then some .contentLength
  else if caseEqualUpTo 5 line (bytes "Host:") then some .host
  else none

/-- What is behind the name and the blanks. -/
def headerValue (name : HeaderName) (line : List UInt8) : List UInt8 := (line.drop name.length).dropWhile isBlank

def keepsAlive (line : List UInt8) : Bool := caseEqual (headerValue .connection line) (bytes "keep-alive")

/-- `m_linger`, `m_content_lenght` and the string `m_host` points at. -/
structure Fields where
  linger : Bool
  contentLength : Int
  host : Option (List UInt8)
deriving DecidableEq, Repr

/-- The fields after a line. -/
def Fields.note (fields : Fields) (line : List UInt8) : Fields :=
  match headerName line with
  | some .connection => { fields with linger := fields.linger || keepsAlive line }
  | some .contentLength => { fields with contentLength := atoi (headerValue .contentLength line) }
  | some .host => { fields with host := some (headerValue .host line) }
  | none => fields

def fieldsOf (headers : List (List UInt8)) : Fields := headers.foldl Fields.note ⟨false, 0, none⟩

/-- The lines of one name, in their order. -/
def named (name : HeaderName) (headers : List (List UInt8)) : List (List UInt8) :=
  headers.filter fun line => headerName line = some name

theorem named_append (name : HeaderName) (headers more : List (List UInt8)) :
    named name (headers ++ more) = named name headers ++ named name more := List.filter_append ..

/-- Each field depends on the lines of its own name: the first one on any of them, the others on
the last. -/
theorem fieldsOf_eq (headers : List (List UInt8)) :
    fieldsOf headers =
      ⟨(named .connection headers).any keepsAlive,
        ((named .contentLength headers).getLast?.map fun line => atoi (headerValue .contentLength line)).getD 0,
        (named .host headers).getLast?.map (headerValue .host)⟩ := by
  induction headers using List.reverseRecOn with
  | nil => rfl
  | append_singleton headers line ih =>
    rw [fieldsOf, List.foldl_append, List.foldl_cons, List.foldl_nil, ← fieldsOf, ih, Fields.note]
    simp only [named_append]
    cases name : headerName line with
    | none => simp [named, name]
    | some known => cases known <;> simp [named, name]

/-- The same lines, with those of each name in the same order. -/
structure Reordered (first second : List (List UInt8)) : Prop where
  perm : first.Perm second
  order : ∀ name, named name first = named name second

theorem Reordered.fields {first second : List (List UInt8)} (reordered : Reordered first second) :
    fieldsOf first = fieldsOf second := by
  simp only [fieldsOf_eq, reordered.order]

/-! ## The fields in the object -/

namespace HttpConn

/-- The string `m_host` points at. -/
def hostText (conn : HttpConn) : Option (List UInt8) := conn.host.map (str conn.readBuf)

def fields (conn : HttpConn) : Fields := ⟨conn.linger, conn.contentLength, conn.hostText⟩

/-- A header line, in terms of its text. -/
theorem paresHeaders_fields (conn : HttpConn) (text : Nat) (nonempty : str conn.readBuf text ≠ []) :
    (conn.paresHeaders text).2.fields = conn.fields.note (str conn.readBuf text) ∧
      ∀ pointer ∈ (conn.paresHeaders text).2.host, pointer ∈ conn.host ∨
        ∃ offset ≤ (str conn.readBuf text).length, pointer = text + offset := by
  unfold paresHeaders Fields.note headerName
  dsimp only
  rw [if_neg nonempty]
  split_ifs with connection keep length host
  · refine ⟨?_, fun pointer => .inl⟩
    rw [str_value connection (by decide)] at keep
    simp [fields, hostText, keepsAlive, headerValue, HeaderName.length, keep]
  · refine ⟨?_, fun pointer => .inl⟩
    rw [str_value connection (by decide)] at keep
    simp [fields, hostText, keepsAlive, headerValue, HeaderName.length, keep]
  · refine ⟨?_, fun pointer => .inl⟩
    rw [str_value length (by decide)]
    simp [fields, hostText, headerValue, HeaderName.length]
  · have value := str_value host (by decide)
    have inside := length_of_caseEqualUpTo host (by decide)
    have skipped := blanks_le (str conn.readBuf (text + 5))
    rw [str_drop inside, List.length_drop] at skipped
    refine ⟨?_, fun pointer member => .inr ⟨5 + blanks (str conn.readBuf (text + 5)), ?_, ?_⟩⟩
    · simp [fields, hostText, headerValue, HeaderName.length, value]
    · rw [str_drop inside]
      omega
    · cases member
      rw [Nat.add_assoc]
  · exact ⟨rfl, fun pointer => .inl⟩

/-- Where the parser is in the head of a request, with what it has kept of the header lines. -/
structure Noted (conn : HttpConn) (lines : List (List UInt8)) : Prop where
  state : conn.checkState = if lines = [] then .requestLine else .header
  fields : conn.fields = fieldsOf (lines.tail.map (str · 0))
  ends : ∀ pointer ∈ conn.host, Terminated (conn.readBuf.take conn.startLine) pointer

variable {conn ready next : HttpConn} {received rest line after : List UInt8} {lines : List (List UInt8)}
  {fs : FileSystem}

theorem Noted.init (conn : HttpConn) : conn.init.Noted [] where
  state := rfl
  fields := rfl
  ends := by simp [HttpConn.init]

/-- What is stored behind the lines that were read leaves the host alone. -/
theorem hostText_congr {buffer other : List UInt8} {start : Nat} {host : Option Nat}
    (ends : ∀ pointer ∈ host, Terminated (buffer.take start) pointer) (same : other.take start = buffer.take start) :
    host.map (str other) = host.map (str buffer) := by
  cases host with
  | none => rfl
  | some pointer =>
    have before := (ends pointer rfl).str_append (buffer.drop start)
    have after := (ends pointer rfl).str_append (other.drop start)
    rw [List.take_append_drop] at before
    rw [← same, List.take_append_drop, same] at after
    rw [Option.map_some, Option.map_some, before, after]

theorem Noted.congr (noted : conn.Noted lines) (state : next.checkState = conn.checkState)
    (linger : next.linger = conn.linger) (length : next.contentLength = conn.contentLength)
    (host : next.host = conn.host) (start : next.startLine = conn.startLine)
    (same : next.readBuf.take conn.startLine = conn.readBuf.take conn.startLine) : next.Noted lines where
  state := state.trans noted.state
  fields := by
    have text := hostText_congr noted.ends same
    rw [← noted.fields, HttpConn.fields, HttpConn.fields, hostText, hostText, linger, length, host, text]
  ends := by
    rw [host, start, same]
    exact noted.ends

theorem Noted.extend (noted : conn.Noted lines) (inside : conn.startLine ≤ conn.readIdx) (more : List UInt8) :
    (conn.extend more).Noted lines := by
  refine noted.congr rfl rfl rfl rfl rfl ?_
  exact List.take_append_of_le_length inside

theorem Noted.cut (noted : conn.Noted lines) (place : conn.At received lines rest)
    (complete : Complete rest line after) (found : conn.parseLine = (.ok, ready)) :
    ready.Noted lines ∧ ready.Cut line after := by
  obtain ⟨other, also, cut, -⟩ := place.cut complete
  cases found.symm.trans also
  refine ⟨?_, cut⟩
  cases found.symm.trans (place.facing.parseLine_complete complete)
  refine noted.congr rfl rfl rfl rfl rfl ?_
  rw [List.take_set_of_le (by omega), List.take_set_of_le (by omega)]

theorem parseRequestLine_rest (conn : HttpConn) (text : Nat) :
    (conn.parseRequestLine text).2.linger = conn.linger ∧ (conn.parseRequestLine text).2.host = conn.host := by
  unfold parseRequestLine parseUrl parseVersion
  dsimp only
  repeat' split
  all_goals exact ⟨rfl, rfl⟩

/-- The request line leaves the fields as `init` has set them. -/
theorem Noted.requestLine (noted : ready.Noted []) (body : processLine fs ready = (.loop .ok, next)) :
    next.Noted [line] := by
  have hostless : ready.host = none := by
    have host := congrArg Fields.host noted.fields
    simpa [HttpConn.fields, hostText, fieldsOf] using host
  have length := parseRequestLine_contentLength { ready with startLine := ready.checkedIdx } ready.startLine
  obtain ⟨linger, host⟩ := parseRequestLine_rest { ready with startLine := ready.checkedIdx } ready.startLine
  have answers := parseRequestLine_answers { ready with startLine := ready.checkedIdx } ready.startLine
  rw [processLine_requestLine noted.state] at body
  generalize { ready with startLine := ready.checkedIdx }.parseRequestLine ready.startLine = result at *
  split_ifs at body with bad
  · cases (Prod.mk.inj body).1
  · obtain rfl : result.2 = next := (Prod.mk.inj body).2
    cases answers with
    | rejected none code _ => exact (bad code).elim
    | accepted path target is code header url found =>
      refine ⟨header, ?_, ?_⟩
      · have before := noted.fields
        rw [HttpConn.fields, hostText, hostless] at before
        rw [HttpConn.fields, hostText, linger, length, host, hostless]
        exact before
      · rw [host, hostless]
        simp

/-- A header line sets the field of its name. -/
theorem Noted.header (noted : ready.Noted lines) (cut : ready.Cut line after) (some : lines ≠ [])
    (nonempty : str line 0 ≠ []) (body : processLine fs ready = (.loop .ok, next)) : next.Noted (lines ++ [line]) := by
  have state : ready.checkState = .header := noted.state.trans (if_neg some)
  have text : str { ready with startLine := ready.checkedIdx }.readBuf ready.startLine = str line 0 := cut.text
  obtain ⟨buffer, -, goesOn⟩ := paresHeaders_line_cases { ready with startLine := ready.checkedIdx } ready.startLine
  obtain ⟨noting, pointers⟩ :=
    paresHeaders_fields { ready with startLine := ready.checkedIdx } ready.startLine (by rwa [text])
  have indices := paresHeaders_indices { ready with startLine := ready.checkedIdx } ready.startLine
  rw [text] at noting pointers goesOn
  obtain ⟨-, kept⟩ := goesOn nonempty
  rw [processLine_header state (by rwa [cut.text])] at body
  generalize { ready with startLine := ready.checkedIdx }.paresHeaders ready.startLine = result at *
  obtain rfl : result.2 = next := (Prod.mk.inj body).2
  have started : result.2.startLine = ready.checkedIdx := congrArg (·.2.2) indices
  obtain ⟨front, split, length, ends⟩ := cut.front
  have front_eq : result.2.readBuf.take result.2.startLine = front := by
    rw [buffer, started, split, ← length, List.take_left]
  refine ⟨?_, ?_, fun pointer member => ?_⟩
  · rw [kept, if_neg (by simp)]
    exact state
  · have before : HttpConn.fields { ready with startLine := ready.checkedIdx } =
        fieldsOf (lines.tail.map (str · 0)) := noted.fields
    rw [noting, before, List.tail_append_of_ne_nil some, List.map_append]
    simp [fieldsOf]
  · rw [front_eq]
    rcases pointers pointer member with old | ⟨offset, within, rfl⟩
    · have before : ready.startLine ≤ front.length := by
        rw [length, cut.checked]
        omega
      have earlier := noted.ends pointer old
      rw [split, List.take_append_of_le_length before] at earlier
      rw [← List.take_append_drop ready.startLine front]
      exact earlier.append _
    · refine ends.advance ?_
      have same := cut.text
      rw [split, ends.str_append] at same
      rwa [same]

/-- A line that does not end the head. -/
theorem Noted.accept (noted : conn.Noted lines) (place : conn.At received lines rest)
    (complete : Complete rest line after) (found : conn.parseLine = (.ok, ready))
    (body : processLine fs ready = (.loop .ok, next)) (head : next.checkState ≠ .connect) :
    next.Noted (lines ++ [line]) := by
  obtain ⟨scanned, cut⟩ := noted.cut place complete found
  by_cases first : lines = []
  · subst first
    exact scanned.requestLine body
  · refine scanned.header cut first (fun blank => head ?_) body
    have state : ready.checkState = .header := scanned.state.trans (if_neg first)
    have text : str { ready with startLine := ready.checkedIdx }.readBuf ready.startLine = str line 0 := cut.text
    by_cases length : ready.contentLength = 0
    · simp [processLine, state, paresHeaders, text, blank, length] at body
    · simp [processLine, state, paresHeaders, text, blank, length] at body
      rw [← body]

/-! ## The blank line -/

/-- What `pares_headers` returns for the line that ends the head, if `process_read` gets to it. -/
def headEnd (fs : FileSystem) (conn : HttpConn) (status : LineStatus) : Option (HttpCode × HttpConn) :=
  match condition : conn.loopCondition status with
  | (.ok, ready) =>
    if ready.checkState = .header ∧ str ready.readBuf ready.startLine = [] then
      some ({ ready with startLine := ready.checkedIdx }.paresHeaders ready.startLine)
    else
      match body : processLine fs ready with
      | (.done _, _) => none
      | (.loop after, next) => headEnd fs next after
  | (_, _) => none
termination_by conn.loopMeasure status
decreasing_by exact loopMeasure_lt condition body

/-- How `process_read` goes on from there. -/
def afterHead (fs : FileSystem) (code : HttpCode) (conn : HttpConn) : HttpCode × HttpConn :=
  if code = .getRequest then doRequest fs conn else processReadLoop fs conn .ok

section Unfold
variable {status later : LineStatus}

theorem headEnd_blank (condition : conn.loopCondition status = (.ok, ready)) (state : ready.checkState = .header)
    (blank : str ready.readBuf ready.startLine = []) :
    headEnd fs conn status = some ({ ready with startLine := ready.checkedIdx }.paresHeaders ready.startLine) := by
  rw [headEnd]
  grind

theorem headEnd_continue (condition : conn.loopCondition status = (.ok, ready))
    (more : ¬ (ready.checkState = .header ∧ str ready.readBuf ready.startLine = []))
    (body : processLine fs ready = (.loop later, next)) : headEnd fs conn status = headEnd fs next later := by
  rw [headEnd]
  grind

end Unfold

/-- The decision at the blank line. -/
theorem Noted.blank (noted : ready.Noted lines) (some : lines ≠ []) (blank : str ready.readBuf ready.startLine = []) :
    ∃ code final, { ready with startLine := ready.checkedIdx }.paresHeaders ready.startLine = (code, final) ∧
      final.fields = ready.fields ∧
      code = (if ready.contentLength = 0 then .getRequest else .noRequest) ∧
      final.checkState = (if ready.contentLength = 0 then .header else .connect) := by
  have state : ready.checkState = .header := noted.state.trans (if_neg some)
  by_cases length : ready.contentLength = 0
  · refine ⟨.getRequest, { ready with startLine := ready.checkedIdx }, ?_, rfl, ?_, ?_⟩
    · simp [paresHeaders, blank, length]
    · rw [if_pos length]
    · rw [if_pos length]
      exact state
  · refine ⟨.noRequest, { ready with startLine := ready.checkedIdx, checkState := .connect }, ?_, rfl, ?_, ?_⟩
    · simp [paresHeaders, blank, length]
    · rw [if_neg length]
    · rw [if_neg length]

/-- `process_read` acts on the decision. -/
theorem processReadLoop_head {status : LineStatus} {code : HttpCode} {final : HttpConn}
    (condition : conn.loopCondition status = (.ok, ready)) (state : ready.checkState = .header)
    (returns : { ready with startLine := ready.checkedIdx }.paresHeaders ready.startLine = (code, final))
    (fine : code ≠ .badRequest) : processReadLoop fs conn status = afterHead fs code final := by
  simp only [state] at returns
  by_cases complete : code = .getRequest
  · have body : processLine fs ready = (.done (doRequest fs final).1, (doRequest fs final).2) := by
      simp [processLine, state, returns, complete]
    rw [processReadLoop_return condition body, afterHead, if_pos complete]
  · have body : processLine fs ready = (.loop .ok, final) := by
      simp [processLine, state, returns, complete, fine]
    rw [processReadLoop_continue condition body, afterHead, if_neg complete]

/-- `process_read` gets to the blank line behind these header lines. -/
structure HeadEnded (fs : FileSystem) (conn : HttpConn) (headers : List (List UInt8)) (code : HttpCode)
    (final : HttpConn) : Prop where
  reached : headEnd fs conn .ok = some (code, final)
  goesOn : processRead fs conn = afterHead fs code final
  fields : final.fields = fieldsOf headers
  decides : code = if (fieldsOf headers).contentLength = 0 then .getRequest else .noRequest
  state : final.checkState = if (fieldsOf headers).contentLength = 0 then .header else .connect

theorem Noted.head (noted : conn.Noted lines) : conn.checkState ≠ .connect := by
  rw [noted.state]
  split_ifs <;> simp

/-- The blank line comes next. -/
theorem Noted.headEnded_blank (noted : conn.Noted lines) (place : conn.At received lines rest) (some : lines ≠ [])
    (complete : Complete rest [] after) : ∃ code final, HeadEnded fs conn (lines.tail.map (str · 0)) code final := by
  obtain ⟨ready, found, -⟩ := place.cut complete
  obtain ⟨scanned, cut⟩ := noted.cut place complete found
  have condition := (loopCondition_head noted.head .ok).trans found
  have blank : str ready.readBuf ready.startLine = [] := cut.text
  have state : ready.checkState = .header := scanned.state.trans (if_neg some)
  have length : ready.contentLength = (fieldsOf (lines.tail.map (str · 0))).contentLength :=
    congrArg Fields.contentLength scanned.fields
  obtain ⟨code, final, returns, kept, decides, last⟩ := scanned.blank some blank
  rw [length] at decides last
  refine ⟨code, final, ?_, ?_, kept.trans scanned.fields, decides, last⟩
  · rw [headEnd_blank condition state blank, returns]
  · refine processReadLoop_head condition state returns ?_
    rw [decides]
    split_ifs <;> simp

/-- From any place in the head, by induction on the lines that are left. -/
theorem Noted.headEnded (fs : FileSystem) {more : List (List UInt8)} {body : List UInt8} (noted : conn.Noted lines)
    (place : conn.At received lines rest) (split : rest = encodeLines (more ++ [[]]) ++ body)
    (plain : ∀ line ∈ more, ∀ byte ∈ line, inLine byte = true)
    (request : lines = [] → ∃ line others, more = line :: others ∧ ∃ path, RequestLine (str line 0) path)
    (nonempty : ∀ line ∈ (lines ++ more).tail, str line 0 ≠ []) :
    ∃ code final, HeadEnded fs conn ((lines ++ more).tail.map (str · 0)) code final := by
  induction more generalizing conn lines rest with
  | nil =>
    have some : lines ≠ [] := by
      intro none
      obtain ⟨line, others, same, -⟩ := request none
      cases same
    rw [List.append_nil]
    exact noted.headEnded_blank place some ⟨by simp, by simpa [encodeLines] using split⟩
  | cons line more ih =>
    obtain ⟨plainLine, plainMore⟩ := List.forall_mem_cons.mp plain
    have complete : Complete rest line (encodeLines (more ++ [[]]) ++ body) := by
      refine ⟨plainLine, ?_⟩
      rw [split, List.cons_append, encodeLines_cons]
      simp
    have text : lines ≠ [] → str line 0 ≠ [] := by
      intro some
      refine nonempty line ?_
      rw [List.tail_append_of_ne_nil some]
      simp
    obtain ⟨length, accepts⟩ : ∃ length, acceptLine (conn.checkState, conn.contentLength) line = some (.header, length) := by
      by_cases first : lines = []
      · obtain ⟨request, others, same, asks⟩ := request first
        obtain ⟨rfl, -⟩ := List.cons.inj same
        rw [noted.state, if_pos first]
        exact ⟨conn.contentLength, if_pos asks⟩
      · rw [noted.state, if_neg first]
        exact ⟨_, if_neg (text first)⟩
    obtain ⟨ready, next, found, step, later, -⟩ := place.accept fs noted.head complete accepts
    have header := (later.accepted.unique (place.accepted.snoc complete.1 accepts)).1
    have kept := noted.accept place complete found step (by rw [header]; simp)
    obtain ⟨scanned, cut⟩ := noted.cut place complete found
    have condition := (loopCondition_head noted.head .ok).trans found
    have whole : lines ++ [line] ++ more = lines ++ line :: more := by simp
    obtain ⟨code, final, ended⟩ := ih kept later rfl plainMore (by simp) (by rwa [whole])
    rw [whole] at ended
    refine ⟨code, final, ?_, ?_, ended.fields, ended.decides, ended.state⟩
    · rw [headEnd_continue condition ?_ step]
      · exact ended.reached
      · rintro ⟨state, blank⟩
        rw [cut.text] at blank
        refine text (fun none => ?_) blank
        rw [scanned.state, if_pos none] at state
        cases state
    · exact (processReadLoop_continue condition step).trans ended.goesOn

/-! ## Several calls -/

/-- A call that leaves the parser in the head, by induction on the bytes that are left. -/
theorem Noted.called (noted : conn.Noted lines) (place : conn.At received lines rest)
    (waits : processRead fs conn = (.noRequest, next)) (head : next.checkState ≠ .connect) :
    ∃ lines rest, next.At received lines rest ∧ next.Noted lines := by
  obtain ⟨size, bound⟩ : ∃ size, rest.length ≤ size := ⟨_, le_rfl⟩
  induction size using Nat.strong_induction_on generalizing conn lines rest with
  | _ size ih =>
    have condition := loopCondition_head noted.head .ok
    rcases scan_cases rest with ⟨line, after, complete⟩ | stuck
    · cases accepts : acceptLine (conn.checkState, conn.contentLength) line with
      | some result =>
        obtain ⟨ready, middle, found, body, later, -⟩ := place.accept fs noted.head complete accepts
        have goesOn : processRead fs conn = processRead fs middle :=
          processReadLoop_continue (condition.trans found) body
        rw [goesOn] at waits
        have inHead : middle.checkState ≠ .connect := by
          intro inBody
          have stays : (processRead fs middle).2.checkState = .connect := processReadLoop_connect middle .ok inBody
          rw [waits] at stays
          exact head stays
        have shorter : after.length < rest.length := by
          rw [complete.2, List.length_append, List.length_cons, List.length_cons]
          omega
        exact ih after.length (shorter.trans_le bound) (noted.accept place complete found body inHead) later waits le_rfl
      | none =>
        obtain ⟨ready, code, middle, found, body⟩ := place.reject fs noted.head complete accepts
        rw [processRead, processReadLoop_return (condition.trans found) body] at waits
        exact (processLine_return body (Prod.mk.inj waits).1).elim
    · obtain ⟨status, stopped, scanned⟩ := place.facing.parseLine_stop stuck
      have there : processRead fs conn = _ := processReadLoop_stop (condition.trans scanned) stopped
      cases waits.symm.trans there
      exact ⟨lines, rest, ⟨place.received, place.accepted, place.start, place.facing.stopped⟩,
        noted.congr rfl rfl rfl rfl rfl rfl⟩

end HttpConn

namespace Reception
variable {fs : FileSystem} {reception arrived next : Reception} {outcomes : List HttpConn.Recv}

/-- In the head of a request the fields are those of the header lines so far. -/
def Noting (reception : Reception) : Prop :=
  reception.conn.checkState ≠ .connect →
    ∃ lines rest, reception.conn.At reception.received lines rest ∧ reception.conn.Noted lines

theorem Noting.start (conn : HttpConn) : Noting (Reception.start conn) :=
  fun _ => ⟨[], [], .init conn, .init conn⟩

theorem Noting.read (noting : Noting reception) (taken : reception.read outcomes = some arrived) :
    Noting arrived := by
  obtain ⟨more, rfl⟩ := read_cases taken
  intro head
  obtain ⟨lines, rest, place, noted⟩ := noting head
  exact ⟨lines, rest ++ more, place.extend more, noted.extend place.facing.inside more⟩

theorem Noting.step (noting : Noting reception) (taken : reception.step fs outcomes = some next) : Noting next := by
  obtain ⟨arrived, arrives, received, parsed⟩ := call_cases (step_call taken)
  intro head
  have inHead : arrived.conn.checkState ≠ .connect := by
    intro inBody
    have stays : (HttpConn.processRead fs arrived.conn).2.checkState = .connect :=
      HttpConn.processReadLoop_connect arrived.conn .ok inBody
    rw [parsed] at stays
    exact head stays
  obtain ⟨lines, rest, place, noted⟩ := noting.read arrives inHead
  rw [received]
  exact noted.called place parsed head

end Reception

theorem acceptLine_state {state result : CheckState × Int} {line : List UInt8}
    (accepts : acceptLine state line = some result) : result.1 ≠ .requestLine := by
  unfold acceptLine at accepts
  split at accepts
  · split_ifs at accepts
    cases accepts
    simp
  · split_ifs at accepts
    all_goals
      cases accepts
      simp
  · cases accepts

/-- A blank line behind the request line is accepted only where the body begins. -/
theorem Accepted.blank {lines more : List (List UInt8)} {state : CheckState} {length : Int} (some : lines ≠ [])
    (accepted : Accepted (lines ++ [] :: more) state length) : state = .connect := by
  obtain ⟨⟨before, count⟩, here, there⟩ := run_append_some.mp accepted.2
  have late : before ≠ .requestLine := by
    obtain ⟨lines, last, rfl⟩ := List.eq_nil_or_concat lines |>.resolve_left some
    rw [List.concat_eq_append] at here
    obtain ⟨middle, -, last⟩ := run_append_some.mp here
    obtain ⟨final, accepts, same⟩ := run_cons_some.mp last
    cases same
    exact acceptLine_state accepts
  obtain ⟨middle, accepts, rest⟩ := run_cons_some.mp there
  cases before with
  | requestLine => exact (late rfl).elim
  | connect => cases accepts
  | header =>
    simp only [acceptLine, str, List.drop_nil, List.takeWhile_nil, if_true] at accepts
    split_ifs at accepts
    cases accepts
    cases more with
    | nil =>
      cases rest
      rfl
    | cons line more =>
      obtain ⟨next, accepts, -⟩ := run_cons_some.mp rest
      cases accepts

/-- The lines read so far of a head that has arrived. -/
theorem HttpConn.Noted.front {conn : HttpConn} {lines head : List (List UInt8)} {received rest : List UInt8}
    (noted : conn.Noted lines) (place : conn.At received lines rest) (some : head ≠ [])
    (plain : ∀ line ∈ head, ∀ byte ∈ line, inLine byte = true) (bytes : encodeLines (head ++ [[]]) <+: received) :
    ∃ more body, head = lines ++ more ∧ rest = encodeLines (more ++ [[]]) ++ body := by
  obtain ⟨body, whole⟩ := bytes
  have plainHead : ∀ line ∈ head ++ [[]], ∀ byte ∈ line, inLine byte = true := by
    simpa [or_imp, forall_and] using plain
  rcases lines_comparable plainHead place.accepted.1 (whole.trans place.received) with
    ⟨more, split, behind⟩ | ⟨more, split, behind⟩
  · rcases List.eq_nil_or_concat more with rfl | ⟨more, last, rfl⟩
    · rw [List.append_nil] at split
      rw [← split] at place
      exact (noted.head (place.accepted.blank some)).elim
    · rw [List.concat_eq_append, ← List.append_assoc] at split
      obtain ⟨same, blank⟩ := List.append_inj' split rfl
      obtain rfl : [] = last := (List.cons.inj blank).1
      exact ⟨more, body, same, by rw [behind, List.concat_eq_append]⟩
  · rw [split, List.append_assoc] at place
    exact (noted.head (place.accepted.blank some)).elim

/-- A connection that has read a request line, header lines and a blank line in any number of
calls, and is about to process the last of them. -/
structure HeadArrived (fs : FileSystem) (head : List (List UInt8)) (arrived : Reception) : Prop where
  calls : ∃ conn arrivals before outcomes, run (Reception.step fs) (Reception.start conn) arrivals = some before ∧
    before.read outcomes = some arrived ∧ before.conn.checkState ≠ .connect
  bytes : encodeLines (head ++ [[]]) <+: arrived.received

/-- A line of a header block: not empty, and without CR, LF and NUL. -/
def HeaderLine (line : List UInt8) : Prop := line ≠ [] ∧ ∀ byte ∈ line, inLine byte = true ∧ byte ≠ 0

theorem HeaderLine.text {line : List UInt8} (plain : HeaderLine line) : str line 0 = line := by
  rw [str, List.drop_zero, List.takeWhile_eq_self_iff]
  exact fun byte member => by simpa using (plain.2 byte member).2

theorem HeadArrived.ended {fs : FileSystem} {request : List UInt8} {headers : List (List UInt8)} {arrived : Reception}
    (here : HeadArrived fs (request :: headers) arrived) (plain : ∀ byte ∈ request, inLine byte = true)
    (asks : ∃ path, RequestLine (str request 0) path) (lines : ∀ line ∈ headers, HeaderLine line) :
    ∃ code final, HeadEnded fs arrived.conn headers code final := by
  obtain ⟨conn, arrivals, before, outcomes, earlier, taken, inHead⟩ := here.calls
  have noting : before.Noting := run_invariant (fun _ _ _ noting taken => noting.step taken) (.start conn) earlier
  have head : arrived.conn.checkState ≠ .connect := by
    obtain ⟨more, rfl⟩ := Reception.read_cases taken
    exact inHead
  obtain ⟨passed, rest, place, noted⟩ := noting.read taken head
  have plainHead : ∀ line ∈ request :: headers, ∀ byte ∈ line, inLine byte = true :=
    List.forall_mem_cons.mpr ⟨plain, fun line member byte inside => ((lines line member).2 byte inside).1⟩
  obtain ⟨more, body, split, left⟩ := noted.front place (List.cons_ne_nil _ _) plainHead here.bytes
  have texts : ((passed ++ more).tail.map (str · 0)) = headers := by
    rw [← split, List.tail_cons]
    exact (List.map_congr_left fun line member => (lines line member).text).trans (List.map_id _)
  obtain ⟨code, final, ended⟩ := noted.headEnded fs place left
    (fun line member => plainHead line (split ▸ List.mem_append_right _ member))
    (fun none => ⟨request, headers, by rw [none] at split; exact split.symm, asks⟩)
    (by
      rw [← split, List.tail_cons]
      intro line member
      rw [(lines line member).text]
      exact (lines line member).1)
  rw [texts] at ended
  exact ⟨code, final, ended⟩

/-- The order of the header lines does not matter. Two requests with the same request line whose
header lines are the same, those of each name in the same order, take the parser to the blank line
with the same fields, the same decision and the same state; `m_linger` is true when some
`Connection` line says so, and the other fields are those of the last line of their name. -/
theorem header_order_irrelevant {fs : FileSystem} {request : List UInt8} {first second : List (List UInt8)}
    {one other : Reception} (plain : ∀ byte ∈ request, inLine byte = true)
    (asks : ∃ path, RequestLine (str request 0) path) (lines : ∀ line ∈ first, HeaderLine line)
    (reordered : Reordered first second) (here : HeadArrived fs (request :: first) one)
    (there : HeadArrived fs (request :: second) other) :
    ∃ code final last, headEnd fs one.conn .ok = some (code, final) ∧ headEnd fs other.conn .ok = some (code, last) ∧
      processRead fs one.conn = afterHead fs code final ∧ processRead fs other.conn = afterHead fs code last ∧
      final.linger = last.linger ∧ final.contentLength = last.contentLength ∧ final.hostText = last.hostText ∧
      final.checkState = last.checkState ∧
      (final.linger = true ↔ ∃ line ∈ first, headerName line = some .connection ∧ keepsAlive line = true) ∧
      final.contentLength =
        ((named .contentLength first).getLast?.map fun line => atoi (headerValue .contentLength line)).getD 0 ∧
      final.hostText = (named .host first).getLast?.map (headerValue .host) := by
  obtain ⟨code, final, ended⟩ := here.ended plain asks lines
  obtain ⟨code', last, also⟩ := there.ended plain asks fun line member => lines line (reordered.perm.mem_iff.mpr member)
  have same := reordered.fields
  obtain rfl : code = code' := by rw [ended.decides, also.decides, same]
  have kept : final.fields = last.fields := by rw [ended.fields, also.fields, same]
  have exact := ended.fields.trans (fieldsOf_eq first)
  refine ⟨code, final, last, ended.reached, also.reached, ended.goesOn, also.goesOn, congrArg Fields.linger kept,
    congrArg Fields.contentLength kept, congrArg Fields.host kept, ?_, ?_, congrArg Fields.contentLength exact,
    congrArg Fields.host exact⟩
  · rw [ended.state, also.state, same]
  · have linger : final.linger = (named .connection first).any keepsAlive := congrArg Fields.linger exact
    rw [linger, List.any_eq_true]
    simp [named, and_assoc]

/-- A fresh connection that has read these lines and a blank one. -/
def afterLines (head : List (List UInt8)) : Reception :=
  ⟨zeroed.init.extend (encodeLines (head ++ [[]])), encodeLines (head ++ [[]])⟩

theorem afterLines_arrived {head : List (List UInt8)}
    (read : (Reception.start zeroed).read [.data (encodeLines (head ++ [[]]))] = some (afterLines head)) :
    HeadArrived ⟨fun _ => none, fun _ => none⟩ head (afterLines head) :=
  ⟨⟨zeroed, [], Reception.start zeroed, _, rfl, read, by decide⟩, List.prefix_rfl⟩

/-- Two header lines, both ways round. -/
theorem header_order_irrelevant_swap :
    ∃ code final last, headEnd ⟨fun _ => none, fun _ => none⟩ (afterLines
        [bytes "GET / HTTP/1.1", bytes "Host: a", bytes "Connection: keep-alive"]).conn .ok = some (code, final) ∧
      headEnd ⟨fun _ => none, fun _ => none⟩ (afterLines
        [bytes "GET / HTTP/1.1", bytes "Connection: keep-alive", bytes "Host: a"]).conn .ok = some (code, last) ∧
      final.linger = last.linger ∧ final.hostText = last.hostText := by
  have plain : ∀ line ∈ [bytes "Host: a", bytes "Connection: keep-alive"], HeaderLine line := by
    unfold HeaderLine
    decide +kernel
  have reordered : Reordered [bytes "Host: a", bytes "Connection: keep-alive"]
      [bytes "Connection: keep-alive", bytes "Host: a"] := by
    refine ⟨List.Perm.swap _ _ _, fun name => ?_⟩
    cases name <;> decide +kernel
  have here : HeadArrived _ [bytes "GET / HTTP/1.1", bytes "Host: a", bytes "Connection: keep-alive"] _ :=
    afterLines_arrived (by decide +kernel)
  have there : HeadArrived _ [bytes "GET / HTTP/1.1", bytes "Connection: keep-alive", bytes "Host: a"] _ :=
    afterLines_arrived (by decide +kernel)
  obtain ⟨code, final, last, one, other, -, -, linger, -, host, -⟩ :=
    header_order_irrelevant (by decide +kernel) (by decide +kernel) plain reordered here there
  exact ⟨code, final, last, one, other, linger, host⟩

end UnixProgramming.Pool

import UnixProgramming.Pool.LineScan
import UnixProgramming.Pool.Session

/-! Well-formed requests without a body, and what the parser makes of one that is in
the buffer as a whole. -/

namespace UnixProgramming.Pool

open UnixProgramming.Lib HttpConn

def crlf : List UInt8 := [13, 10]

/-- A byte that may stand in a line. -/
def plain (byte : UInt8) : Bool := byte != 0 && byte != 10 && byte != 13

structure GetRequest where
  target : List UInt8
  headers : List (List UInt8)
deriving DecidableEq, Repr

namespace GetRequest

/-- The header lines and the blank line behind them. -/
def headerBytes (headers : List (List UInt8)) : List UInt8 := (headers.map (· ++ crlf)).flatten ++ crlf

def encode (request : GetRequest) : List UInt8 :=
  bytes "GET" ++ 32 :: (request.target ++ 32 :: (bytes "HTTP/1.1" ++ crlf ++ headerBytes request.headers))

/-- The path in the target, which is the path itself or starts with `http://` and a
host. -/
def path (request : GetRequest) : List UInt8 :=
  if caseEqualUpTo 7 request.target (bytes "http://") then (request.target.drop 7).dropWhile (· != 47)
  else request.target

def keepAlive : List UInt8 := bytes "Connection: keep-alive"

/-- A header line of a request without a body. -/
structure HeaderLine (line : List UInt8) : Prop where
  nonempty : line ≠ []
  plain : ∀ byte ∈ line, plain byte = true
  bodyless : caseEqualUpTo 15 line (bytes "Content-Length:") = true → atoi ((line.drop 15).dropWhile isBlank) = 0

/-- A request that asks for a file and for the connection to be kept. -/
structure WellFormed (request : GetRequest) : Prop where
  target : ∀ byte ∈ request.target, Pool.plain byte = true ∧ isBlank byte = false
  path : request.path.head? = some 47
  headers : ∀ line ∈ request.headers, HeaderLine line
  keepAlive : keepAlive ∈ request.headers

end GetRequest

/-! ## Lines -/

theorem parseLineLoop_line (unchecked : Nat) (before after : List UInt8) {line : List UInt8}
    (plainLine : ∀ byte ∈ line, plain byte = true) (enough : line.length < unchecked) :
    parseLineLoop unchecked (before ++ (line ++ 13 :: 10 :: after)) before.length =
      (.ok, before ++ (line ++ 0 :: 0 :: after), before.length + line.length + 2) := by
  obtain ⟨count, rfl⟩ : ∃ count, unchecked = line.length + (count + 1) := ⟨unchecked - line.length - 1, by omega⟩
  rw [parseLineLoop_skip _ _ _ _ fun offset below => ?_]
  · simp [parseLineLoop, Nat.add_assoc]
  · rw [List.getD_append_right _ _ _ _ (by omega), Nat.add_sub_cancel_left, List.getD_append _ _ _ _ below,
      List.getD_eq_getElem _ _ below]
    have here := plainLine _ (List.getElem_mem below)
    simp only [plain, Bool.and_eq_true, bne_iff_ne] at here
    exact inLine_iff.mpr ⟨here.2, here.1.2⟩

variable {conn : HttpConn} {before after line : List UInt8}

/-- The line at which the parser stands is cut out of the buffer. -/
theorem parseLine_line (buf : conn.readBuf = before ++ (line ++ 13 :: 10 :: after))
    (checked : conn.checkedIdx = before.length) (plainLine : ∀ byte ∈ line, plain byte = true) :
    conn.parseLine = (.ok, { conn with
      readBuf := before ++ (line ++ 0 :: 0 :: after)
      checkedIdx := before.length + line.length + 2 }) := by
  have cut := parseLineLoop_line (conn.readIdx - conn.checkedIdx) before after plainLine
    (by simp [readIdx, buf, checked])
  unfold parseLine
  rw [buf, checked] at *
  rw [cut]

theorem plain_nonzero (plainLine : ∀ byte ∈ line, plain byte = true) : 0 ∉ line := by
  intro zero
  have impossible := plainLine 0 zero
  simp [plain] at impossible

/-- A header line changes `m_linger` and `m_host` only. -/
theorem paresHeaders_line (conn : HttpConn) {text : Nat} (header : GetRequest.HeaderLine (str conn.readBuf text))
    (noBody : conn.contentLength = 0) :
    ∃ linger host, conn.paresHeaders text = (.noRequest, { conn with linger := linger, host := host }) ∧
      (conn.linger = true ∨ str conn.readBuf text = GetRequest.keepAlive → linger = true) := by
  unfold paresHeaders
  dsimp only
  rw [if_neg header.nonempty]
  by_cases connection : caseEqualUpTo 11 (str conn.readBuf text) (bytes "Connection:") = true
  · rw [if_pos connection, str_value connection (by decide)]
    split_ifs with same
    · exact ⟨true, conn.host, rfl, fun _ => rfl⟩
    · refine ⟨conn.linger, conn.host, rfl, fun kept => ?_⟩
      rcases kept with before | keep
      · exact before
      · rw [keep] at same
        exact absurd (by decide) same
  · have other : str conn.readBuf text ≠ GetRequest.keepAlive := by
      intro keep
      rw [keep] at connection
      exact connection (by decide)
    rw [if_neg connection]
    by_cases length : caseEqualUpTo 15 (str conn.readBuf text) (bytes "Content-Length:") = true
    · rw [if_pos length, str_value length (by decide), header.bodyless length, ← noBody]
      exact ⟨conn.linger, conn.host, rfl, by simp [other]⟩
    · rw [if_neg length]
      split_ifs with host
      · exact ⟨conn.linger, _, rfl, by simp [other]⟩
      · exact ⟨conn.linger, conn.host, rfl, by simp [other]⟩

theorem headerBytes_cons (line : List UInt8) (headers : List (List UInt8)) :
    GetRequest.headerBytes (line :: headers) = line ++ 13 :: 10 :: GetRequest.headerBytes headers := by
  simp [GetRequest.headerBytes, crlf]

theorem processLine_header (fs : FileSystem) (conn : HttpConn) (state : conn.checkState = .header)
    (header : GetRequest.HeaderLine (str conn.readBuf conn.startLine)) (noBody : conn.contentLength = 0) :
    ∃ linger host, processLine fs conn =
        (.loop .ok, { conn with startLine := conn.checkedIdx, linger := linger, host := host }) ∧
      (conn.linger = true ∨ str conn.readBuf conn.startLine = GetRequest.keepAlive → linger = true) := by
  obtain ⟨linger, host, parsed, kept⟩ :=
    paresHeaders_line { conn with startLine := conn.checkedIdx } header noBody
  refine ⟨linger, host, ?_, kept⟩
  unfold processLine
  dsimp only
  split
  · rename_i requestLine
    simp [state] at requestLine
  · rw [parsed]
    rfl
  · rename_i inBody
    simp [state] at inBody

theorem processLine_blank (fs : FileSystem) (state : conn.checkState = .header)
    (blank : str conn.readBuf conn.startLine = []) (noBody : conn.contentLength = 0) :
    processLine fs conn = (.done (doRequest fs { conn with startLine := conn.checkedIdx }).1,
      (doRequest fs { conn with startLine := conn.checkedIdx }).2) := by
  unfold processLine paresHeaders
  simp [state, blank, noBody]

/-- The header lines lead to the request being carried out, with what they ask for
about the connection. -/
theorem processReadLoop_headers (fs : FileSystem) (conn : HttpConn) (before : List UInt8)
    (headers : List (List UInt8)) (status : LineStatus)
    (header : ∀ line ∈ headers, GetRequest.HeaderLine line)
    (buf : conn.readBuf = before ++ GetRequest.headerBytes headers) (checked : conn.checkedIdx = before.length)
    (start : conn.startLine = before.length) (state : conn.checkState = .header) (noBody : conn.contentLength = 0) :
    ∃ final, processReadLoop fs conn status = doRequest fs final ∧ final.url = conn.url ∧
      (∃ rest, final.readBuf = before ++ rest) ∧ final.checkedIdx = conn.readIdx ∧ final.checkState = .header ∧
      (conn.linger = true ∨ GetRequest.keepAlive ∈ headers → final.linger = true) := by
  induction headers generalizing conn before status with
  | nil =>
    have blankLine : conn.readBuf = before ++ ([] ++ 13 :: 10 :: []) := by
      simpa [GetRequest.headerBytes, crlf] using buf
    have found := (loopCondition_head (by simp [state]) status).trans (parseLine_line blankLine checked (by simp))
    have ends := processReadLoop_return found (processLine_blank fs state
      (by simpa [start] using str_middle before [0] (show 0 ∉ [] by simp)) noBody)
    refine ⟨_, ends, rfl, ⟨[0, 0], rfl⟩, ?_, state, by simp⟩
    simp [readIdx, buf, GetRequest.headerBytes, crlf]
  | cons line rest ih =>
    rw [headerBytes_cons] at buf
    have here := header line (by simp)
    have found := (loopCondition_head (by simp [state]) status).trans (parseLine_line buf checked here.plain)
    have text := str_middle before (0 :: GetRequest.headerBytes rest) (plain_nonzero here.plain)
    obtain ⟨linger, host, body, kept⟩ := processLine_header fs { conn with
        readBuf := before ++ (line ++ 0 :: 0 :: GetRequest.headerBytes rest)
        checkedIdx := before.length + line.length + 2 } state (by simpa [start, text] using here) noBody
    rw [processReadLoop_continue found body]
    simp only [start, text] at kept
    obtain ⟨final, ends, url, ⟨more, bufFinal⟩, checkedFinal, stateFinal, lingerFinal⟩ :=
      ih { conn with
          readBuf := before ++ (line ++ 0 :: 0 :: GetRequest.headerBytes rest)
          checkedIdx := before.length + line.length + 2
          startLine := before.length + line.length + 2
          linger := linger
          host := host } (before ++ (line ++ [0, 0])) .ok (fun other member => header other (by simp [member]))
        (by simp) (by simp [Nat.add_assoc]) (by simp [Nat.add_assoc]) state noBody
    refine ⟨final, ends, url, ⟨line ++ [0, 0] ++ more, by simpa using bufFinal⟩, ?_, stateFinal, ?_⟩
    · rw [checkedFinal]
      simp [readIdx, buf]
    · intro asked
      apply lingerFinal
      rcases asked with earlier | member
      · exact .inl (kept (.inl earlier))
      · rcases List.mem_cons.mp member with same | later
        · exact .inl (kept (.inr same.symm))
        · exact .inr later

/-! ## The request line -/

variable {request : GetRequest}

/-- The target is cut down to the path. -/
theorem requestTarget_path {buffer : List UInt8} {url : Nat} (wellFormed : request.WellFormed)
    (text : str buffer url = request.target) :
    ∃ offset, requestTarget buffer url = some (url + offset) ∧ offset ≤ request.target.length ∧
      request.target.drop offset = request.path := by
  have slash := wellFormed.path
  unfold requestTarget
  rw [text]
  unfold GetRequest.path at slash ⊢
  split_ifs at slash ⊢ with absolute
  · have long := length_of_caseEqualUpTo absolute (by decide)
    have behind : str buffer (url + 7) = request.target.drop 7 := by rw [str_drop (by rwa [text]), text]
    obtain ⟨rest, found⟩ := List.head?_eq_some_iff.mp slash
    have split : (request.target.drop 7).takeWhile (· != 47) ++ 47 :: rest = request.target.drop 7 := by
      rw [← found, List.takeWhile_append_dropWhile]
    have clean : ∀ byte ∈ (request.target.drop 7).takeWhile (· != 47), (byte == 47) = false := by
      intro byte member
      simpa using List.mem_takeWhile_imp member
    generalize (request.target.drop 7).takeWhile (· != 47) = host at split clean
    have position : strchr (request.target.drop 7) 47 = some host.length := by
      rw [strchr, ← split]
      exact findIdx_middle rest clean (by decide)
    refine ⟨7 + host.length, ?_, ?_, ?_⟩
    · rw [behind, position]
      simp [Nat.add_assoc]
    · have length := congrArg List.length split
      simp at length
      omega
    · rw [found, ← List.drop_drop, ← split, List.drop_left]
  · exact ⟨0, rfl, by simp, rfl⟩

theorem parseVersion_request (conn : HttpConn) {url version : Nat} (wellFormed : request.WellFormed)
    (urlText : str conn.readBuf url = request.target) (versionText : str conn.readBuf version = bytes "HTTP/1.1") :
    ∃ offset, conn.parseVersion url version =
        (.noRequest, { conn with url := some (url + offset), checkState := .header }) ∧
      offset ≤ request.target.length ∧ str conn.readBuf (url + offset) = request.path := by
  obtain ⟨offset, found, within, path⟩ := requestTarget_path wellFormed urlText
  have text : str conn.readBuf (url + offset) = request.path := by
    rw [str_drop (by rwa [urlText]), urlText, path]
  have slash : conn.readBuf.getD (url + offset) 0 = 47 := by
    obtain ⟨rest, head⟩ := List.head?_eq_some_iff.mp wellFormed.path
    exact getD_of_str (text.trans head)
  refine ⟨offset, ?_, within, text⟩
  unfold parseVersion
  rw [versionText, if_pos (by decide)]
  simp only [found, slash, if_true]

theorem parseUrl_request (conn : HttpConn) (wellFormed : request.WellFormed) {before : List UInt8} (rest : List UInt8)
    (buf : conn.readBuf = before ++ (request.target ++ 32 :: (bytes "HTTP/1.1" ++ 0 :: rest))) :
    ∃ offset version, conn.parseUrl before.length = (.noRequest, { conn with
        readBuf := before ++ (request.target ++ 0 :: (bytes "HTTP/1.1" ++ 0 :: rest))
        url := some (before.length + offset)
        version := version
        checkState := .header }) ∧ offset ≤ request.target.length ∧
      str (before ++ (request.target ++ 0 :: (bytes "HTTP/1.1" ++ 0 :: rest))) (before.length + offset) =
        request.path := by
  have nonzero : 0 ∉ request.target := plain_nonzero fun byte member => (wellFormed.target byte member).1
  have text : str conn.readBuf before.length = request.target ++ 32 :: bytes "HTTP/1.1" := by
    have word : 0 ∉ request.target ++ 32 :: bytes "HTTP/1.1" := by
      simp only [List.mem_append, not_or]
      exact ⟨nonzero, by decide⟩
    simpa [buf] using str_middle before rest word
  have first : blanks (request.target ++ 32 :: bytes "HTTP/1.1") = 0 := by
    cases target : request.target with
    | nil =>
      have slash := wellFormed.path
      simp [GetRequest.path, target] at slash
    | cons byte others =>
      have word := (wellFormed.target byte (by simp [target])).2
      simp [blanks, word]
  have second : firstBlank (request.target ++ 32 :: bytes "HTTP/1.1") = some request.target.length :=
    findIdx_middle _ (fun byte member => (wellFormed.target byte member).2) (by decide)
  have cut : conn.readBuf.set (before.length + request.target.length) 0 =
      before ++ (request.target ++ 0 :: (bytes "HTTP/1.1" ++ 0 :: rest)) := by
    simp [buf]
  have urlText := str_middle before (bytes "HTTP/1.1" ++ 0 :: rest) nonzero
  have versionText : str (before ++ (request.target ++ 0 :: (bytes "HTTP/1.1" ++ 0 :: rest)))
      (before.length + request.target.length + 1) = bytes "HTTP/1.1" := by
    have word := str_middle (before ++ (request.target ++ [0])) rest (show 0 ∉ bytes "HTTP/1.1" by decide)
    simpa [Nat.add_assoc] using word
  obtain ⟨offset, parsed, within, path⟩ := parseVersion_request { conn with
    readBuf := before ++ (request.target ++ 0 :: (bytes "HTTP/1.1" ++ 0 :: rest))
    url := some before.length
    version := some (before.length + request.target.length + 1) } wellFormed urlText versionText
  refine ⟨offset, some (before.length + request.target.length + 1), ?_, within, path⟩
  unfold parseUrl
  simp only [text, first, Nat.add_zero, second, cut, versionText]
  exact parsed

theorem parseRequestLine_request (conn : HttpConn) (wellFormed : request.WellFormed) (rest : List UInt8)
    (buf : conn.readBuf = bytes "GET" ++ 32 :: (request.target ++ 32 :: (bytes "HTTP/1.1" ++ 0 :: 0 :: rest))) :
    ∃ offset version, conn.parseRequestLine 0 = (.noRequest, { conn with
        readBuf := bytes "GET" ++ 0 :: (request.target ++ 0 :: (bytes "HTTP/1.1" ++ 0 :: 0 :: rest))
        method := .get
        url := some (4 + offset)
        version := version
        checkState := .header }) ∧ offset ≤ request.target.length ∧
      str (bytes "GET" ++ 0 :: (request.target ++ 0 :: (bytes "HTTP/1.1" ++ 0 :: 0 :: rest))) (4 + offset) =
        request.path := by
  have text : str conn.readBuf 0 = bytes "GET" ++ 32 :: (request.target ++ 32 :: bytes "HTTP/1.1") := by
    have nonzero : 0 ∉ request.target := plain_nonzero fun byte member => (wellFormed.target byte member).1
    have word : 0 ∉ bytes "GET" ++ 32 :: (request.target ++ 32 :: bytes "HTTP/1.1") := by
      simp only [List.mem_append, List.mem_cons, not_or]
      exact ⟨by decide, by decide, nonzero, by decide, by decide⟩
    simpa [buf] using str_middle [] (0 :: rest) word
  have blank : firstBlank (bytes "GET" ++ 32 :: (request.target ++ 32 :: bytes "HTTP/1.1")) = some 3 :=
    findIdx_middle _ (by simpa using List.all_eq_true.mp (show (bytes "GET").all (!isBlank ·) = true by decide))
      (by decide)
  have cut : conn.readBuf.set 3 0 =
      bytes "GET" ++ 0 :: (request.target ++ 32 :: (bytes "HTTP/1.1" ++ 0 :: 0 :: rest)) := by
    rw [buf]
    rfl
  have method : str (bytes "GET" ++ 0 :: (request.target ++ 32 :: (bytes "HTTP/1.1" ++ 0 :: 0 :: rest))) 0 =
      bytes "GET" := str_middle [] _ (show 0 ∉ bytes "GET" by decide)
  obtain ⟨offset, version, parsed, within, path⟩ := parseUrl_request { conn with
    readBuf := bytes "GET" ++ 0 :: (request.target ++ 32 :: (bytes "HTTP/1.1" ++ 0 :: 0 :: rest))
    method := .get
    url := some 4 } wellFormed (0 :: rest) (show _ = (bytes "GET" ++ [0]) ++ _ by simp)
  have start : (bytes "GET" ++ [0]).length = 4 := rfl
  have joined : ∀ more : List UInt8, bytes "GET" ++ [0] ++ more = bytes "GET" ++ 0 :: more := by simp
  simp only [start, joined] at parsed path
  refine ⟨offset, version, ?_, within, path⟩
  unfold parseRequestLine
  simp only [text, blank, Nat.zero_add, cut, method]
  exact parsed

theorem processLine_request (fs : FileSystem) (conn : HttpConn) (wellFormed : request.WellFormed) (rest : List UInt8)
    (state : conn.checkState = .requestLine) (start : conn.startLine = 0)
    (buf : conn.readBuf = bytes "GET" ++ 32 :: (request.target ++ 32 :: (bytes "HTTP/1.1" ++ 0 :: 0 :: rest))) :
    ∃ next, processLine fs conn = (.loop .ok, next) ∧
      next.readBuf = bytes "GET" ++ 0 :: (request.target ++ 0 :: (bytes "HTTP/1.1" ++ 0 :: 0 :: rest)) ∧
      next.checkedIdx = conn.checkedIdx ∧ next.startLine = conn.checkedIdx ∧ next.checkState = .header ∧
      next.contentLength = conn.contentLength ∧
      ∃ offset ≤ request.target.length, next.url = some (4 + offset) ∧ str next.readBuf (4 + offset) = request.path := by
  obtain ⟨offset, version, parsed, within, path⟩ :=
    parseRequestLine_request { conn with startLine := conn.checkedIdx } wellFormed rest buf
  have body : processLine fs conn =
      (.loop .ok, (parseRequestLine { conn with startLine := conn.checkedIdx } 0).2) := by
    unfold processLine
    dsimp only
    split
    · rw [start, parsed]
      rfl
    · rename_i inHeader
      simp [state] at inHeader
    · rename_i inBody
      simp [state] at inBody
  rw [parsed] at body
  exact ⟨_, body, rfl, rfl, rfl, rfl, rfl, offset, within, rfl, path⟩

/-- A request that is in the buffer as a whole is carried out when its last byte has
been parsed, on the path it names. -/
theorem processRead_request (fs : FileSystem) (conn : HttpConn) (wellFormed : request.WellFormed) :
    ∃ final, processRead fs (conn.init.extend request.encode) = doRequest fs final ∧
      (final.url.map (str final.readBuf)).getD [] = request.path ∧ final.checkedIdx = request.encode.length ∧
      final.checkState = .header ∧ final.linger = true := by
  have plainLine : ∀ byte ∈ bytes "GET" ++ 32 :: (request.target ++ 32 :: bytes "HTTP/1.1"), plain byte = true := by
    intro byte member
    simp only [List.mem_append, List.mem_cons] at member
    rcases member with word | rfl | target | rfl | word
    · exact List.all_eq_true.mp (show (bytes "GET").all plain = true by decide) byte word
    · decide
    · exact (wellFormed.target byte target).1
    · decide
    · exact List.all_eq_true.mp (show (bytes "HTTP/1.1").all plain = true by decide) byte word
  have buf : (conn.init.extend request.encode).readBuf = [] ++
      ((bytes "GET" ++ 32 :: (request.target ++ 32 :: bytes "HTTP/1.1")) ++
        13 :: 10 :: GetRequest.headerBytes request.headers) := by
    simp [HttpConn.extend, HttpConn.init, GetRequest.encode, crlf]
  have line := (loopCondition_head (show (conn.init.extend request.encode).checkState ≠ .connect by
    simp [HttpConn.extend, HttpConn.init]) .ok).trans (parseLine_line buf rfl plainLine)
  obtain ⟨next, body, bufNext, checkedNext, startNext, stateNext, lengthNext, offset, within, url, path⟩ :=
    processLine_request fs { conn.init.extend request.encode with
      readBuf := [] ++ ((bytes "GET" ++ 32 :: (request.target ++ 32 :: bytes "HTTP/1.1")) ++
        0 :: 0 :: GetRequest.headerBytes request.headers)
      checkedIdx := ([] : List UInt8).length +
        (bytes "GET" ++ 32 :: (request.target ++ 32 :: bytes "HTTP/1.1")).length + 2 }
      wellFormed (GetRequest.headerBytes request.headers) rfl rfl (by simp)
  rw [processRead, processReadLoop_continue line body]
  have split : next.readBuf = (bytes "GET" ++ 0 :: (request.target ++ 0 :: (bytes "HTTP/1.1" ++ [0, 0]))) ++
      GetRequest.headerBytes request.headers := by
    simp [bufNext]
  generalize found : bytes "GET" ++ 0 :: (request.target ++ 0 :: (bytes "HTTP/1.1" ++ [0, 0])) = parsed at split
  have length : parsed.length = next.checkedIdx := by
    simp [← found, checkedNext]
    omega
  have ends : Terminated parsed (4 + offset) := by
    have rest : parsed.drop (4 + offset) = request.target.drop offset ++ 0 :: (bytes "HTTP/1.1" ++ [0, 0]) := by
      rw [← found, ← List.drop_drop]
      exact List.drop_append_of_le_length within
    simp [Terminated, rest]
  obtain ⟨final, result, sameUrl, ⟨more, bufFinal⟩, checked, state, linger⟩ := processReadLoop_headers fs next parsed
    request.headers .ok wellFormed.headers split length.symm (startNext.trans (checkedNext.symm.trans length.symm))
    stateNext lengthNext
  refine ⟨final, result, ?_, ?_, state, linger (.inr wellFormed.keepAlive)⟩
  · rw [split, ends.str_append] at path
    simp [sameUrl, url, bufFinal, ends.str_append, path]
  · simp [checked, readIdx, bufNext, GetRequest.encode, crlf]

end UnixProgramming.Pool

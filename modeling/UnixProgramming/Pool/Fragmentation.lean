import UnixProgramming.Pool.HttpConn

/-! The parser gives the same answer however the request was cut into chunks. What
has been parsed is closed off by NULs in the buffer, so bytes that arrive later
change nothing about it; what has not been parsed is scanned again from a place
where the scan of the longer buffer would have come along too. -/

namespace UnixProgramming.Pool.HttpConn

open UnixProgramming.Lib

/-- More bytes behind those read so far. -/
def extend (conn : HttpConn) (more : List UInt8) : HttpConn := { conn with readBuf := conn.readBuf ++ more }

/-! ## One line -/

section Line
variable {buf : List UInt8} {checked unchecked : Nat}

/-- A complete line is found the same in a longer buffer. -/
theorem parseLineLoop_ok_append (more : List UInt8) (bound : checked + unchecked = buf.length)
    (found : (parseLineLoop unchecked buf checked).1 = .ok) :
    parseLineLoop (unchecked + more.length) (buf ++ more) checked =
      (.ok, (parseLineLoop unchecked buf checked).2.1 ++ more, (parseLineLoop unchecked buf checked).2.2) := by
  induction unchecked generalizing checked with
  | zero => simp [parseLineLoop] at found
  | succ unchecked ih =>
    have here : (buf ++ more).getD checked 0 = buf.getD checked 0 := by
      simp [List.getElem?_append_left (show checked < buf.length by omega)]
    have before : (buf ++ more).getD (checked - 1) 0 = buf.getD (checked - 1) 0 := by
      simp [List.getElem?_append_left (show checked - 1 < buf.length by omega)]
    rw [show unchecked + 1 + more.length = unchecked + more.length + 1 by omega]
    unfold parseLineLoop at found ⊢
    dsimp only at found ⊢
    rw [here, before]
    by_cases isCr : buf.getD checked 0 = 13
    · simp only [isCr, if_true] at found ⊢
      by_cases atEnd : checked + 1 = buf.length
      · simp [atEnd] at found
      · have next : (buf ++ more).getD (checked + 1) 0 = buf.getD (checked + 1) 0 := by
          simp [List.getElem?_append_left (show checked + 1 < buf.length by omega)]
        have notEnd : checked + 1 ≠ (buf ++ more).length := by simp; omega
        simp only [atEnd, notEnd, if_false, next] at found ⊢
        split_ifs at found ⊢ with isLf
        rw [List.set_append_left _ _ (by omega), List.set_append_left _ _ (by simp; omega)]
    · simp only [isCr, if_false] at found ⊢
      by_cases isLf : buf.getD checked 0 = 10
      · simp only [isLf, if_true] at found ⊢
        split_ifs at found ⊢ with afterCr
        rw [List.set_append_left _ _ (by omega), List.set_append_left _ _ (by simp; omega)]
      · simp only [isLf, if_false] at found ⊢
        exact ih (by omega) found

/-- An incomplete or bad line leaves the buffer alone, and a scan of a longer
buffer comes by the place where the scan stopped. -/
theorem parseLineLoop_resume (more : List UInt8) (bound : checked + unchecked = buf.length)
    (missing : (parseLineLoop unchecked buf checked).1 ≠ .ok) :
    (parseLineLoop unchecked buf checked).2.1 = buf ∧
      parseLineLoop (unchecked + more.length) (buf ++ more) checked =
        parseLineLoop (buf.length + more.length - (parseLineLoop unchecked buf checked).2.2) (buf ++ more)
          (parseLineLoop unchecked buf checked).2.2 := by
  induction unchecked generalizing checked with
  | zero =>
    have atEnd : checked = buf.length := by omega
    simp [parseLineLoop, atEnd]
  | succ unchecked ih =>
    have stays : unchecked + 1 + more.length = buf.length + more.length - checked := by omega
    have here : (buf ++ more).getD checked 0 = buf.getD checked 0 := by
      simp [List.getElem?_append_left (show checked < buf.length by omega)]
    by_cases isCr : buf.getD checked 0 = 13
    · have stopped : (parseLineLoop (unchecked + 1) buf checked).2 = (buf, checked) := by
        unfold parseLineLoop at missing ⊢
        simp only [isCr, if_true] at missing ⊢
        split_ifs at missing ⊢ <;> simp_all
      simp [stopped, stays]
    · by_cases isLf : buf.getD checked 0 = 10
      · have stopped : (parseLineLoop (unchecked + 1) buf checked).2 = (buf, checked) := by
          unfold parseLineLoop at missing ⊢
          simp only [isLf, if_true] at missing ⊢
          split_ifs at missing ⊢ <;> simp_all
        simp [stopped, stays]
      · have goes : parseLineLoop (unchecked + 1) buf checked = parseLineLoop unchecked buf (checked + 1) := by
          rw [parseLineLoop]
          simp only [isCr, isLf, if_false]
        have goesOn : parseLineLoop (unchecked + 1 + more.length) (buf ++ more) checked =
            parseLineLoop (unchecked + more.length) (buf ++ more) (checked + 1) := by
          rw [show unchecked + 1 + more.length = unchecked + more.length + 1 by omega, parseLineLoop]
          simp only [here, isCr, isLf, if_false]
        rw [goes] at missing ⊢
        rw [goesOn]
        exact ih (by omega) missing

/-- A complete line ends in a NUL written over its line feed. -/
theorem parseLineLoop_terminated {pointer : Nat} (bound : checked + unchecked = buf.length)
    (behind : pointer ≤ checked) (found : (parseLineLoop unchecked buf checked).1 = .ok) :
    Terminated (parseLineLoop unchecked buf checked).2.1 pointer := by
  induction unchecked generalizing checked with
  | zero => simp [parseLineLoop] at found
  | succ unchecked ih =>
    unfold parseLineLoop at found ⊢
    dsimp only at found ⊢
    split_ifs at found ⊢
    · exact terminated_set (by omega) (by simp; omega)
    · exact terminated_set behind (by simp; omega)
    · exact ih (by omega) (by omega) found

/-- `parse_line` writes nothing but NULs. -/
theorem parseLineLoop_keeps {pointer : Nat} (ends : Terminated buf pointer) :
    Terminated (parseLineLoop unchecked buf checked).2.1 pointer := by
  induction unchecked generalizing checked with
  | zero => exact ends
  | succ unchecked ih =>
    unfold parseLineLoop
    dsimp only
    split_ifs
    · exact ends
    · exact (ends.set _).set _
    · exact ends
    · exact (ends.set _).set _
    · exact ends
    · exact ih

end Line

/-- The indices are in order and the strings the connection points at are closed
off by NULs. -/
structure Sound (conn : HttpConn) : Prop where
  start : conn.startLine ≤ conn.checkedIdx
  checked : conn.checkedIdx ≤ conn.readIdx
  url : ∀ pointer, conn.url = some pointer → Terminated conn.readBuf pointer
  host : ∀ pointer, conn.host = some pointer → Terminated conn.readBuf pointer

variable {conn next : HttpConn}

theorem Sound.extend (sound : Sound conn) (more : List UInt8) : Sound (conn.extend more) where
  start := sound.start
  checked := by
    have checked := sound.checked
    simp only [HttpConn.extend, readIdx, List.length_append] at *
    omega
  url := fun pointer same => (sound.url pointer same).append more
  host := fun pointer same => (sound.host pointer same).append more

theorem Sound.parseLine_ok_extend (sound : Sound conn) (found : conn.parseLine = (.ok, next))
    (more : List UInt8) : (conn.extend more).parseLine = (.ok, next.extend more) := by
  unfold parseLine at found
  simp only [Prod.mk.injEq] at found
  obtain ⟨status, rfl⟩ := found
  have bound : conn.checkedIdx + (conn.readIdx - conn.checkedIdx) = conn.readBuf.length :=
    Nat.add_sub_cancel' sound.checked
  have longer := parseLineLoop_ok_append more bound status
  have amount : (conn.extend more).readIdx - conn.checkedIdx =
      conn.readIdx - conn.checkedIdx + more.length := by
    have checked := sound.checked
    simp only [HttpConn.extend, readIdx, List.length_append] at *
    omega
  unfold parseLine
  rw [show (conn.extend more).checkedIdx = conn.checkedIdx from rfl, amount,
    show (conn.extend more).readBuf = conn.readBuf ++ more from rfl, longer]
  rfl

theorem Sound.parseLine_resume (sound : Sound conn) {status : LineStatus}
    (found : conn.parseLine = (status, next)) (missing : status ≠ .ok) (more : List UInt8) :
    Sound next ∧ next.checkState = conn.checkState ∧
      (conn.extend more).parseLine = (next.extend more).parseLine := by
  unfold parseLine at found
  simp only [Prod.mk.injEq] at found
  obtain ⟨same, rfl⟩ := found
  rw [← same] at missing
  have bound : conn.checkedIdx + (conn.readIdx - conn.checkedIdx) = conn.readBuf.length :=
    Nat.add_sub_cancel' sound.checked
  obtain ⟨unchanged, resumed⟩ := parseLineLoop_resume more bound missing
  have reached := parseLineLoop_checked _ _ _ bound
  have checked := sound.checked
  refine ⟨⟨sound.start.trans reached.1, ?_, ?_, ?_⟩, rfl, ?_⟩
  · exact reached.2.1.trans_eq (congrArg List.length unchanged.symm)
  · exact fun pointer held => parseLineLoop_keeps (sound.url pointer held)
  · exact fun pointer held => parseLineLoop_keeps (sound.host pointer held)
  · unfold parseLine
    simp only [HttpConn.extend, readIdx, List.length_append, unchanged] at *
    rw [show conn.readBuf.length + more.length - conn.checkedIdx =
      conn.readBuf.length - conn.checkedIdx + more.length by omega, resumed]

theorem Sound.parseLine (sound : Sound conn) (found : conn.parseLine = (.ok, next)) :
    Sound next ∧ next.checkState = conn.checkState ∧ next.startLine = conn.startLine ∧
      Terminated next.readBuf next.startLine := by
  have progress := parseLine_ok found
  unfold HttpConn.parseLine at found
  simp only [Prod.mk.injEq] at found
  obtain ⟨status, rfl⟩ := found
  refine ⟨⟨sound.start.trans progress.1.le, progress.2.1, ?_, ?_⟩, rfl, rfl, ?_⟩
  · exact fun pointer held => parseLineLoop_keeps (sound.url pointer held)
  · exact fun pointer held => parseLineLoop_keeps (sound.host pointer held)
  · exact parseLineLoop_terminated (Nat.add_sub_cancel' sound.checked) sound.start status

/-! ## The parsers of single lines -/

theorem requestTarget_terminated {buf : List UInt8} {url target : Nat} (ends : Terminated buf url)
    (found : requestTarget buf url = some target) : Terminated buf target := by
  unfold requestTarget at found
  split_ifs at found with absolute
  · obtain ⟨offset, slash, rfl⟩ := Option.map_eq_some_iff.mp found
    have scheme := ends.advance (length_of_caseEqualUpTo absolute (by decide))
    exact scheme.advance (strchr_lt slash).le
  · exact Option.some.inj found ▸ ends

theorem requestTarget_append {buf : List UInt8} {url : Nat} (ends : Terminated buf url)
    (more : List UInt8) : requestTarget (buf ++ more) url = requestTarget buf url := by
  unfold requestTarget
  rw [ends.str_append]
  split_ifs with absolute
  · rw [(ends.advance (length_of_caseEqualUpTo absolute (by decide))).str_append]
  · rfl

theorem parseVersion_extend (conn : HttpConn) {url version : Nat} (urlEnds : Terminated conn.readBuf url)
    (versionEnds : Terminated conn.readBuf version) (more : List UInt8) :
    parseVersion (conn.extend more) url version =
      ((parseVersion conn url version).1, (parseVersion conn url version).2.extend more) := by
  unfold parseVersion
  simp only [HttpConn.extend, versionEnds.str_append, requestTarget_append urlEnds]
  split
  · cases found : requestTarget conn.readBuf url with
    | none => rfl
    | some target =>
      dsimp only
      rw [(requestTarget_terminated urlEnds found).getD_append]
      split <;> rfl
  · rfl

theorem Sound.parseVersion (sound : Sound conn) {url : Nat} (ends : Terminated conn.readBuf url)
    (version : Nat) : Sound (parseVersion conn url version).2 := by
  have target : ∀ pointer, requestTarget conn.readBuf url = some pointer → Terminated conn.readBuf pointer :=
    fun pointer found => requestTarget_terminated ends found
  unfold HttpConn.parseVersion
  dsimp only
  split
  · split
    · exact ⟨sound.start, sound.checked, target, sound.host⟩
    · split
      · exact ⟨sound.start, sound.checked, target, sound.host⟩
      · exact ⟨sound.start, sound.checked, target, sound.host⟩
  · exact sound

/-- A separator of the line overwritten by a NUL, with the pointer set behind it. -/
theorem Sound.cut (sound : Sound conn) (position : Nat) {url : Option Nat}
    (ends : ∀ pointer, url = some pointer → Terminated conn.readBuf pointer) (method : Method)
    (version : Option Nat) : Sound { conn with
      readBuf := conn.readBuf.set position 0, url := url, method := method, version := version } where
  start := sound.start
  checked := by simpa [readIdx] using sound.checked
  url := fun pointer held => (ends pointer held).set position
  host := fun pointer held => (sound.host pointer held).set position

theorem parseUrl_extend (conn : HttpConn) {url : Nat} (ends : Terminated conn.readBuf url) (more : List UInt8) :
    parseUrl (conn.extend more) url = ((parseUrl conn url).1, (parseUrl conn url).2.extend more) := by
  have start := ends.advance (blanks_le _)
  unfold parseUrl
  simp only [HttpConn.extend, ends.str_append, start.str_append]
  cases found : firstBlank (str conn.readBuf (url + blanks (str conn.readBuf url))) with
  | none => rfl
  | some offset =>
    have inside := firstBlank_lt found
    have version := start.advance (show offset + 1 ≤ _ from inside)
    have bound : url + blanks (str conn.readBuf url) + offset < conn.readBuf.length := by
      have length := str_length_le conn.readBuf (url + blanks (str conn.readBuf url))
      omega
    dsimp only
    rw [List.set_append_left _ _ bound]
    have ended := version.set (url + blanks (str conn.readBuf url) + offset)
    rw [show url + blanks (str conn.readBuf url) + (offset + 1) = url + blanks (str conn.readBuf url) + offset + 1
      by omega] at ended
    rw [ended.str_append]
    exact parseVersion_extend { conn with
      readBuf := conn.readBuf.set (url + blanks (str conn.readBuf url) + offset) 0
      url := _
      version := _ } (start.set _) (ended.advance (blanks_le _)) more

theorem Sound.parseUrl (sound : Sound conn) {url : Nat} (ends : Terminated conn.readBuf url) :
    Sound (parseUrl conn url).2 := by
  have start := ends.advance (blanks_le _)
  have moved : ∀ pointer, some (url + blanks (str conn.readBuf url)) = some pointer →
      Terminated conn.readBuf pointer := fun pointer same => Option.some.inj same ▸ start
  unfold HttpConn.parseUrl
  dsimp only
  split
  · exact ⟨sound.start, sound.checked, moved, sound.host⟩
  · exact (sound.cut _ moved _ _).parseVersion (start.set _) _

theorem parseRequestLine_extend (conn : HttpConn) {text : Nat} (ends : Terminated conn.readBuf text) (more : List UInt8) :
    parseRequestLine (conn.extend more) text =
      ((parseRequestLine conn text).1, (parseRequestLine conn text).2.extend more) := by
  unfold parseRequestLine
  simp only [HttpConn.extend, ends.str_append]
  cases found : firstBlank (str conn.readBuf text) with
  | none => rfl
  | some offset =>
    have inside := firstBlank_lt found
    have url := ends.advance (show offset + 1 ≤ _ from inside)
    have bound : text + offset < conn.readBuf.length := by
      have length := str_length_le conn.readBuf text
      omega
    dsimp only
    simp only [List.set_append_left _ _ bound, (ends.set _).str_append]
    split
    · exact parseUrl_extend { conn with
        readBuf := conn.readBuf.set (text + offset) 0
        url := _
        method := _ } (url.set _) more
    · rfl

theorem Sound.parseRequestLine (sound : Sound conn) {text : Nat} (ends : Terminated conn.readBuf text) :
    Sound (parseRequestLine conn text).2 := by
  unfold HttpConn.parseRequestLine
  dsimp only
  split
  · exact ⟨sound.start, sound.checked, by simp, sound.host⟩
  · rename_i offset found
    have url : Terminated conn.readBuf (text + offset + 1) :=
      ends.advance (show offset + 1 ≤ _ from firstBlank_lt found)
    have held : ∀ pointer, some (text + offset + 1) = some pointer → Terminated conn.readBuf pointer :=
      fun pointer same => Option.some.inj same ▸ url
    split
    · exact (sound.cut _ held _ _).parseUrl (url.set _)
    · exact sound.cut _ held _ _

/-- The value of a header, behind its name and the blanks. -/
theorem header_value {buf : List UInt8} {text count : Nat} {name : List UInt8} (ends : Terminated buf text)
    (named : caseEqualUpTo count (str buf text) name = true) (enough : count ≤ name.length) :
    Terminated buf (text + count) ∧ Terminated buf (text + count + blanks (str buf (text + count))) := by
  have behind := ends.advance (length_of_caseEqualUpTo named enough)
  exact ⟨behind, behind.advance (blanks_le _)⟩

theorem paresHeaders_extend (conn : HttpConn) {text : Nat} (ends : Terminated conn.readBuf text) (more : List UInt8) :
    paresHeaders (conn.extend more) text =
      ((paresHeaders conn text).1, (paresHeaders conn text).2.extend more) := by
  have unchanged : ∀ {count : Nat} {name : List UInt8},
      caseEqualUpTo count (str conn.readBuf text) name = true → count ≤ name.length →
      str (conn.readBuf ++ more) (text + count) = str conn.readBuf (text + count) ∧
      str (conn.readBuf ++ more) (text + count + blanks (str conn.readBuf (text + count))) =
        str conn.readBuf (text + count + blanks (str conn.readBuf (text + count))) := by
    intro count name named enough
    obtain ⟨behind, value⟩ := header_value ends named enough
    exact ⟨behind.str_append more, value.str_append more⟩
  unfold paresHeaders
  simp only [HttpConn.extend, ends.str_append]
  by_cases blank : str conn.readBuf text = []
  · by_cases body : conn.contentLength = 0 <;> simp [blank, body]
  · simp only [blank, if_false]
    by_cases connection : caseEqualUpTo 11 (str conn.readBuf text) (bytes "Connection:") = true
    · obtain ⟨behind, value⟩ := unchanged connection (by decide)
      simp only [connection, if_true, behind, value]
      split_ifs <;> rfl
    · by_cases length : caseEqualUpTo 15 (str conn.readBuf text) (bytes "Content-Length:") = true
      · obtain ⟨behind, value⟩ := unchanged length (by decide)
        simp only [connection, length, if_true, behind, value]
        rfl
      · by_cases host : caseEqualUpTo 5 (str conn.readBuf text) (bytes "Host:") = true
        · obtain ⟨behind, -⟩ := unchanged host (by decide)
          simp only [connection, length, host, if_true, behind]
          rfl
        · simp only [connection, length, host]
          rfl

theorem Sound.paresHeaders (sound : Sound conn) {text : Nat} (ends : Terminated conn.readBuf text) :
    Sound (paresHeaders conn text).2 := by
  have same : ∀ state linger length, Sound { conn with
      checkState := state, linger := linger, contentLength := length } :=
    fun _ _ _ => ⟨sound.start, sound.checked, sound.url, sound.host⟩
  unfold HttpConn.paresHeaders
  dsimp only
  split
  · split
    · exact same _ _ _
    · exact sound
  · split
    · split
      · exact same _ _ _
      · exact sound
    · split
      · exact same _ _ _
      · split
        · rename_i named
          obtain ⟨-, value⟩ := header_value ends named (by decide)
          exact ⟨sound.start, sound.checked, sound.url, fun pointer held => Option.some.inj held ▸ value⟩
        · exact sound

theorem doRequest_extend (fs : FileSystem) (sound : Sound conn) (more : List UInt8) :
    doRequest fs (conn.extend more) = ((doRequest fs conn).1, (doRequest fs conn).2.extend more) := by
  have url : ((conn.extend more).url.map (str (conn.extend more).readBuf)).getD [] =
      (conn.url.map (str conn.readBuf)).getD [] := by
    cases pointer : conn.url with
    | none => simp [HttpConn.extend, pointer]
    | some url => simp [HttpConn.extend, pointer, (sound.url url pointer).str_append]
  unfold doRequest
  rw [url]
  dsimp only
  cases fs.stat (realPath ((conn.url.map (str conn.readBuf)).getD [])) with
  | none => rfl
  | some stat =>
    dsimp only
    split_ifs <;> rfl

theorem Sound.doRequest (fs : FileSystem) (sound : Sound conn) : Sound (doRequest fs conn).2 := by
  unfold HttpConn.doRequest
  dsimp only
  repeat' split
  all_goals exact ⟨sound.start, sound.checked, sound.url, sound.host⟩

theorem doRequest_checkState (fs : FileSystem) (conn : HttpConn) :
    (doRequest fs conn).2.checkState = conn.checkState := by
  unfold doRequest
  dsimp only
  repeat' split
  all_goals rfl

theorem doRequest_code (fs : FileSystem) (conn : HttpConn) : (doRequest fs conn).1 ≠ .noRequest := by
  unfold doRequest
  dsimp only
  repeat' split
  all_goals simp

/-! ## The main loop -/

variable {fs : FileSystem}

theorem Sound.processLine_extend (fs : FileSystem) (sound : Sound conn) (ends : Terminated conn.readBuf conn.startLine)
    (head : conn.checkState ≠ .connect) (more : List UInt8) :
    processLine fs (conn.extend more) = ((processLine fs conn).1, (processLine fs conn).2.extend more) := by
  have moved : Sound { conn with startLine := conn.checkedIdx } :=
    ⟨le_rfl, sound.checked, sound.url, sound.host⟩
  unfold processLine
  cases state : conn.checkState with
  | requestLine =>
    have line := parseRequestLine_extend { conn with startLine := conn.checkedIdx } ends more
    simp only [HttpConn.extend, state] at line ⊢
    rw [line]
    dsimp only
    split_ifs <;> rfl
  | header =>
    have line := paresHeaders_extend { conn with startLine := conn.checkedIdx } ends more
    have request := doRequest_extend fs (moved.paresHeaders ends) more
    simp only [HttpConn.extend, state] at line request ⊢
    rw [line]
    dsimp only
    rw [request]
    split_ifs <;> rfl
  | connect => exact (head state).elim

theorem Sound.processLine (fs : FileSystem) (sound : Sound conn) (ends : Terminated conn.readBuf conn.startLine)
    (head : conn.checkState ≠ .connect) : Sound (processLine fs conn).2 := by
  have moved : Sound { conn with startLine := conn.checkedIdx } :=
    ⟨le_rfl, sound.checked, sound.url, sound.host⟩
  unfold HttpConn.processLine
  cases state : conn.checkState with
  | requestLine =>
    have parsed := moved.parseRequestLine ends
    rw [state] at parsed
    dsimp only
    split_ifs <;> exact parsed
  | header =>
    have parsed := moved.paresHeaders ends
    have request := parsed.doRequest fs
    rw [state] at parsed request
    dsimp only
    split_ifs
    · exact parsed
    · exact request
    · exact parsed
  | connect => exact (head state).elim

/-- What the loop body returns is a result. -/
theorem processLine_return {code : HttpCode} (body : processLine fs conn = (.done code, next)) :
    code ≠ .noRequest := by
  unfold processLine at body
  dsimp only at body
  split at body
  · split_ifs at body <;> cases body
    decide
  · split_ifs at body <;> cases body
    · decide
    · exact doRequest_code fs _
  · split_ifs at body <;> cases body
    exact doRequest_code fs _

theorem processLine_status {status : LineStatus} (body : processLine fs conn = (.loop status, next))
    (head : conn.checkState ≠ .connect) : status = .ok := by
  unfold processLine at body
  dsimp only at body
  split at body
  · split_ifs at body <;> cases body
    rfl
  · split_ifs at body <;> cases body
    rfl
  · exact (head ‹_›).elim

theorem processLine_connect (inBody : conn.checkState = .connect) :
    (HttpConn.processLine fs conn).2.checkState = .connect := by
  unfold HttpConn.processLine HttpConn.paresContent
  simp only [inBody]
  split_ifs <;> simp [doRequest_checkState]

theorem loopCondition_head (head : conn.checkState ≠ .connect) (status : LineStatus) :
    conn.loopCondition status = conn.parseLine := by
  simp [loopCondition, head]

theorem loopCondition_checkState (conn : HttpConn) (status : LineStatus) :
    (conn.loopCondition status).2.checkState = conn.checkState := by
  unfold loopCondition
  split_ifs <;> rfl

section Unfold
variable {status after : LineStatus} {ready : HttpConn} {code : HttpCode}

theorem processReadLoop_return (condition : conn.loopCondition status = (.ok, ready))
    (body : HttpConn.processLine fs ready = (.done code, next)) :
    processReadLoop fs conn status = (code, next) := by
  rw [processReadLoop]
  grind

theorem processReadLoop_continue (condition : conn.loopCondition status = (.ok, ready))
    (body : HttpConn.processLine fs ready = (.loop after, next)) :
    processReadLoop fs conn status = processReadLoop fs next after := by
  rw [processReadLoop]
  grind

theorem processReadLoop_stop (condition : conn.loopCondition status = (after, next)) (stopped : after ≠ .ok) :
    processReadLoop fs conn status = (.noRequest, next) := by
  rw [processReadLoop]
  grind

end Unfold

/-- The parser never leaves the body of a request. -/
theorem processReadLoop_connect (conn : HttpConn) (status : LineStatus) (inBody : conn.checkState = .connect) :
    (processReadLoop fs conn status).2.checkState = .connect := by
  fun_induction processReadLoop fs conn status with
  | case1 conn status ready condition code next body =>
    have kept := loopCondition_checkState conn status
    rw [condition, inBody] at kept
    have stays : (HttpConn.processLine fs ready).2.checkState = .connect := processLine_connect kept
    rwa [body] at stays
  | case2 conn status ready condition after next body ih =>
    have kept := loopCondition_checkState conn status
    rw [condition, inBody] at kept
    have stays : (HttpConn.processLine fs ready).2.checkState = .connect := processLine_connect kept
    rw [body] at stays
    exact ih stays
  | case3 conn status found next other condition =>
    have kept := loopCondition_checkState conn status
    rwa [condition, inBody] at kept

/-- One iteration of the loop on a request line or header, together with the same
iteration on a longer buffer: both return the same result, both go on from the
same place, or the shorter one stops where the longer one still has to look. -/
theorem Sound.iteration (fs : FileSystem) (sound : Sound conn) (head : conn.checkState ≠ .connect)
    (status : LineStatus) :
    (∃ code next, code ≠ .noRequest ∧ Sound next ∧ processReadLoop fs conn status = (code, next) ∧
      ∀ more, processReadLoop fs (conn.extend more) status = (code, next.extend more)) ∨
    (∃ next, next.loopMeasure .ok < conn.loopMeasure status ∧ Sound next ∧
      processReadLoop fs conn status = processReadLoop fs next .ok ∧
      ∀ more, processReadLoop fs (conn.extend more) status = processReadLoop fs (next.extend more) .ok) ∨
    (∃ next, Sound next ∧ next.checkState = conn.checkState ∧
      processReadLoop fs conn status = (.noRequest, next) ∧
      ∀ more, processReadLoop fs (conn.extend more) status = processReadLoop fs (next.extend more) status) := by
  have scan : conn.loopCondition status = conn.parseLine := loopCondition_head head status
  have scanMore : ∀ more, (conn.extend more).loopCondition status = (conn.extend more).parseLine :=
    fun more => loopCondition_head (show (conn.extend more).checkState ≠ .connect from head) status
  cases line : conn.parseLine with
  | mk found ready =>
    by_cases complete : found = .ok
    · subst complete
      obtain ⟨readySound, sameState, -, ends⟩ := sound.parseLine line
      have readyHead : ready.checkState ≠ .connect := sameState ▸ head
      have nextSound := readySound.processLine fs ends readyHead
      cases body : HttpConn.processLine fs ready with
      | mk result next =>
        rw [body] at nextSound
        have bodyMore : ∀ more, HttpConn.processLine fs (ready.extend more) = (result, next.extend more) := by
          intro more
          rw [readySound.processLine_extend fs ends readyHead, body]
        have lineMore : ∀ more, (conn.extend more).loopCondition status = (.ok, ready.extend more) :=
          fun more => (scanMore more).trans (sound.parseLine_ok_extend line more)
        cases result with
        | done code =>
          exact .inl ⟨code, next, processLine_return body, nextSound,
            processReadLoop_return (scan.trans line) body,
            fun more => processReadLoop_return (lineMore more) (bodyMore more)⟩
        | loop after =>
          obtain rfl := processLine_status body readyHead
          exact .inr (.inl ⟨next, loopMeasure_lt (scan.trans line) body, nextSound,
            processReadLoop_continue (scan.trans line) body,
            fun more => processReadLoop_continue (lineMore more) (bodyMore more)⟩)
    · refine .inr (.inr ⟨ready, (sound.parseLine_resume line complete []).1,
        (sound.parseLine_resume line complete []).2.1, processReadLoop_stop (scan.trans line) complete, ?_⟩)
      intro more
      obtain ⟨-, sameState, resumed⟩ := sound.parseLine_resume line complete more
      have readyHead : (ready.extend more).checkState ≠ .connect := fun same => head (sameState.symm.trans same)
      rw [processReadLoop, processReadLoop, scanMore more, loopCondition_head readyHead, resumed]

/-- A longer buffer takes the parser at least as far: if it got to the body of the
request, it gets there again. -/
theorem Sound.connect_extend {conn : HttpConn} (sound : Sound conn) (status : LineStatus)
    (inBody : (processReadLoop fs conn status).2.checkState = .connect) (more : List UInt8) :
    (processReadLoop fs (conn.extend more) status).2.checkState = .connect := by
  by_cases head : conn.checkState = .connect
  · exact processReadLoop_connect _ _ head
  · rcases sound.iteration fs head status with ⟨code, next, -, -, ends, endsMore⟩ |
      ⟨next, less, nextSound, goes, goesMore⟩ | ⟨next, -, sameState, stops, -⟩
    · rw [endsMore]
      rwa [ends] at inBody
    · rw [goesMore]
      exact nextSound.connect_extend .ok (goes ▸ inBody) more
    · rw [stops] at inBody
      exact (head (sameState.symm.trans inBody)).elim
termination_by conn.loopMeasure status

/-- How the parser of the longer buffer goes on where that of the shorter one ended. -/
theorem Sound.processReadLoop_extend {conn : HttpConn} (sound : Sound conn) (status : LineStatus)
    (noBody : (processReadLoop fs conn status).2.checkState ≠ .connect) (more : List UInt8) :
    Sound (processReadLoop fs conn status).2 ∧
      ((processReadLoop fs conn status).1 = .noRequest →
        processReadLoop fs (conn.extend more) status =
          processReadLoop fs ((processReadLoop fs conn status).2.extend more) .ok) ∧
      ((processReadLoop fs conn status).1 ≠ .noRequest →
        processReadLoop fs (conn.extend more) status =
          ((processReadLoop fs conn status).1, (processReadLoop fs conn status).2.extend more)) := by
  have head : conn.checkState ≠ .connect := fun inBody => noBody (processReadLoop_connect _ _ inBody)
  rcases sound.iteration fs head status with ⟨code, next, isResult, nextSound, ends, endsMore⟩ |
    ⟨next, less, nextSound, goes, goesMore⟩ | ⟨next, nextSound, sameState, stops, stopsMore⟩
  · rw [ends, endsMore]
    exact ⟨nextSound, fun waiting => (isResult waiting).elim, fun _ => rfl⟩
  · rw [goes, goesMore]
    exact nextSound.processReadLoop_extend .ok (goes ▸ noBody) more
  · rw [stops, stopsMore]
    refine ⟨nextSound, fun _ => ?_, fun isResult => (isResult rfl).elim⟩
    have nextHead : (next.extend more).checkState ≠ .connect := fun inBody => head (sameState.symm.trans inBody)
    rw [processReadLoop, processReadLoop, loopCondition_head nextHead, loopCondition_head nextHead]
termination_by conn.loopMeasure status

/-! ## Requests in chunks -/

/-- What a request has come to: the result, and the members that say what was
asked for. -/
structure Outcome where
  code : HttpCode
  url : Option (List UInt8)
  host : Option (List UInt8)
  linger : Bool
  realFile : List UInt8
deriving DecidableEq, Repr

def outcome (parsed : HttpCode × HttpConn) : Option Outcome :=
  if parsed.1 = .noRequest then none
  else some ⟨parsed.1, parsed.2.url.map (str parsed.2.readBuf), parsed.2.host.map (str parsed.2.readBuf),
    parsed.2.linger, parsed.2.realFile⟩

/-- Successive arrivals, each given by what the `recv` calls of one `read()` return,
with one `process_read()` after each, up to the first result. -/
def receive (fs : FileSystem) (conn : HttpConn) : List (List Recv) → Option Outcome
  | [] => none
  | arrival :: rest =>
    let (readable, conn) := conn.read arrival
    if readable then
      let parsed := processRead fs conn
      match outcome parsed with
      | some result => some result
      | none => receive fs parsed.2 rest
    else none

theorem Sound.outcome_extend (code : HttpCode) (sound : Sound conn) (more : List UInt8) :
    outcome (code, conn.extend more) = outcome (code, conn) := by
  have url : (conn.extend more).url.map (str (conn.extend more).readBuf) = conn.url.map (str conn.readBuf) := by
    cases pointer : conn.url with
    | none => simp [HttpConn.extend, pointer]
    | some url => simp [HttpConn.extend, pointer, (sound.url url pointer).str_append]
  have host : (conn.extend more).host.map (str (conn.extend more).readBuf) = conn.host.map (str conn.readBuf) := by
    cases pointer : conn.host with
    | none => simp [HttpConn.extend, pointer]
    | some host => simp [HttpConn.extend, pointer, (sound.host host pointer).str_append]
  simp only [outcome, url, host]
  rfl

theorem extend_nil (conn : HttpConn) : conn.extend [] = conn := by simp [HttpConn.extend]

theorem extend_extend (conn : HttpConn) (first second : List UInt8) :
    (conn.extend first).extend second = conn.extend (first ++ second) := by
  simp [HttpConn.extend]

theorem readIdx_extend (conn : HttpConn) (more : List UInt8) :
    (conn.extend more).readIdx = conn.readIdx + more.length := by
  simp [HttpConn.extend, readIdx]

theorem loopCondition_readIdx (conn : HttpConn) (status : LineStatus) :
    (conn.loopCondition status).2.readIdx = conn.readIdx := by
  unfold loopCondition
  split_ifs
  · rfl
  · exact parseLineLoop_length _ _ _

/-- Parsing changes no number of bytes read. -/
theorem processReadLoop_readIdx (conn : HttpConn) (status : LineStatus) :
    (processReadLoop fs conn status).2.readIdx = conn.readIdx := by
  fun_induction processReadLoop fs conn status with
  | case1 conn status ready condition code next body =>
    have scanned := loopCondition_readIdx conn status
    have parsed := processLine_indices fs ready
    rw [condition] at scanned
    rw [body] at parsed
    exact (congrArg Prod.fst parsed).trans scanned
  | case2 conn status ready condition after next body ih =>
    have scanned := loopCondition_readIdx conn status
    have parsed := processLine_indices fs ready
    rw [condition] at scanned
    rw [body] at parsed
    exact ih.trans ((congrArg Prod.fst parsed).trans scanned)
  | case3 conn status found next other condition =>
    have scanned := loopCondition_readIdx conn status
    rwa [condition] at scanned

/-- `read()` takes in everything that has arrived while there is room for it. -/
theorem read_extend (conn : HttpConn) (pieces : List (List UInt8)) (nonempty : ∀ piece ∈ pieces, piece ≠ [])
    (room : conn.readIdx + pieces.flatten.length < readBufferSize) :
    conn.read (pieces.map .data) = (true, conn.extend pieces.flatten) := by
  have loop : conn.readLoop (pieces.map .data) = (true, conn.extend pieces.flatten) := by
    induction pieces generalizing conn with
    | nil => simp [readLoop, extend_nil]
    | cons piece rest ih =>
      rw [List.flatten_cons, List.length_append] at room
      have whole : piece.take (readBufferSize - conn.readIdx) = piece := List.take_of_length_le (by omega)
      have next := ih (conn.extend piece) (fun other member => nonempty other (by simp [member]))
        (by rw [readIdx_extend]; omega)
      rw [extend_extend] at next
      rw [List.map_cons, readLoop]
      simp only [whole, nonempty piece List.mem_cons_self, if_false]
      exact next
  unfold HttpConn.read
  rw [if_neg (by omega), loop]

/-- From a connection with nothing to report, arrivals in any pieces give what the
bytes of all of them give at once. -/
theorem Sound.receive_eq (sound : Sound conn) (arrivals : List (List (List UInt8)))
    (nonempty : ∀ arrival ∈ arrivals, ∀ piece ∈ arrival, piece ≠ [])
    (quiet : (processRead fs conn).1 = .noRequest)
    (room : conn.readIdx + arrivals.flatten.flatten.length < readBufferSize)
    (noBody : (processRead fs (conn.extend arrivals.flatten.flatten)).2.checkState ≠ .connect) :
    receive fs conn (arrivals.map fun arrival => arrival.map .data) =
      outcome (processRead fs (conn.extend arrivals.flatten.flatten)) := by
  induction arrivals generalizing conn with
  | nil => simp [receive, outcome, extend_nil, quiet]
  | cons arrival rest ih =>
    simp only [List.flatten_cons, List.flatten_append, List.length_append] at room noBody ⊢
    rw [← extend_extend] at noBody ⊢
    have taken := read_extend conn arrival (nonempty arrival (by simp)) (by omega)
    have arrived := sound.extend arrival.flatten
    have noBodyYet : (processRead fs (conn.extend arrival.flatten)).2.checkState ≠ .connect :=
      fun inBody => noBody (arrived.connect_extend .ok inBody _)
    obtain ⟨parsedSound, goesOn, ends⟩ :=
      arrived.processReadLoop_extend .ok noBodyYet rest.flatten.flatten
    rw [List.map_cons, receive]
    simp only [taken, if_true]
    by_cases waiting : (processRead fs (conn.extend arrival.flatten)).1 = .noRequest
    · have again := (arrived.processReadLoop_extend .ok noBodyYet []).2.1 waiting
      rw [extend_nil, extend_nil] at again
      have later := goesOn waiting
      simp only [processRead] at *
      simp only [outcome, waiting, if_true]
      rw [later] at noBody ⊢
      refine ih parsedSound (fun other member => nonempty other (by simp [member])) ?_ ?_ noBody
      · rw [← again]
        exact waiting
      · rw [processReadLoop_readIdx, readIdx_extend]
        omega
    · have later := ends waiting
      simp only [processRead] at *
      rw [later, parsedSound.outcome_extend]
      simp [outcome, waiting]

theorem Sound.init (conn : HttpConn) : Sound conn.init where
  start := le_rfl
  checked := Nat.zero_le _
  url := by simp [HttpConn.init]
  host := by simp [HttpConn.init]

theorem processRead_init (fs : FileSystem) (conn : HttpConn) : (processRead fs conn.init).1 = .noRequest := by
  have stopped : conn.init.loopCondition .ok = (.open, conn.init) := rfl
  rw [processRead, processReadLoop_stop stopped (by decide)]

/-- However the bytes of a request arrive, in pieces and over calls, the first
result and what was asked for are those of the whole arriving at once, as long as
the parser does not get to a request body. -/
theorem receive_fragmentation_independent (fs : FileSystem) (conn : HttpConn)
    (arrivals : List (List (List UInt8))) (nonempty : ∀ arrival ∈ arrivals, ∀ piece ∈ arrival, piece ≠ [])
    (someByte : arrivals.flatten.flatten ≠ []) (short : arrivals.flatten.flatten.length ≤ 2047)
    (noBody : (processRead fs (conn.init.read [.data arrivals.flatten.flatten]).2).2.checkState ≠ .connect) :
    receive fs conn.init (arrivals.map fun arrival => arrival.map .data) =
      receive fs conn.init [[.data arrivals.flatten.flatten]] := by
  have room : conn.init.readIdx + arrivals.flatten.flatten.length < readBufferSize := by
    have fresh : conn.init.readIdx = 0 := rfl
    unfold readBufferSize
    omega
  have whole := read_extend conn.init [arrivals.flatten.flatten] (by simpa using someByte) (by simpa using room)
  simp only [List.map_cons, List.map_nil, List.flatten_cons, List.flatten_nil, List.append_nil] at whole
  rw [whole] at noBody
  have pieces := (Sound.init conn).receive_eq arrivals nonempty (processRead_init fs conn) room noBody
  have single := (Sound.init conn).receive_eq [[arrivals.flatten.flatten]] (by simpa using someByte)
    (processRead_init fs conn) (by simpa using room) (by simpa using noBody)
  simp only [List.map_cons, List.map_nil, List.flatten_cons, List.flatten_nil, List.append_nil] at single
  rw [pieces, single]

/-- A request cut inside its URL and between CR and LF. -/
theorem receive_fragmentation_independent_cut :
    receive ⟨fun _ => none, fun _ => none⟩ zeroed.init
        [[.data (bytes "GET /a")], [.data (bytes "b HTTP/1.1\r"), .data (bytes "\nHost: h\r\n")], [.data (bytes "\r\n")]] =
      some ⟨.noResource, some (bytes "/ab"), some (bytes "h"), false, bytes "./ab"⟩ := by
  have same := receive_fragmentation_independent ⟨fun _ => none, fun _ => none⟩ zeroed
    [[bytes "GET /a"], [bytes "b HTTP/1.1\r", bytes "\nHost: h\r\n"], [bytes "\r\n"]]
    (by decide) (by decide) (by decide) (by decide +kernel)
  refine Eq.trans same ?_
  decide +kernel

end UnixProgramming.Pool.HttpConn

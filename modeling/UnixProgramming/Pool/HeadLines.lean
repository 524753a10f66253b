import UnixProgramming.Lib.Run
import UnixProgramming.Pool.LineScan
import UnixProgramming.Pool.RequestLine

/-! The parser by the lines it has accepted. Where it stands after some calls is given by the
bytes received and by how many complete lines they begin with that were accepted; the buffer
itself holds those bytes with NULs written into them. -/

namespace UnixProgramming.Pool

open UnixProgramming.Lib

/-- The length of the body after a header line. -/
def lengthAfter (text : List UInt8) (length : Int) : Int :=
  if caseEqualUpTo 11 text (bytes "Connection:") then length
  else if caseEqualUpTo 15 text (bytes "Content-Length:") then atoi ((text.drop 15).dropWhile isBlank)
  else length

/-- What a complete line does to the state and to the length of the body; none when it is
rejected or completes the request. A line counts up to its first NUL. -/
def acceptLine (state : CheckState × Int) (line : List UInt8) : Option (CheckState × Int) :=
  match state.1 with
  | .requestLine => if ∃ path, RequestLine (str line 0) path then some (.header, state.2) else none
  | .header =>
    if str line 0 = [] then if state.2 ≠ 0 then some (.connect, state.2) else none
    else some (.header, lengthAfter (str line 0) state.2)
  | .connect => none

/-- The lines are accepted, one after another, and lead to a state and a length. -/
def Accepted (lines : List (List UInt8)) (state : CheckState) (length : Int) : Prop :=
  (∀ line ∈ lines, ∀ byte ∈ line, inLine byte = true) ∧
    run acceptLine (.requestLine, 0) lines = some (state, length)

/-- The bytes of complete lines. -/
def encodeLines (lines : List (List UInt8)) : List UInt8 := (lines.map (· ++ [13, 10])).flatten

@[simp] theorem encodeLines_nil : encodeLines [] = [] := rfl

theorem encodeLines_append (lines more : List (List UInt8)) :
    encodeLines (lines ++ more) = encodeLines lines ++ encodeLines more := by simp [encodeLines]

theorem encodeLines_cons (line : List UInt8) (lines : List (List UInt8)) :
    encodeLines (line :: lines) = line ++ 13 :: 10 :: encodeLines lines := by simp [encodeLines]

theorem Accepted.nil : Accepted [] .requestLine 0 := ⟨by simp, rfl⟩

theorem Accepted.snoc {lines : List (List UInt8)} {line : List UInt8} {state after : CheckState} {length later : Int}
    (accepted : Accepted lines state length) (plain : ∀ byte ∈ line, inLine byte = true)
    (accepts : acceptLine (state, length) line = some (after, later)) : Accepted (lines ++ [line]) after later := by
  refine ⟨fun other member => ?_, run_append_some.mpr ⟨_, accepted.2, run_cons_some.mpr ⟨_, accepts, rfl⟩⟩⟩
  rcases List.mem_append.mp member with old | new
  · exact accepted.1 other old
  · exact List.mem_singleton.mp new ▸ plain

/-- The line behind some accepted lines was accepted in its turn. -/
theorem Accepted.next {lines more : List (List UInt8)} {line : List UInt8} {state after : CheckState}
    {length later : Int} (accepted : Accepted lines state length)
    (longer : Accepted (lines ++ line :: more) after later) :
    ∃ middle, acceptLine (state, length) line = some middle ∧ run acceptLine middle more = some (after, later) := by
  obtain ⟨first, here, there⟩ := run_append_some.mp longer.2
  cases accepted.2.symm.trans here
  exact run_cons_some.mp there

theorem Accepted.unique {lines : List (List UInt8)} {state other : CheckState} {length later : Int}
    (accepted : Accepted lines state length) (also : Accepted lines other later) : state = other ∧ length = later := by
  cases accepted.2.symm.trans also.2
  exact ⟨rfl, rfl⟩

/-- Nothing is accepted behind the blank line. -/
theorem Accepted.last {lines more : List (List UInt8)} {after : CheckState} {length later : Int}
    (accepted : Accepted lines .connect length) (longer : Accepted (lines ++ more) after later) : more = [] := by
  cases more with
  | nil => rfl
  | cons line more =>
    obtain ⟨middle, accepts, -⟩ := accepted.next longer
    cases accepts

/-- Without a body there is nothing to wait for behind the blank line. -/
theorem Accepted.nonzero {lines : List (List UInt8)} {length : Int} (accepted : Accepted lines .connect length) :
    length ≠ 0 := by
  rcases List.eq_nil_or_concat lines with rfl | ⟨lines, line, rfl⟩
  · cases accepted.2
  · rw [List.concat_eq_append] at accepted
    obtain ⟨⟨state, count⟩, -, last⟩ := run_append_some.mp accepted.2
    obtain ⟨final, accepts, same⟩ := run_cons_some.mp last
    obtain rfl := Option.some.inj same
    unfold acceptLine at accepts
    split at accepts
    · split_ifs at accepts
      cases accepts
    · split_ifs at accepts with blank some
      · cases accepts
        exact some
      · cases accepts
    · cases accepts

/-- Of two ways to read complete lines off the same bytes one goes further. -/
theorem lines_comparable {lines other : List (List UInt8)} {rest tail : List UInt8}
    (plain : ∀ line ∈ lines, ∀ byte ∈ line, inLine byte = true)
    (plainOther : ∀ line ∈ other, ∀ byte ∈ line, inLine byte = true)
    (same : encodeLines lines ++ rest = encodeLines other ++ tail) :
    (∃ more, lines = other ++ more ∧ tail = encodeLines more ++ rest) ∨
      ∃ more, other = lines ++ more ∧ rest = encodeLines more ++ tail := by
  induction lines generalizing other with
  | nil => exact .inr ⟨other, rfl, by simpa using same⟩
  | cons line lines ih =>
    cases other with
    | nil => exact .inl ⟨line :: lines, rfl, by simpa using same.symm⟩
    | cons first other =>
      rw [encodeLines_cons, encodeLines_cons, List.append_assoc, List.append_assoc] at same
      obtain ⟨plainLine, plainLines⟩ := List.forall_mem_cons.mp plain
      obtain ⟨plainFirst, plainRest⟩ := List.forall_mem_cons.mp plainOther
      obtain ⟨rfl, -, behind⟩ := word_unique plainLine plainFirst (by decide) (by decide) same
      rcases ih plainLines plainRest (by simpa using behind) with ⟨more, rfl, tail⟩ | ⟨more, rfl, rest⟩
      · exact .inl ⟨more, rfl, tail⟩
      · exact .inr ⟨more, rfl, rest⟩

/-! ## Writing NULs -/

/-- The second buffer is the first one with NULs written over some bytes. -/
def Blanked (buffer other : List UInt8) : Prop :=
  other.length = buffer.length ∧ ∀ index, other.getD index 0 = 0 ∨ other.getD index 0 = buffer.getD index 0

theorem Blanked.refl (buffer : List UInt8) : Blanked buffer buffer := ⟨rfl, fun _ => .inr rfl⟩

theorem Blanked.trans {first second third : List UInt8} (before : Blanked first second)
    (after : Blanked second third) : Blanked first third := by
  refine ⟨after.1.trans before.1, fun index => ?_⟩
  rcases after.2 index with zero | same
  · exact .inl zero
  · rw [same]
    exact before.2 index

theorem Blanked.set (buffer : List UInt8) (position : Nat) : Blanked buffer (buffer.set position 0) := by
  refine ⟨List.length_set .., fun index => ?_⟩
  rw [List.getD_eq_getElem?_getD, List.getD_eq_getElem?_getD, List.getElem?_set]
  split_ifs
  · exact .inl rfl
  · exact .inl rfl
  · exact .inr rfl

/-- A byte other than NUL that is there afterwards was there before. -/
theorem Blanked.getD_ne {buffer other : List UInt8} (blanked : Blanked buffer other) {index : Nat} {byte : UInt8}
    (nonzero : byte ≠ 0) (absent : buffer.getD index 0 ≠ byte) : other.getD index 0 ≠ byte := by
  rcases blanked.2 index with zero | same
  · rw [zero]
    exact nonzero.symm
  · rwa [same]

namespace HttpConn

/-- The scan of a complete line writes NULs over its end and stands behind it. -/
theorem Facing.cut {conn : HttpConn} {base : Nat} {rest line after : List UInt8} (facing : conn.Facing base rest)
    (complete : Complete rest line after) :
    Facing { conn with
      readBuf := (conn.readBuf.set (base + line.length) 0).set (base + line.length + 1) 0
      checkedIdx := base + line.length + 2 } (base + line.length + 2) after ∧
    ∃ front, (conn.readBuf.set (base + line.length) 0).set (base + line.length + 1) 0 =
      front ++ (line ++ 0 :: 0 :: after) ∧ front.length = base := by
  obtain ⟨plain, rfl⟩ := complete
  obtain ⟨front, whole, length⟩ : ∃ front, conn.readBuf = front ++ (line ++ 13 :: 10 :: after) ∧
      front.length = base := by
    refine ⟨conn.readBuf.take base, ?_, List.length_take_of_le facing.inside⟩
    rw [← facing.buffer, List.take_append_drop]
  have written : (conn.readBuf.set (base + line.length) 0).set (base + line.length + 1) 0 =
      front ++ (line ++ 0 :: 0 :: after) := by
    rw [whole, ← length]
    simp [Nat.add_assoc]
  have regrouped : front ++ (line ++ 0 :: 0 :: after) = (front ++ (line ++ [0, 0])) ++ after := by simp
  have size : (front ++ (line ++ [0, 0])).length = base + line.length + 2 := by
    rw [← length]
    simp [Nat.add_assoc]
  refine ⟨⟨?_, ?_, ⟨[], after, rfl, by simp, rfl⟩, fun index below => ?_⟩, front, written, length⟩
  · rw [readIdx, written, regrouped, List.length_append, size]
    exact Nat.le_add_right _ _
  · rw [written, regrouped]
    exact List.drop_left' size
  · by_cases early : index < base + line.length
    · exact ((Blanked.set _ _).trans (.set _ _)).getD_ne (by decide) (facing.clean_word plain early)
    · have last : index = front.length + line.length ∨ index = front.length + (line.length + 1) := by omega
      dsimp only
      rw [written]
      rcases last with rfl | rfl
      · simp
      · simp

theorem parseVersion_readBuf (conn : HttpConn) (url version : Nat) :
    (conn.parseVersion url version).2.readBuf = conn.readBuf := by
  unfold parseVersion
  dsimp only
  repeat' split
  all_goals rfl

theorem parseUrl_blanked (conn : HttpConn) (url : Nat) : Blanked conn.readBuf (conn.parseUrl url).2.readBuf := by
  unfold parseUrl
  dsimp only
  split
  · exact .refl _
  · rw [parseVersion_readBuf]
    exact .set _ _

theorem parseRequestLine_blanked (conn : HttpConn) (text : Nat) :
    Blanked conn.readBuf (conn.parseRequestLine text).2.readBuf := by
  unfold parseRequestLine
  split
  · exact .refl _
  · next offset _ =>
    dsimp only
    split_ifs
    · exact (Blanked.set conn.readBuf (text + offset)).trans (parseUrl_blanked _ _)
    · exact .set _ _

theorem parseRequestLine_contentLength (conn : HttpConn) (text : Nat) :
    (conn.parseRequestLine text).2.contentLength = conn.contentLength := by
  unfold parseRequestLine parseUrl parseVersion
  dsimp only
  repeat' split
  all_goals rfl

/-- The part of a header line that matters here. -/
theorem paresHeaders_line_cases (conn : HttpConn) (text : Nat) :
    (conn.paresHeaders text).2.readBuf = conn.readBuf ∧
      (conn.paresHeaders text).2.contentLength = lengthAfter (str conn.readBuf text) conn.contentLength ∧
      (str conn.readBuf text ≠ [] →
        (conn.paresHeaders text).1 = .noRequest ∧ (conn.paresHeaders text).2.checkState = conn.checkState) := by
  unfold paresHeaders lengthAfter
  dsimp only
  by_cases empty : str conn.readBuf text = []
  · rw [if_pos empty, empty]
    split_ifs
    all_goals simp_all [caseEqualUpTo, caseEqual, bytes]
  · rw [if_neg empty]
    split_ifs with connection keep length host
    · simp
    · simp
    · rw [str_value length (by decide)]
      simp
    · simp
    · simp

/-! ## Where the parser stands -/

/-- The parser is behind the lines it has accepted, and has scanned a part of the rest. -/
structure At (conn : HttpConn) (received : List UInt8) (lines : List (List UInt8)) (rest : List UInt8) : Prop where
  received : received = encodeLines lines ++ rest
  accepted : Accepted lines conn.checkState conn.contentLength
  start : conn.startLine = (encodeLines lines).length
  facing : conn.Facing conn.startLine rest

variable {conn ready next : HttpConn} {received rest line after : List UInt8} {lines : List (List UInt8)}
  {fs : FileSystem}

/-- A line has been cut out of the buffer. -/
structure Cut (ready : HttpConn) (line after : List UInt8) : Prop where
  buffer : ∃ front, ready.readBuf = front ++ (line ++ 0 :: 0 :: after) ∧ front.length = ready.startLine
  checked : ready.checkedIdx = ready.startLine + line.length + 2
  clean : ∀ index < ready.checkedIdx, ready.readBuf.getD index 0 ≠ 13

theorem At.cut (place : conn.At received lines rest) (complete : Complete rest line after) :
    ∃ ready, conn.parseLine = (.ok, ready) ∧ ready.Cut line after ∧ ready.checkState = conn.checkState ∧
      ready.contentLength = conn.contentLength ∧ ready.startLine = conn.startLine := by
  obtain ⟨facing, buffer⟩ := place.facing.cut complete
  exact ⟨_, place.facing.parseLine_complete complete, ⟨buffer, rfl, facing.clean⟩, rfl, rfl, rfl⟩

/-- The buffer up to the end of the line, which ends the string in it, and what is behind. -/
theorem Cut.front (cut : ready.Cut line after) :
    ∃ front, ready.readBuf = front ++ after ∧ front.length = ready.checkedIdx ∧ Terminated front ready.startLine := by
  obtain ⟨front, buffer, start⟩ := cut.buffer
  refine ⟨front ++ (line ++ [0, 0]), by simpa using buffer, ?_, ?_⟩
  · rw [cut.checked, ← start]
    simp [Nat.add_assoc]
  · rw [Terminated, ← start, List.drop_left]
    simp

/-- The string that the parsers of lines get to see. -/
theorem Cut.text (cut : ready.Cut line after) : str ready.readBuf ready.startLine = str line 0 := by
  obtain ⟨front, buffer, length⟩ := cut.buffer
  rw [str, str, buffer, ← length, List.drop_left, List.drop_zero, List.takeWhile_append]
  split_ifs with all
  · rw [List.takeWhile_cons_of_neg (by simp), List.append_nil]
    exact (List.IsPrefix.eq_of_length (List.takeWhile_prefix _) all).symm
  · rfl

/-- The request line is parsed without a look at what is behind it. -/
theorem parseRequestLine_behind (conn : HttpConn) {text : Nat} {front after : List UInt8}
    (buffer : conn.readBuf = front ++ after) (ends : Terminated front text) :
    (conn.parseRequestLine text).2.readBuf.drop front.length = after := by
  have whole : conn = HttpConn.extend { conn with readBuf := front } after := by
    simp only [HttpConn.extend, ← buffer]
  have length : (parseRequestLine { conn with readBuf := front } text).2.readBuf.length = front.length :=
    congrArg Prod.fst (parseRequestLine_indices { conn with readBuf := front } text)
  have longer := parseRequestLine_extend { conn with readBuf := front } ends after
  rw [← whole] at longer
  rw [longer]
  exact List.drop_left' length

theorem Cut.facing (cut : ready.Cut line after) (next : HttpConn) (blanked : Blanked ready.readBuf next.readBuf)
    (behind : next.readBuf.drop ready.checkedIdx = after) (checked : next.checkedIdx = ready.checkedIdx) :
    next.Facing ready.checkedIdx after := by
  obtain ⟨front, buffer, size, -⟩ := cut.front
  refine ⟨?_, behind, ⟨[], after, rfl, by simp, checked⟩, fun index below => ?_⟩
  · rw [readIdx, blanked.1, buffer, List.length_append, size]
    exact Nat.le_add_right _ _
  · exact blanked.getD_ne (by decide) (cut.clean index below)

/-- What the loop body does with a line: it returns, or it goes on behind the line. -/
inductive Processed (fs : FileSystem) (ready : HttpConn) (after : List UInt8) : Option (CheckState × Int) → Prop where
  | done (code : HttpCode) (next : HttpConn) (body : processLine fs ready = (.done code, next)) :
    Processed fs ready after none
  | loop (next : HttpConn) (body : processLine fs ready = (.loop .ok, next))
    (start : next.startLine = ready.checkedIdx) (facing : next.Facing ready.checkedIdx after) :
    Processed fs ready after (some (next.checkState, next.contentLength))

theorem processLine_requestLine (state : ready.checkState = .requestLine) :
    processLine fs ready =
      (if ({ ready with startLine := ready.checkedIdx }.parseRequestLine ready.startLine).1 = .badRequest then
        (.done .badRequest, ({ ready with startLine := ready.checkedIdx }.parseRequestLine ready.startLine).2)
      else (.loop .ok, ({ ready with startLine := ready.checkedIdx }.parseRequestLine ready.startLine).2)) := by
  simp only [processLine, state]

theorem processLine_header (state : ready.checkState = .header)
    (nonempty : str ready.readBuf ready.startLine ≠ []) :
    processLine fs ready =
      (.loop .ok, ({ ready with startLine := ready.checkedIdx }.paresHeaders ready.startLine).2) := by
  obtain ⟨code, -⟩ := (paresHeaders_line_cases { ready with startLine := ready.checkedIdx } ready.startLine).2.2 nonempty
  simp only [state] at code
  simp [processLine, state, code]

theorem Cut.requestLine (cut : ready.Cut line after) (state : ready.checkState = .requestLine) :
    Processed fs ready after (acceptLine (.requestLine, ready.contentLength) line) := by
  have text : str { ready with startLine := ready.checkedIdx }.readBuf ready.startLine = str line 0 := cut.text
  have behind : ({ ready with startLine := ready.checkedIdx }.parseRequestLine ready.startLine).2.readBuf.drop
      ready.checkedIdx = after := by
    obtain ⟨front, buffer, size, ends⟩ := cut.front
    rw [← size]
    exact parseRequestLine_behind _ buffer ends
  have facing := cut.facing _ (parseRequestLine_blanked { ready with startLine := ready.checkedIdx } ready.startLine)
    behind (congrArg (·.2.1) (parseRequestLine_indices { ready with startLine := ready.checkedIdx } ready.startLine))
  have indices := parseRequestLine_indices { ready with startLine := ready.checkedIdx } ready.startLine
  have length := parseRequestLine_contentLength { ready with startLine := ready.checkedIdx } ready.startLine
  have answers := parseRequestLine_answers { ready with startLine := ready.checkedIdx } ready.startLine
  rw [text] at answers
  have body : processLine fs ready = _ := processLine_requestLine state
  generalize { ready with startLine := ready.checkedIdx }.parseRequestLine ready.startLine = result at *
  simp only [acceptLine]
  cases answers with
  | accepted path target is code header url found =>
    rw [if_neg (by rw [code]; decide)] at body
    rw [if_pos ⟨path, is⟩, ← header, ← length]
    exact .loop result.2 body (congrArg (·.2.2) indices) facing
  | rejected none code _ =>
    rw [if_pos code] at body
    rw [if_neg fun ⟨path, is⟩ => none path is]
    exact .done _ _ body

theorem Cut.header (cut : ready.Cut line after) (state : ready.checkState = .header) :
    Processed fs ready after (acceptLine (.header, ready.contentLength) line) := by
  have behind : ready.readBuf.drop ready.checkedIdx = after := by
    obtain ⟨front, buffer, size, -⟩ := cut.front
    rw [buffer, ← size, List.drop_left]
  have text : str { ready with startLine := ready.checkedIdx }.readBuf ready.startLine = str line 0 := cut.text
  by_cases blank : str line 0 = []
  · by_cases length : ready.contentLength = 0
    · have body : processLine fs ready = (.done (doRequest fs { ready with startLine := ready.checkedIdx }).1,
          (doRequest fs { ready with startLine := ready.checkedIdx }).2) := by
        simp [processLine, state, paresHeaders, text, blank, length]
      simp only [acceptLine, blank, length]
      exact .done _ _ body
    · have body : processLine fs ready =
          (.loop .ok, { ready with startLine := ready.checkedIdx, checkState := .connect }) := by
        simp [processLine, state, paresHeaders, text, blank, length]
      simp only [acceptLine, blank, ne_eq, length, not_false_eq_true, if_true]
      exact .loop _ body rfl (cut.facing _ (.refl _) behind rfl)
  · obtain ⟨buffer, length, goesOn⟩ := paresHeaders_line_cases { ready with startLine := ready.checkedIdx } ready.startLine
    have indices := paresHeaders_indices { ready with startLine := ready.checkedIdx } ready.startLine
    have body : processLine fs ready = _ := processLine_header state (by rwa [← cut.text] at blank)
    rw [text] at length goesOn
    obtain ⟨code, kept⟩ := goesOn blank
    generalize { ready with startLine := ready.checkedIdx }.paresHeaders ready.startLine = result at *
    simp only [acceptLine, blank, if_false]
    rw [← length, ← kept.trans state]
    refine .loop _ body (congrArg (·.2.2) indices) (cut.facing _ ?_ ?_ (congrArg (·.2.1) indices))
    · rw [buffer]
      exact .refl _
    · rw [buffer]
      exact behind

theorem Cut.process (cut : ready.Cut line after) (head : ready.checkState ≠ .connect) :
    Processed fs ready after (acceptLine (ready.checkState, ready.contentLength) line) := by
  cases state : ready.checkState with
  | requestLine => exact cut.requestLine state
  | header => exact cut.header state
  | connect => exact (head state).elim

/-- An iteration of the loop over a line that is accepted. -/
theorem At.accept (fs : FileSystem) (place : conn.At received lines rest) (head : conn.checkState ≠ .connect)
    (complete : Complete rest line after) {result : CheckState × Int}
    (accepts : acceptLine (conn.checkState, conn.contentLength) line = some result) :
    ∃ ready next, conn.parseLine = (.ok, ready) ∧ processLine fs ready = (.loop .ok, next) ∧
      next.At received (lines ++ [line]) after ∧ next.checkedIdx = next.startLine := by
  obtain ⟨ready, found, cut, state, length, start⟩ := place.cut complete
  have processed : Processed fs ready after (acceptLine (ready.checkState, ready.contentLength) line) :=
    cut.process (by rwa [state])
  rw [state, length, accepts] at processed
  obtain - | ⟨next, body, started, facing⟩ := processed
  have indices := processLine_indices fs ready
  rw [body] at indices
  have behind : ready.checkedIdx = (encodeLines (lines ++ [line])).length := by
    rw [cut.checked, start, place.start]
    simp [encodeLines_append, encodeLines_cons, Nat.add_assoc]
  refine ⟨ready, next, found, body, ⟨?_, place.accepted.snoc complete.1 accepts, started.trans behind, ?_⟩, ?_⟩
  · rw [place.received, complete.2]
    simp [encodeLines_append, encodeLines_cons]
  · rwa [started]
  · rw [started]
    exact congrArg (·.2.1) indices

/-- An iteration over a line that is rejected or completes the request. -/
theorem At.reject (fs : FileSystem) (place : conn.At received lines rest) (head : conn.checkState ≠ .connect)
    (complete : Complete rest line after) (rejects : acceptLine (conn.checkState, conn.contentLength) line = none) :
    ∃ ready code next, conn.parseLine = (.ok, ready) ∧ processLine fs ready = (.done code, next) := by
  obtain ⟨ready, found, cut, state, length, -⟩ := place.cut complete
  have processed : Processed fs ready after (acceptLine (ready.checkState, ready.contentLength) line) :=
    cut.process (by rwa [state])
  rw [state, length, rejects] at processed
  obtain ⟨code, next, body⟩ := processed
  exact ⟨ready, code, next, found, body⟩

/-- The scan of a line that is incomplete or malformed. -/
theorem At.stop (place : conn.At received lines rest) (stuck : Unfinished rest ∨ Malformed rest) :
    ∃ status next, status ≠ .ok ∧ conn.parseLine = (status, next) ∧ next.At received lines rest ∧
      next.checkState = conn.checkState := by
  obtain ⟨status, stopped, scanned⟩ := place.facing.parseLine_stop stuck
  exact ⟨status, _, stopped, scanned, ⟨place.received, place.accepted, place.start, place.facing.stopped⟩, rfl⟩

end HttpConn
end UnixProgramming.Pool

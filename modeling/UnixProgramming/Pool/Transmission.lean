import UnixProgramming.Pool.HttpResponse

/-! What the socket has taken when `write()` regards a response as sent. The iovecs
are not advanced after a short write, and half of the header is enough for the test
of completion, so only a response taken in one piece arrives as it is. -/

namespace UnixProgramming.Pool.HttpConn

open UnixProgramming.Lib

/-! ## Prepared responses -/

/-- The byte `H`, with which every response starts. -/
def letterH : UInt8 := 72

/-- The bytes start with `H` and have no other `H`. -/
def StartsOnce (text : List UInt8) : Prop := ∃ rest, text = letterH :: rest ∧ letterH ∉ rest

theorem StartsOnce.append {text more : List UInt8} (once : StartsOnce text) (other : letterH ∉ more) :
    StartsOnce (text ++ more) := by
  obtain ⟨rest, rfl, absent⟩ := once
  exact ⟨rest ++ more, rfl, by simp [absent, other]⟩

theorem letterH_not_mem_decimal (value : Int) : letterH ∉ decimal value := by
  have digits : letterH ∉ (Nat.toDigits 10 value.natAbs).map fun digit => UInt8.ofNat digit.toNat := by
    intro member
    obtain ⟨digit, isDigit, same⟩ := List.mem_map.mp member
    have range := toDigits_range isDigit
    have value := congrArg UInt8.toNat same
    rw [UInt8.toNat_ofNat', show letterH.toNat = 72 from rfl] at value
    omega
  unfold decimal
  rw [List.mem_append, not_or]
  refine ⟨?_, digits⟩
  split_ifs <;> decide

theorem addResponse_once {conn : HttpConn} {text : List UInt8} (once : StartsOnce conn.writeBuf)
    (other : letterH ∉ text) : StartsOnce (conn.addResponse text).2.writeBuf := by
  unfold addResponse
  split_ifs
  · exact once
  · exact once
  · exact once.append other

theorem addContentLength_once {conn : HttpConn} (once : StartsOnce conn.writeBuf) (length : Int) :
    StartsOnce (conn.addContentLength length).2.writeBuf := by
  unfold addContentLength
  refine addResponse_once once ?_
  simp only [List.mem_append, letterH_not_mem_decimal, or_false]
  decide

theorem addContent_once {conn : HttpConn} (once : StartsOnce conn.writeBuf) {content : List UInt8}
    (plain : letterH ∉ content) : StartsOnce (conn.addContent content).2.writeBuf := by
  unfold addContent
  exact addResponse_once once plain

theorem addLinger_once {conn : HttpConn} (once : StartsOnce conn.writeBuf) :
    StartsOnce conn.addLinger.2.writeBuf := by
  unfold addLinger
  refine addResponse_once once ?_
  split_ifs <;> decide

theorem addHeaders_once {conn : HttpConn} (once : StartsOnce conn.writeBuf) (length : Nat) :
    StartsOnce (conn.addHeaders length).writeBuf := by
  unfold addHeaders addBlankLine
  exact addResponse_once (addLinger_once (addContentLength_once once _)) (by decide)

/-- The status line is the first text in the buffer. -/
theorem addStatusLine_once {conn : HttpConn} (empty : conn.writeBuf = []) {status : Nat} {title : List UInt8}
    (plain : letterH ∉ title)
    (short : (bytes "HTTP/1.1 " ++ decimal status ++ bytes " " ++ title ++ bytes "\r\n").length <
      writeBufferSize - 1) : StartsOnce (conn.addStatusLine status title).2.writeBuf := by
  have version : StartsOnce (bytes "HTTP/1.1 ") := ⟨bytes "TTP/1.1 ", rfl, by decide⟩
  have line := ((version.append (letterH_not_mem_decimal status)).append
    (show letterH ∉ bytes " " by decide)).append plain |>.append (show letterH ∉ bytes "\r\n" by decide)
  unfold addStatusLine addResponse
  rw [empty, if_neg (by decide), List.length_nil, Nat.sub_zero, if_neg (Nat.not_le.mpr short)]
  exact line

theorem errorResponse_once {conn ready : HttpConn} (empty : conn.writeBuf = []) {status : Nat}
    {title form : List UInt8} (plain : letterH ∉ title) (plainForm : letterH ∉ form)
    (short : (bytes "HTTP/1.1 " ++ decimal status ++ bytes " " ++ title ++ bytes "\r\n").length <
      writeBufferSize - 1) (prepared : conn.errorResponse status title form = (true, ready)) :
    StartsOnce ready.writeBuf ∧ ready.iv = [.writeBuf ready.writeBuf.length] := by
  have header := addHeaders_once (addStatusLine_once empty plain short) form.length
  have whole := addContent_once header plainForm
  unfold errorResponse at prepared
  dsimp only at prepared
  generalize ((conn.addStatusLine status title).2.addHeaders form.length).addContent form = built at prepared whole
  obtain ⟨added, full⟩ := built
  cases added with
  | false => simp at prepared
  | true =>
    obtain rfl : _ = ready := (Prod.mk.inj prepared).2
    exact ⟨whole, rfl⟩

theorem fileResponse_once {conn ready : HttpConn} (empty : conn.writeBuf = [])
    (prepared : conn.fileResponse = (true, ready)) :
    StartsOnce ready.writeBuf ∧ ready.fileAddress = conn.fileAddress ∧
      ready.iv = [.writeBuf ready.writeBuf.length, .file conn.fileAddress conn.fileStat.size] := by
  have status : StartsOnce (conn.addStatusLine 200 ok200Title).2.writeBuf :=
    addStatusLine_once empty (by decide +kernel) (by decide +kernel)
  have built := addStatusLine_builds conn 200 ok200Title
  unfold fileResponse at prepared
  dsimp only at prepared
  generalize (conn.addStatusLine 200 ok200Title).2 = started at prepared status built
  split_ifs at prepared with nonempty
  swap
  · simp at prepared
  have header := addHeaders_once status started.fileStat.size
  have headed := built.trans (addHeaders_builds started started.fileStat.size)
  have sameStat : started.fileStat = conn.fileStat := by
    obtain ⟨_, _, rfl⟩ := built
    rfl
  rw [sameStat] at prepared header headed
  generalize started.addHeaders conn.fileStat.size = full at prepared header headed
  obtain ⟨buf, iv, rfl⟩ := headed
  obtain rfl : _ = ready := (Prod.mk.inj prepared).2
  exact ⟨header, rfl, rfl⟩

/-- The response a prepared connection holds: the header, and the file behind it. -/
def response (memory : Address → List UInt8) (conn : HttpConn) : HttpCode → List UInt8
  | .fileRequest => conn.writeBuf ++ memory conn.fileAddress
  | _ => conn.writeBuf

theorem processWrite_prepared {conn ready : HttpConn} {code : HttpCode} (memory : Address → List UInt8)
    (empty : conn.writeBuf = []) (prepared : conn.processWrite code = (true, ready))
    (mapped : code = .fileRequest → (memory conn.fileAddress).length = conn.fileStat.size) :
    StartsOnce ready.writeBuf ∧ ready.gather memory = ready.response memory code := by
  have failure : ∀ {status : Nat} {title form : List UInt8}, letterH ∉ title → letterH ∉ form →
      (bytes "HTTP/1.1 " ++ decimal status ++ bytes " " ++ title ++ bytes "\r\n").length < writeBufferSize - 1 →
      conn.errorResponse status title form = (true, ready) →
      StartsOnce ready.writeBuf ∧ ready.gather memory = ready.writeBuf := by
    intro status title form plain plainForm short built
    obtain ⟨once, iovecs⟩ := errorResponse_once empty plain plainForm short built
    exact ⟨once, by simp [gather, iovecs]⟩
  unfold processWrite at prepared
  split at prepared
  · exact failure (by decide +kernel) (by decide +kernel) (by decide +kernel) prepared
  · exact failure (by decide +kernel) (by decide +kernel) (by decide +kernel) prepared
  · exact failure (by decide +kernel) (by decide +kernel) (by decide +kernel) prepared
  · exact failure (by decide +kernel) (by decide +kernel) (by decide +kernel) prepared
  · obtain ⟨once, sameAddress, iovecs⟩ := fileResponse_once empty prepared
    exact ⟨once, by simp [gather, iovecs, response, sameAddress, ← mapped rfl]⟩
  · simp at prepared

/-! ## Sending -/

/-- The counts the socket took, in order. -/
def accepts (outcomes : List Writev) : List Nat :=
  outcomes.filterMap fun
    | .accepted count => some count
    | _ => none

/-- The calls of `write()` for one response, each with the outcomes of its `writev`
calls, up to the one that regards the response as sent: the bytes the socket took.
`EAGAIN` ends a call and the next `EPOLLOUT` starts another one. -/
def transmit (memory : Address → List UInt8) (conn : HttpConn) : List (List Writev) → Option (List UInt8)
  | [] => none
  | outcomes :: rest =>
    match conn.write memory outcomes with
    | some ⟨_, _, some .epollin, sent⟩ => if rest = [] then some sent else none
    | some ⟨_, next, some .epollout, sent⟩ => (transmit memory next rest).map (sent ++ ·)
    | _ => none

section Sending
variable {memory : Address → List UInt8} {conn : HttpConn}

/-- Every `writev` starts over at the first byte of the response. -/
theorem writeLoop_sent {outcomes : List Writev} {toSend haveSend : Int} {result : WriteResult}
    (called : writeLoop memory conn toSend haveSend outcomes = some result) :
    result.sent = ((accepts outcomes).map fun count => (conn.gather memory).take count).flatten ∧
      (result.armed = some .epollout → result.conn = conn) := by
  induction outcomes generalizing toSend haveSend result with
  | nil => simp [writeLoop] at called
  | cons outcome rest ih =>
    cases outcome with
    | again =>
      simp only [writeLoop] at called
      split_ifs at called with last
      cases called
      simp [accepts, last]
    | error =>
      simp only [writeLoop] at called
      split_ifs at called with last
      cases called
      simp [accepts, last]
    | accepted count =>
      simp only [writeLoop] at called
      split_ifs at called with done last keeps
      · cases called
        simp [accepts, last]
      · cases called
        simp [accepts, last]
      · obtain ⟨later, loop, rfl⟩ := Option.map_eq_some_iff.mp called
        obtain ⟨sent, kept⟩ := ih loop
        exact ⟨by simp [accepts, sent], kept⟩

/-- A call that goes on after its first short write has not got half of the header
through by it. -/
theorem writeLoop_first {outcomes : List Writev} {toSend : Int} {result : WriteResult} {count : Nat}
    {counts : List Nat} (called : writeLoop memory conn toSend 0 outcomes = some result)
    (counted : accepts outcomes = count :: counts) (goesOn : counts ≠ [] ∨ result.armed ≠ some .epollin) :
    2 * (count : Int) < toSend := by
  cases outcomes with
  | nil => simp [accepts] at counted
  | cons outcome rest =>
    cases outcome with
    | again =>
      simp only [writeLoop] at called
      split_ifs at called with last
      simp [accepts, last] at counted
    | error =>
      simp only [writeLoop] at called
      split_ifs at called with last
      simp [accepts, last] at counted
    | accepted first =>
      obtain ⟨rfl, others⟩ : first = count ∧ accepts rest = counts := by simpa [accepts] using counted
      simp only [writeLoop] at called
      split_ifs at called with done last keeps
      · cases called
        rcases goesOn with more | unfinished
        · exact (more (by rw [← others, last]; rfl)).elim
        · exact (unfinished rfl).elim
      · cases called
        rcases goesOn with more | unfinished
        · exact (more (by rw [← others, last]; rfl)).elim
        · exact (unfinished rfl).elim
      · omega

theorem writeLoop_finished {outcomes : List Writev} {toSend haveSend : Int} {result : WriteResult}
    (called : writeLoop memory conn toSend haveSend outcomes = some result)
    (finished : result.armed = some .epollin) : accepts outcomes ≠ [] := by
  induction outcomes generalizing toSend haveSend result with
  | nil => simp [writeLoop] at called
  | cons outcome rest ih =>
    cases outcome with
    | again =>
      simp only [writeLoop] at called
      split_ifs at called
      cases called
      simp at finished
    | error =>
      simp only [writeLoop] at called
      split_ifs at called
      cases called
      simp at finished
    | accepted count => simp [accepts]

/-- The bytes taken for a response, and what a first short write before the last one
says about its length. -/
theorem transmit_accepts (nonempty : conn.writeBuf ≠ []) {calls : List (List Writev)} {sent : List UInt8}
    (finished : transmit memory conn calls = some sent) :
    ∃ count counts, accepts calls.flatten = count :: counts ∧
      sent = ((count :: counts).map fun count => (conn.gather memory).take count).flatten ∧
      (counts ≠ [] → 2 * count < conn.writeBuf.length) := by
  have positive : conn.writeBuf.length ≠ 0 := fun zero => nonempty (List.length_eq_zero_iff.mp zero)
  induction calls generalizing sent with
  | nil => simp [transmit] at finished
  | cons outcomes rest ih =>
    rw [transmit, write, if_neg positive] at finished
    cases called : writeLoop memory conn conn.writeBuf.length 0 outcomes with
    | none => simp [called] at finished
    | some result =>
      obtain ⟨value, next, armed, taken⟩ := result
      obtain ⟨formula, kept⟩ := writeLoop_sent called
      simp only [called] at finished
      cases armed with
      | none => simp at finished
      | some interest =>
        have counted : accepts (outcomes :: rest).flatten = accepts outcomes ++ accepts rest.flatten := by
          simp [accepts, List.filterMap_append]
        cases interest with
        | epollin =>
          dsimp only at finished
          split_ifs at finished with last
          obtain rfl : taken = sent := Option.some.inj finished
          obtain ⟨count, counts, first⟩ := List.exists_cons_of_ne_nil (writeLoop_finished called rfl)
          refine ⟨count, counts, by simpa [last] using first, by rw [← first]; exact formula, fun more => ?_⟩
          have short := writeLoop_first called first (.inl more)
          omega
        | epollout =>
          dsimp only at formula
          obtain rfl : next = conn := kept rfl
          obtain ⟨later, goesOn, rfl⟩ := Option.map_eq_some_iff.mp finished
          obtain ⟨count, counts, first, sent, short⟩ := ih goesOn
          cases before : accepts outcomes with
          | nil =>
            refine ⟨count, counts, by rw [counted, before, first]; rfl, ?_, short⟩
            rw [formula, before, sent]
            rfl
          | cons earlier others =>
            refine ⟨earlier, others ++ count :: counts, by rw [counted, before, first]; rfl, ?_, fun _ => ?_⟩
            · rw [formula, before, sent]
              simp
            · have half := writeLoop_first called before (.inr (by simp))
              omega

end Sending

/-- A text sent in pieces that each start over is the text itself only when there is
one piece, provided the first of several pieces ends before a second `H` could
stand. -/
theorem restarted_eq_iff {text tail rest : List UInt8} (split : text = letterH :: rest ++ tail)
    (absent : letterH ∉ rest) {count : Nat} {counts : List Nat}
    (bounds : ∀ other ∈ count :: counts, 0 < other ∧ other ≤ text.length)
    (short : counts ≠ [] → 2 * count < rest.length + 1) :
    ((count :: counts).map fun count => text.take count).flatten = text ↔ count = text.length := by
  have positive := (bounds count (by simp)).1
  have atMost := (bounds count (by simp)).2
  constructor
  · intro same
    cases counts with
    | nil =>
      have lengths := congrArg List.length same
      simp only [List.map_cons, List.map_nil, List.flatten_cons, List.flatten_nil, List.append_nil,
        List.length_take] at lengths
      omega
    | cons second others =>
      have inside : count < rest.length + 1 := by
        have half := short (by simp)
        omega
      -- the byte after the first piece is the first byte of the second one
      have again := congrArg (fun bytes : List UInt8 => bytes[count]?) same
      have restarted : (text.take count ++ (text.take second ++
          (others.map fun count => text.take count).flatten))[count]? = some letterH := by
        rw [List.getElem?_append_right (by simp [atMost]), List.length_take, Nat.min_eq_left atMost, Nat.sub_self]
        have secondPositive := (bounds second (by simp)).1
        obtain ⟨more, rfl⟩ : ∃ more, second = more + 1 := ⟨second - 1, by omega⟩
        simp [split]
      have original : text[count]? = rest[count - 1]? := by
        obtain ⟨before, rfl⟩ : ∃ before, count = before + 1 := ⟨count - 1, by omega⟩
        rw [split, List.cons_append, List.getElem?_cons_succ, List.getElem?_append_left (by omega)]
        rfl
      simp only [List.map_cons, List.flatten_cons, restarted, original] at again
      exact (absent (List.mem_of_getElem? again.symm)).elim
  · intro whole
    have single : counts = [] := by
      by_contra more
      have half := short more
      simp only [split, List.length_append, List.length_cons] at whole
      omega
    simp [single, whole]

/-- A prepared response that `write()` regards as sent has arrived as it is exactly
when the first `writev` that got any byte through took all of it. Otherwise bytes
are missing, or the beginning was sent again. -/
theorem transmit_exact_iff (memory : Address → List UInt8) (conn ready : HttpConn) (code : HttpCode)
    (empty : conn.writeBuf = []) (prepared : conn.processWrite code = (true, ready))
    (mapped : code = .fileRequest → (memory conn.fileAddress).length = conn.fileStat.size)
    (calls : List (List Writev))
    (possible : ∀ count, .accepted count ∈ calls.flatten →
      0 < count ∧ count ≤ (ready.response memory code).length)
    (sent : List UInt8) (finished : transmit memory ready calls = some sent) :
    sent = ready.response memory code ↔
      (accepts calls.flatten).head? = some (ready.response memory code).length := by
  obtain ⟨⟨rest, header, absent⟩, gathered⟩ := processWrite_prepared memory empty prepared mapped
  obtain ⟨count, counts, first, formula, short⟩ := transmit_accepts (by simp [header]) finished
  have bounds : ∀ other ∈ count :: counts, 0 < other ∧ other ≤ (ready.response memory code).length := by
    intro other member
    rw [← first, accepts, List.mem_filterMap] at member
    obtain ⟨outcome, present, same⟩ := member
    cases outcome with
    | accepted number =>
      cases same
      exact possible _ present
    | again => cases same
    | error => cases same
  rw [gathered] at formula
  rw [first, List.head?_cons, Option.some.injEq, formula]
  have split : ready.response memory code =
      letterH :: rest ++ if code = .fileRequest then memory ready.fileAddress else [] := by
    rw [← header]
    cases code <;> simp [response]
  refine restarted_eq_iff split absent bounds fun more => ?_
  have half := short more
  rwa [header] at half

/-- A connection asked for a mapped file of five bytes. -/
def fiveBytes : HttpConn := { zeroed with fileAddress := .mapped 0, fileStat := ⟨5, true, false⟩ }

/-- After `EAGAIN` the whole response of 62 bytes is taken at once. -/
theorem transmit_exact_whole :
    ∃ sent, transmit (fun _ => bytes "hello") (fiveBytes.processWrite .fileRequest).2 [[.again], [.accepted 62]] =
        some sent ∧
      sent = (fiveBytes.processWrite .fileRequest).2.response (fun _ => bytes "hello") .fileRequest := by
  have possible : ∀ count, .accepted count ∈ [[Writev.again], [.accepted 62]].flatten → 0 < count ∧
      count ≤ ((fiveBytes.processWrite .fileRequest).2.response (fun _ => bytes "hello") .fileRequest).length := by
    intro count member
    obtain rfl : count = 62 := by simpa using member
    decide +kernel
  have finished : (transmit (fun _ => bytes "hello") (fiveBytes.processWrite .fileRequest).2
      [[.again], [.accepted 62]]).isSome = true := by decide +kernel
  obtain ⟨sent, taken⟩ := Option.isSome_iff_exists.mp finished
  exact ⟨sent, taken, (transmit_exact_iff (fun _ => bytes "hello") fiveBytes _ .fileRequest rfl
    (by decide +kernel) (by decide) _ possible sent taken).mpr (by decide +kernel)⟩

/-- A socket that takes 40 of the 62 bytes: `write()` is done with 22 bytes unsent. -/
theorem transmit_not_exact : ¬ ∀ (memory : Address → List UInt8) (conn ready : HttpConn) (code : HttpCode),
    conn.writeBuf = [] → conn.processWrite code = (true, ready) →
    (code = .fileRequest → (memory conn.fileAddress).length = conn.fileStat.size) →
    ∀ calls : List (List Writev), (∀ count, .accepted count ∈ calls.flatten →
      0 < count ∧ count ≤ (ready.response memory code).length) →
    ∀ sent, transmit memory ready calls = some sent → sent = ready.response memory code := by
  intro exact
  have possible : ∀ count, .accepted count ∈ [[Writev.accepted 40]].flatten → 0 < count ∧
      count ≤ ((fiveBytes.processWrite .fileRequest).2.response (fun _ => bytes "hello") .fileRequest).length := by
    intro count member
    obtain rfl : count = 40 := by simpa using member
    decide +kernel
  have finished : transmit (fun _ => bytes "hello") (fiveBytes.processWrite .fileRequest).2 [[.accepted 40]] =
      some (((fiveBytes.processWrite .fileRequest).2.response (fun _ => bytes "hello") .fileRequest).take 40) := by
    decide +kernel
  have sent := exact (fun _ => bytes "hello") fiveBytes _ .fileRequest rfl (by decide +kernel) (by decide)
    _ possible _ finished
  revert sent
  decide +kernel

end UnixProgramming.Pool.HttpConn

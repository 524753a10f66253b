import UnixProgramming.Pool.Session
import UnixProgramming.Pool.Transmission

/-! The discipline of `mmap` and `munmap` over the life of an `http_conn` object.
Only `write()` calls `unmap`, and `mmap` is not checked for failure, so the
discipline rests on every mapped response being handled by `write()` and on every
mapping succeeding. -/

namespace UnixProgramming.Pool

open UnixProgramming.Lib HttpConn

/-- The region mapped after one more call, given the one mapped before: `none` when
the call breaks the discipline. -/
def mapStep : Option (Nat × Nat) → MapCall → Option (Option (Nat × Nat))
  | region, .mmap none _ => some region
  | none, .mmap (some address) length => some (some (address, length))
  | some _, .mmap (some _) _ => none
  | some region, .munmap (.mapped address) length => if region = (address, length) then some none else none
  | _, .munmap _ _ => none
  | none, .newConnection => some none
  | some _, .newConnection => none

/-- The region an object has mapped after some calls, if they kept the discipline. -/
def regionAfter (calls : List MapCall) : Option (Option (Nat × Nat)) := calls.foldlM mapStep none

/-- Every region was unmapped once, as it was mapped, before the next mapping or
connection, and nothing else was unmapped. -/
def Disciplined (calls : List MapCall) : Prop := (regionAfter calls).isSome = true

theorem regionAfter_append (calls : List MapCall) (call : MapCall) :
    regionAfter (calls ++ [call]) = (regionAfter calls).bind (mapStep · call) := by
  simp [regionAfter, List.foldlM_append]

/-- The steps the discipline survives: a request for a file that is there maps a
non-empty region, and no hang-up finds a mapped response waiting to be sent. -/
def Careful (session : Session) : SessionEvent → Prop
  | .process fs => ∀ stat, fs.stat session.conn.requestedFile = some stat → stat.otherRead = true →
      stat.isDir = false → stat.size ≠ 0 ∧ (fs.mmap session.conn.requestedFile).isSome = true
  | .hangup => session.conn.fileAddress = .null
  | _ => True

/-- What is mapped agrees with `m_file_address` and `m_file_stat`, and a mapping is
there only while a response waits to be sent. -/
structure Tidy (session : Session) : Prop where
  region : ∃ region, regionAfter session.conn.mapCalls = some region ∧
    session.conn.fileAddress = (region.map fun mapped => Address.mapped mapped.1).getD .null ∧
    ∀ mapped, region = some mapped → session.conn.fileStat.size = mapped.2
  idle : session.phase ≠ .armed .epollout → session.conn.fileAddress = .null
  unwritten : session.phase = .armed .epollin ∨ session.phase = .queued → session.conn.writeBuf = []
  pending : session.phase = .armed .epollout → session.conn.writeBuf ≠ []

variable {session next : Session}

/-- With nothing mapped, the members of the connection beyond the mapping matter
only through the write buffer. -/
theorem Tidy.unmapped {conn : HttpConn} {phase : Phase} (calls : regionAfter conn.mapCalls = some none)
    (address : conn.fileAddress = .null)
    (unwritten : phase = .armed .epollin ∨ phase = .queued → conn.writeBuf = [])
    (pending : phase = .armed .epollout → conn.writeBuf ≠ []) : Tidy ⟨conn, phase⟩ where
  region := ⟨none, calls, by simpa using address, by simp⟩
  idle := fun _ => address
  unwritten := unwritten
  pending := pending

theorem Tidy.calls_of_null (tidy : Tidy session) (address : session.conn.fileAddress = .null) :
    regionAfter session.conn.mapCalls = some none := by
  obtain ⟨region, calls, same, -⟩ := tidy.region
  cases region with
  | none => exact calls
  | some mapped => simp [address] at same

theorem Tidy.close (tidy : Tidy session) (address : session.conn.fileAddress = .null) : Tidy session.close :=
  .unmapped (tidy.calls_of_null address) address (by simp) (by simp)

/-- `unmap` undoes the mapping, whatever it is. -/
theorem Tidy.unmap (tidy : Tidy session) :
    regionAfter session.conn.unmap.mapCalls = some none ∧ session.conn.unmap.fileAddress = .null := by
  obtain ⟨region, calls, address, size⟩ := tidy.region
  cases region with
  | none =>
    have null : session.conn.fileAddress = .null := by simpa using address
    simp [HttpConn.unmap, null, calls]
  | some mapped =>
    have held : session.conn.fileAddress = .mapped mapped.1 := by simpa using address
    simp [HttpConn.unmap, held, regionAfter_append, calls, mapStep, size mapped rfl]

theorem Tidy.accept (tidy : Tidy session) {sockfd : Nat} (closed : session.phase = .closed) :
    Tidy ⟨session.conn.initConn sockfd, .armed .epollin⟩ := by
  have address := tidy.idle (by simp [closed])
  refine .unmapped ?_ address (fun _ => rfl) (by simp)
  have calls := tidy.calls_of_null address
  simp [HttpConn.initConn, HttpConn.init, regionAfter_append, calls, mapStep]

theorem readLoop_outer (conn : HttpConn) (outcomes : List Recv) : (conn.readLoop outcomes).2.outer = conn.outer := by
  fun_induction readLoop conn outcomes with
  | case1 | case2 | case3 | case4 => rfl
  | case5 conn received rest taken nonempty ih => exact ih

theorem read_outer (conn : HttpConn) (outcomes : List Recv) : (conn.read outcomes).2.outer = conn.outer := by
  unfold HttpConn.read
  split_ifs
  · rfl
  · exact readLoop_outer conn outcomes

theorem Tidy.read (tidy : Tidy session) (armed : session.phase = .armed .epollin) (outcomes : List Recv)
    {phase : Phase} (other : phase ≠ .armed .epollout) : Tidy ⟨(session.conn.read outcomes).2, phase⟩ := by
  have address := tidy.idle (by simp [armed])
  have same := read_outer session.conn outcomes
  simp only [outer, Prod.mk.injEq] at same
  obtain ⟨-, writeBuf, sameAddress, -, calls⟩ := same
  refine .unmapped ?_ (sameAddress.trans address) (fun _ => ?_) (fun pending => (other pending).elim)
  · rw [calls]
    exact tidy.calls_of_null address
  · rw [writeBuf]
    exact tidy.unwritten (.inl armed)

theorem fileResponse_true {conn : HttpConn} (nonempty : conn.fileStat.size ≠ 0) : conn.fileResponse.1 = true := by
  have built := addStatusLine_builds conn 200 ok200Title
  unfold fileResponse
  dsimp only
  generalize (conn.addStatusLine 200 ok200Title).2 = started at built ⊢
  obtain ⟨buf, iv, rfl⟩ := built
  simp [nonempty]

/-- A response that could be built is waiting in the write buffer. -/
theorem processWrite_pending {conn : HttpConn} {code : HttpCode} (empty : conn.writeBuf = [])
    (built : (conn.processWrite code).1 = true) : (conn.processWrite code).2.writeBuf ≠ [] := by
  have prepared : conn.processWrite code = (true, (conn.processWrite code).2) := Prod.ext built rfl
  obtain ⟨⟨rest, text, -⟩, -⟩ := processWrite_prepared (fun _ => List.replicate conn.fileStat.size 0) empty
    prepared (by simp)
  simp [text]

/-- A request for a file is answered from its mapping. -/
theorem Tidy.process_file {conn parsed : HttpConn} {stat : FileStat} {address : Nat}
    (calls : regionAfter conn.mapCalls = some none) (empty : parsed.writeBuf = [])
    (nonempty : stat.size ≠ 0) (held : parsed.fileStat = stat) (mapped : parsed.fileAddress = .mapped address)
    (called : parsed.mapCalls = conn.mapCalls ++ [.mmap (some address) stat.size]) :
    (parsed.processWrite .fileRequest).1 = true ∧
      Tidy ⟨(parsed.processWrite .fileRequest).2, .armed .epollout⟩ := by
  have built : (parsed.processWrite .fileRequest).1 = true := by
    unfold processWrite
    exact fileResponse_true (by rwa [held])
  have pending := processWrite_pending empty built
  obtain ⟨buf, iv, same⟩ := processWrite_builds parsed .fileRequest
  refine ⟨built, ?_, by simp, by simp, fun _ => pending⟩
  refine ⟨some (address, stat.size), ?_, ?_, ?_⟩
  · simp [same, called, regionAfter_append, calls, mapStep]
  · simp [same, mapped]
  · intro region equal
    cases equal
    simp [same, held]

/-- Any other answer leaves the object without a mapping. -/
theorem Tidy.process_other {conn : HttpConn} (code : HttpCode) (calls : regionAfter conn.mapCalls = some none)
    (empty : conn.writeBuf = []) (address : conn.fileAddress = .null) (phase : Phase)
    (ready : phase = .armed .epollout ∧ (conn.processWrite code).1 = true ∨ phase = .closed) :
    Tidy ⟨(conn.processWrite code).2, phase⟩ := by
  obtain ⟨buf, iv, same⟩ := processWrite_builds conn code
  refine .unmapped ?_ ?_ ?_ ?_
  · rw [same]
    exact calls
  · rw [same]
    exact address
  · intro waiting
    rcases ready with ⟨rfl, -⟩ | rfl <;> simp at waiting
  · rintro rfl
    rcases ready with ⟨-, built⟩ | impossible
    · exact processWrite_pending empty built
    · cases impossible

theorem Tidy.process (tidy : Tidy session) {fs : FileSystem} (careful : Careful session (.process fs))
    (taken : session.step (.process fs) = some next) : Tidy next := by
  have asked : (processRead fs session.conn).2.realFile = session.conn.requestedFile :=
    processReadLoop_realFile fs _ session.conn .ok
  obtain ⟨-, sameBuf, requested⟩ : Requested fs session.conn (processRead fs session.conn).1
    (processRead fs session.conn).2 := processReadLoop_requested fs session.conn .ok
  simp only [Session.step] at taken
  split_ifs at taken with queued
  have address := tidy.idle (by simp [queued])
  have calls := tidy.calls_of_null address
  have empty := sameBuf.trans (tidy.unwritten (.inr queued))
  unfold HttpConn.process at taken
  dsimp only at taken
  generalize processRead fs session.conn = result at *
  obtain ⟨code, parsed⟩ := result
  dsimp only at *
  rcases requested with ⟨other, sameAddress, sameCalls⟩ | ⟨stat, rfl, found, readable, regular, held, mapped, called⟩
  · rw [← sameCalls] at calls
    rw [← sameAddress] at address
    by_cases incomplete : code = .noRequest
    · cases incomplete
      cases taken
      exact .unmapped calls address (fun _ => empty) (by simp)
    · have answered := Tidy.process_other code calls empty address
      simp only [incomplete, if_false] at taken
      generalize parsed.processWrite code = response at taken answered
      obtain ⟨built, ready⟩ := response
      cases built with
      | true =>
        cases taken
        exact answered _ (.inl ⟨rfl, rfl⟩)
      | false =>
        cases taken
        have kept := answered .closed (.inr rfl)
        exact kept.close (kept.idle (by simp))
  · rw [asked] at found mapped called
    obtain ⟨nonempty, isMapped⟩ := careful stat found readable regular
    obtain ⟨region, success⟩ := Option.isSome_iff_exists.mp isMapped
    rw [success] at mapped called
    obtain ⟨built, kept⟩ := Tidy.process_file calls empty nonempty held mapped called
    simp only [reduceCtorEq, if_false] at taken
    generalize parsed.processWrite .fileRequest = response at taken built kept
    obtain ⟨done, ready⟩ := response
    cases built
    cases taken
    exact kept

/-- The three ways a call of `write()` ends: with the response still to be sent, with
the connection ready for the next request, or with the connection to be closed. -/
theorem writeLoop_ends {memory : Address → List UInt8} {conn : HttpConn} {bytesToSend bytesHaveSend : Int}
    {outcomes : List Writev} {result : WriteResult}
    (written : writeLoop memory conn bytesToSend bytesHaveSend outcomes = some result) :
    (result.value = true ∧ result.conn = conn ∧ result.armed = some .epollout) ∨
      (result.value = true ∧ result.conn = conn.unmap.init ∧ result.armed = some .epollin) ∨
      (result.value = false ∧ result.conn = conn.unmap) := by
  induction outcomes generalizing bytesToSend bytesHaveSend result with
  | nil => cases written
  | cons outcome rest ih =>
    cases outcome with
    | again =>
      simp only [writeLoop] at written
      split_ifs at written
      cases written
      exact .inl ⟨rfl, rfl, rfl⟩
    | error =>
      simp only [writeLoop] at written
      split_ifs at written
      cases written
      exact .inr (.inr ⟨rfl, rfl⟩)
    | accepted count =>
      simp only [writeLoop] at written
      split_ifs at written
      · cases written
        exact .inr (.inl ⟨rfl, rfl, rfl⟩)
      · cases written
        exact .inr (.inr ⟨rfl, rfl⟩)
      · obtain ⟨later, sent, rfl⟩ := Option.map_eq_some_iff.mp written
        have ends := ih sent
        exact ends

theorem Tidy.write (tidy : Tidy session) {memory : Address → List UInt8} {outcomes : List Writev}
    (taken : session.step (.writable memory outcomes) = some next) : Tidy next := by
  simp only [Session.step] at taken
  split_ifs at taken with armed
  have pending := tidy.pending armed
  obtain ⟨calls, address⟩ := tidy.unmap
  cases written : session.conn.write memory outcomes with
  | none => simp [written] at taken
  | some result =>
    obtain ⟨value, conn, rearmed, sent⟩ := result
    have ends := written
    unfold HttpConn.write at ends
    rw [if_neg (by simpa using pending)] at ends
    simp only [written] at taken
    rcases writeLoop_ends ends with ⟨rfl, rfl, rfl⟩ | ⟨rfl, rfl, rfl⟩ | ⟨rfl, rfl⟩
    · cases taken
      rw [← armed]
      exact tidy
    · cases taken
      exact .unmapped calls address (fun _ => rfl) (by simp)
    · cases taken
      exact .unmapped calls address (by simp) (by simp)

theorem Tidy.step (tidy : Tidy session) {event : SessionEvent} (careful : Careful session event)
    (taken : session.step event = some next) : Tidy next := by
  cases event with
  | accept sockfd =>
    simp only [Session.step] at taken
    split_ifs at taken with closed
    cases taken
    exact tidy.accept closed
  | hangup =>
    simp only [Session.step] at taken
    split at taken <;> cases taken
    exact tidy.close careful
  | readable outcomes admitted =>
    simp only [Session.step] at taken
    split_ifs at taken with armed received admission
    · cases taken
      exact tidy.read armed outcomes (by simp)
    · cases taken
      exact tidy.read armed outcomes (by simp)
    · cases taken
      have kept := tidy.read armed outcomes (show Phase.closed ≠ .armed .epollout by simp)
      exact kept.close (kept.idle (by simp))
  | process fs => exact tidy.process careful taken
  | writable memory outcomes => exact tidy.write taken

/-- Over every run of connections and requests in which each file asked for can be
mapped and no hang-up comes between a response and its transmission, every region is
unmapped once, as it was mapped, before the object is used again. -/
theorem mapCalls_disciplined (conn : HttpConn) (unused : conn.mapCalls = []) (address : conn.fileAddress = .null)
    (events : List SessionEvent) (careful : Meets Session.step Careful ⟨conn, .closed⟩ events) (final : Session)
    (reached : run Session.step ⟨conn, .closed⟩ events = some final) : Disciplined final.conn.mapCalls := by
  have start : Tidy ⟨conn, .closed⟩ := .unmapped (by simp [unused, regionAfter]) address (by simp) (by simp)
  have tidy : Tidy final := run_invariant_of_meets (fun _ _ _ kept guard taken => kept.step guard taken)
    start careful reached
  obtain ⟨region, calls, -⟩ := tidy.region
  simp [Disciplined, calls]

/-- A file system in which every path is a file of five bytes. -/
def fiveByteFiles : FileSystem := ⟨fun _ => some ⟨5, true, false⟩, fun _ => some 4096⟩

/-- Two connections in a row, the first of which is served a file. -/
def servedThenReused : List SessionEvent :=
  [.accept 5, .readable [.data (bytes "GET /a HTTP/1.1\r\n\r\n")] true, .process fiveByteFiles,
    .writable (fun _ => bytes "hello") [.accepted 62], .accept 5]

theorem mapCalls_disciplined_served : Meets Session.step Careful ⟨zeroed, .closed⟩ servedThenReused ∧
    ∃ final, run Session.step ⟨zeroed, .closed⟩ servedThenReused = some final ∧
      final.conn.mapCalls = [.newConnection, .mmap (some 4096) 5, .munmap (.mapped 4096) 5, .newConnection] ∧
      Disciplined final.conn.mapCalls := by
  have careful : Meets Session.step Careful ⟨zeroed, .closed⟩ servedThenReused := by
    refine ⟨trivial, fun _ _ => ⟨trivial, fun _ _ => ⟨?_, fun _ _ => ⟨trivial, fun _ _ => ⟨trivial, fun _ _ => ?_⟩⟩⟩⟩⟩
    · intro stat found _ _
      obtain rfl : (⟨5, true, false⟩ : FileStat) = stat := Option.some.inj found
      exact ⟨by simp, rfl⟩
    · trivial
  have recorded : (run Session.step ⟨zeroed, .closed⟩ servedThenReused).map (·.conn.mapCalls) =
      some [.newConnection, .mmap (some 4096) 5, .munmap (.mapped 4096) 5, .newConnection] := by decide +kernel
  obtain ⟨final, reached, calls⟩ := Option.map_eq_some_iff.mp recorded
  exact ⟨careful, final, reached, calls, mapCalls_disciplined zeroed rfl rfl servedThenReused careful final reached⟩

/-- The client hangs up while its response waits to be sent: `close_conn` leaves the
file mapped, and the object is taken for the next connection. -/
theorem mapCalls_not_disciplined : ¬ ∀ (conn : HttpConn) (events : List SessionEvent) (final : Session),
    conn.mapCalls = [] → conn.fileAddress = .null →
    run Session.step ⟨conn, .closed⟩ events = some final → Disciplined final.conn.mapCalls := by
  intro disciplined
  have recorded : (run Session.step ⟨zeroed, .closed⟩ [.accept 5,
      .readable [.data (bytes "GET /a HTTP/1.1\r\n\r\n")] true, .process fiveByteFiles, .hangup, .accept 5]).map
      (·.conn.mapCalls) = some [.newConnection, .mmap (some 4096) 5, .newConnection] := by decide +kernel
  obtain ⟨final, reached, calls⟩ := Option.map_eq_some_iff.mp recorded
  have held := disciplined zeroed _ final rfl rfl reached
  rw [calls] at held
  revert held
  simp [Disciplined, regionAfter, mapStep]

end UnixProgramming.Pool

import UnixProgramming.Pool.BodyScan

/-! Malformed lines. `parse_line` tells them from incomplete ones, but the loop of
`process_read` stops at both alike and returns `NO_REQUEST`. -/

namespace UnixProgramming.Pool.Reception

open UnixProgramming.Lib

/-- Behind lines that were accepted, and before the body, there is a malformed line. -/
def Broken (received : List UInt8) : Prop :=
  ∃ lines rest state length, received = encodeLines lines ++ rest ∧ Accepted lines state length ∧
    state ≠ .connect ∧ Malformed rest

/-- What a call promises about lines: a malformed one is rejected, and the call waits in the head
of a request only for the rest of a line that is incomplete. -/
def RejectsMalformed (code : HttpCode) (after : Reception) : Prop :=
  (Broken after.received → code = .badRequest) ∧
    (code = .noRequest → after.conn.checkState ≠ .connect →
      ∃ lines rest state length, after.received = encodeLines lines ++ rest ∧ Accepted lines state length ∧
        state ≠ .connect ∧ Unfinished rest)

variable {fs : FileSystem} {before after : Reception} {arrivals : List (List HttpConn.Recv)}
  {outcomes : List HttpConn.Recv} {code : HttpCode} {received rest : List UInt8} {lines : List (List UInt8)}
  {state : CheckState} {length : Int}

/-- The malformed line is where nothing more is accepted. -/
theorem Broken.malformed (broken : Broken received) (accepted : Accepted lines state length)
    (final : Final (state, length) rest) (same : received = encodeLines lines ++ rest) :
    state ≠ .connect ∧ Malformed rest := by
  obtain ⟨other, tail, last, count, split, also, head, malformed⟩ := broken
  have stuck : Final (last, count) tail := .stuck _ (.inr malformed)
  obtain ⟨more, rfl, behind⟩ := also.furthest accepted final (split.symm.trans same)
  obtain ⟨others, longer, -⟩ := accepted.furthest also stuck (same.symm.trans split)
  obtain rfl : more = [] := by
    rw [List.append_assoc, List.self_eq_append_right, List.append_eq_nil_iff] at longer
    exact longer.1
  rw [List.append_nil] at accepted
  obtain ⟨rfl, rfl⟩ := accepted.unique also
  simp only [encodeLines_nil, List.nil_append] at behind
  exact ⟨head, behind ▸ malformed⟩

/-- A call keeps the promise exactly when no malformed line is there: at one that is there it
returns `NO_REQUEST`. -/
theorem rejectsMalformed_iff (fs : FileSystem) (conn : HttpConn)
    (earlier : run (step fs) (start conn) arrivals = some before)
    (called : before.call fs outcomes = some (code, after)) :
    RejectsMalformed code after ↔ ¬ Broken after.received := by
  obtain ⟨arrived, arrives, same, parsed⟩ := call_cases called
  have result := ((Standing.run earlier).read arrives).called fs
  rw [RejectsMalformed, same]
  cases result with
  | waits next waiting place head stuck =>
    obtain ⟨rfl, there⟩ := Prod.mk.inj (parsed.symm.trans waiting)
    rw [there]
    constructor
    · rintro ⟨rejected, -⟩ broken
      cases rejected broken
    · intro whole
      refine ⟨fun broken => (whole broken).elim, fun _ _ => ⟨_, _, _, _, place.received, place.accepted, head, ?_⟩⟩
      rcases stuck with unfinished | malformed
      · exact unfinished
      · exact (whole ⟨_, _, _, _, place.received, place.accepted, head, malformed⟩).elim
  | returns returned received accepted complete rejects head =>
    have sound : ¬ Broken arrived.received := by
      intro broken
      exact complete.not_malformed (broken.malformed accepted (.rejected complete rejects) received).2
    rw [parsed] at returned
    exact iff_of_true ⟨fun broken => (sound broken).elim, fun waiting => (returned waiting).elim⟩ sound
  | body entry goesOn inBody entered =>
    have sound : ¬ Broken arrived.received := by
      intro broken
      obtain ⟨body, split⟩ := inBody.head
      exact (broken.malformed inBody.accepted (.connect _ body) split.symm).1 rfl
    have stays : (HttpConn.processRead fs entry).2.checkState = .connect :=
      HttpConn.processReadLoop_connect entry .ok inBody.state
    rw [← goesOn, parsed] at stays
    exact iff_of_true ⟨fun broken => (sound broken).elim, fun _ head => (head stays).elim⟩ sound

/-- A line cut before its LF, and then a header line cut before its CR. -/
theorem rejectsMalformed_iff_cut :
    ∃ before code after, run (step ⟨fun _ => none, fun _ => none⟩) (start .zeroed)
        [[.data (bytes "GET / HTTP/1.1\r")]] = some before ∧
      before.call ⟨fun _ => none, fun _ => none⟩ [.data (bytes "\nHost")] = some (code, after) ∧
      (RejectsMalformed code after ↔ ¬ Broken after.received) := by
  have earlier : (run (step ⟨fun _ => none, fun _ => none⟩) (start .zeroed)
      [[.data (bytes "GET / HTTP/1.1\r")]]).isSome := by decide +kernel
  have called : ((run (step ⟨fun _ => none, fun _ => none⟩) (start .zeroed)
      [[.data (bytes "GET / HTTP/1.1\r")]]).bind fun before =>
        before.call ⟨fun _ => none, fun _ => none⟩ [.data (bytes "\nHost")]).isSome := by decide +kernel
  obtain ⟨before, reached⟩ := Option.isSome_iff_exists.mp earlier
  rw [reached, Option.bind_some] at called
  obtain ⟨⟨code, after⟩, found⟩ := Option.isSome_iff_exists.mp called
  exact ⟨before, code, after, reached, found, rejectsMalformed_iff _ _ reached found⟩

/-- A CR in the request line that is not followed by LF. -/
theorem malformed_line_waits :
    ∃ after, (start .zeroed).call ⟨fun _ => none, fun _ => none⟩ [.data (bytes "GET / HTTP/1.1\rX")] =
        some (.noRequest, after) ∧ Broken after.received ∧ ¬ RejectsMalformed .noRequest after := by
  have waits : ((start .zeroed).call ⟨fun _ => none, fun _ => none⟩ [.data (bytes "GET / HTTP/1.1\rX")]).map
      (fun result => (result.1, result.2.received)) = some (.noRequest, bytes "GET / HTTP/1.1\rX") := by decide +kernel
  obtain ⟨⟨code, after⟩, called, same⟩ := Option.map_eq_some_iff.mp waits
  obtain ⟨rfl, received⟩ := Prod.mk.inj same
  have broken : Broken after.received := by
    refine ⟨[], _, .requestLine, 0, rfl, .nil, by decide, ?_⟩
    exact ⟨bytes "GET / HTTP/1.1", [], by decide +kernel, .inl ⟨88, by decide, received.trans (by decide)⟩⟩
  exact ⟨after, called, broken, fun promise => nomatch promise.1 broken⟩

end UnixProgramming.Pool.Reception

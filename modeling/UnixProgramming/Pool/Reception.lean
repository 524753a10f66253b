import UnixProgramming.Pool.HeadLines

/-! A connection from `init` on, fed by calls of `read` with one `process_read` after each. The
bytes received so far are kept beside the object, whose own buffer the parser writes into. -/

namespace UnixProgramming.Pool

open UnixProgramming.Lib

/-- The line that follows some accepted lines, if there is one, is not accepted. -/
def Final (state : CheckState × Int) (rest : List UInt8) : Prop :=
  ∀ line after, Complete rest line after → acceptLine state line = none

theorem Final.connect (length : Int) (rest : List UInt8) : Final (.connect, length) rest := fun _ _ _ => rfl

theorem Final.stuck (state : CheckState × Int) {rest : List UInt8} (stuck : Unfinished rest ∨ Malformed rest) :
    Final state rest := by
  intro line after complete
  rcases stuck with unfinished | malformed
  · exact (complete.not_unfinished unfinished).elim
  · exact (complete.not_malformed malformed).elim

theorem Final.rejected {state : CheckState × Int} {rest line after : List UInt8}
    (complete : Complete rest line after) (rejects : acceptLine state line = none) : Final state rest := by
  intro other later also
  obtain ⟨rfl, -⟩ := complete.unique also
  exact rejects

/-- Nothing is accepted beyond lines with nothing acceptable behind them. -/
theorem Accepted.furthest {lines other : List (List UInt8)} {tail rest : List UInt8} {state last : CheckState}
    {length count : Int} (accepted : Accepted lines state length) (also : Accepted other last count)
    (final : Final (last, count) rest) (same : encodeLines lines ++ tail = encodeLines other ++ rest) :
    ∃ more, other = lines ++ more ∧ tail = encodeLines more ++ rest := by
  rcases lines_comparable accepted.1 also.1 same with ⟨more, rfl, behind⟩ | found
  · match more with
    | [] => exact ⟨[], by simp, by simpa using behind.symm⟩
    | line :: more =>
      obtain ⟨middle, accepts, -⟩ := also.next accepted
      have plain := accepted.1 line (by simp)
      rw [encodeLines_cons, List.append_assoc] at behind
      rw [final line _ ⟨plain, by simpa using behind⟩] at accepts
      cases accepts
  · exact found

/-- Before the head is there nothing stops the parser. -/
theorem Accepted.not_yet {lines : List (List UInt8)} {length : Int} {received : List UInt8}
    (accepted : Accepted lines .connect length) (part : received <+: encodeLines lines)
    (short : received.length < (encodeLines lines).length) {other : List (List UInt8)} {rest : List UInt8}
    {state : CheckState} {count : Int} (also : Accepted other state count)
    (final : ∀ more, Final (state, count) (rest ++ more)) : received ≠ encodeLines other ++ rest := by
  rintro rfl
  obtain ⟨more, whole⟩ := part
  rw [List.append_assoc, ← List.append_nil (encodeLines lines)] at whole
  obtain ⟨others, rfl, -⟩ := accepted.furthest also (final more) whole.symm
  rw [encodeLines_append, List.length_append, List.length_append] at short
  omega

/-- Once the head is there the parser has got to its end. -/
theorem Accepted.there {lines : List (List UInt8)} {length : Int} {received : List UInt8}
    (accepted : Accepted lines .connect length) (whole : encodeLines lines <+: received)
    {other : List (List UInt8)} {rest : List UInt8} {state : CheckState} {count : Int}
    (also : Accepted other state count) (final : Final (state, count) rest)
    (same : received = encodeLines other ++ rest) : other = lines ∧ state = .connect := by
  obtain ⟨body, rfl⟩ := whole
  obtain ⟨more, rfl, -⟩ := accepted.furthest also final same
  obtain rfl := accepted.last also
  rw [List.append_nil] at also
  exact ⟨List.append_nil lines, (also.unique accepted).1⟩

namespace HttpConn
variable {conn : HttpConn} {received rest : List UInt8} {lines : List (List UInt8)} {base : Nat}

theorem Facing.extend (facing : conn.Facing base rest) (more : List UInt8) :
    (conn.extend more).Facing base (rest ++ more) := by
  have inside : base ≤ conn.readBuf.length := facing.inside
  obtain ⟨word, tail, rfl, plain, checked⟩ := facing.scanned
  refine ⟨?_, ?_, ⟨word, tail ++ more, by simp, plain, checked⟩, fun index below => ?_⟩
  · rw [readIdx_extend, readIdx]
    omega
  · rw [HttpConn.extend, List.drop_append_of_le_length inside, facing.buffer]
  · rw [HttpConn.extend, List.getD_append _ _ _ _ (by omega)]
    exact facing.clean index below

theorem At.extend (place : conn.At received lines rest) (more : List UInt8) :
    (conn.extend more).At (received ++ more) lines (rest ++ more) where
  received := by rw [place.received, List.append_assoc]
  accepted := place.accepted
  start := place.start
  facing := place.facing.extend more

/-- Nothing has been read and nothing parsed. -/
theorem At.init (conn : HttpConn) : conn.init.At [] [] [] where
  received := rfl
  accepted := .nil
  start := rfl
  facing := ⟨le_rfl, rfl, ⟨[], [], rfl, by simp, rfl⟩, by simp [HttpConn.init]⟩

theorem readLoop_extend (conn : HttpConn) (outcomes : List Recv) :
    ∃ more, (conn.readLoop outcomes).2 = conn.extend more := by
  fun_induction readLoop conn outcomes with
  | case1 conn => exact ⟨[], (extend_nil conn).symm⟩
  | case2 conn => exact ⟨[], (extend_nil conn).symm⟩
  | case3 conn => exact ⟨[], (extend_nil conn).symm⟩
  | case4 conn => exact ⟨[], (extend_nil conn).symm⟩
  | case5 conn offered rest taken _ ih =>
    obtain ⟨more, later⟩ := ih
    exact ⟨taken ++ more, later.trans (extend_extend conn taken more)⟩

/-- A `read` appends what it got. -/
theorem read_appends (conn : HttpConn) (outcomes : List Recv) : ∃ more, (conn.read outcomes).2 = conn.extend more := by
  unfold HttpConn.read
  split
  · exact ⟨[], (extend_nil conn).symm⟩
  · exact readLoop_extend conn outcomes

end HttpConn

/-- A connection and the bytes received on it since `init`. -/
structure Reception where
  conn : HttpConn
  received : List UInt8
deriving DecidableEq, Repr

namespace Reception

def start (conn : HttpConn) : Reception := ⟨conn.init, []⟩

/-- A `read` that does not end the connection. -/
def read (reception : Reception) (outcomes : List HttpConn.Recv) : Option Reception :=
  let (readable, conn) := reception.conn.read outcomes
  if readable then some ⟨conn, reception.received ++ conn.readBuf.drop reception.conn.readIdx⟩ else none

/-- A `read` and the `process_read` after it. -/
def call (fs : FileSystem) (reception : Reception) (outcomes : List HttpConn.Recv) : Option (HttpCode × Reception) :=
  (reception.read outcomes).map fun arrived =>
    let parsed := HttpConn.processRead fs arrived.conn
    (parsed.1, ⟨parsed.2, arrived.received⟩)

/-- A call after which the server waits for more bytes. -/
def step (fs : FileSystem) (reception : Reception) (outcomes : List HttpConn.Recv) : Option Reception :=
  match reception.call fs outcomes with
  | some (.noRequest, next) => some next
  | _ => none

variable {fs : FileSystem} {reception arrived next : Reception} {outcomes : List HttpConn.Recv}
  {code : HttpCode}

theorem read_cases (taken : reception.read outcomes = some arrived) :
    ∃ more, arrived = ⟨reception.conn.extend more, reception.received ++ more⟩ := by
  obtain ⟨more, appended⟩ := reception.conn.read_appends outcomes
  unfold read at taken
  simp only [appended] at taken
  split_ifs at taken
  cases taken
  refine ⟨more, ?_⟩
  simp [HttpConn.extend, HttpConn.readIdx]

theorem call_cases (called : reception.call fs outcomes = some (code, next)) :
    ∃ arrived, reception.read outcomes = some arrived ∧ next.received = arrived.received ∧
      HttpConn.processRead fs arrived.conn = (code, next.conn) := by
  obtain ⟨arrived, taken, same⟩ := Option.map_eq_some_iff.mp called
  cases same
  exact ⟨arrived, taken, rfl, rfl⟩

theorem step_call (taken : reception.step fs outcomes = some next) :
    reception.call fs outcomes = some (.noRequest, next) := by
  unfold step at taken
  split at taken
  · cases taken
    assumption
  · cases taken

end Reception
end UnixProgramming.Pool

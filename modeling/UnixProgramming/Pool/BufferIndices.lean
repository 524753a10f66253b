import UnixProgramming.Pool.ContentStore
import UnixProgramming.Pool.LoopTrace

/-! The three indices into `m_read_buf` in every run of calls: their order, the string that
`get_line` yields, and the bytes that `parse_line` reads. -/

namespace UnixProgramming.Pool.HttpConn

open UnixProgramming.Lib

/-- The indices are in order and inside the buffer. -/
structure Ordered (conn : HttpConn) : Prop where
  start : conn.startLine ≤ conn.checkedIdx
  checked : conn.checkedIdx ≤ conn.readIdx
  room : conn.readIdx ≤ readBufferSize

/-- The whole of `m_read_buf`: nothing but NULs is ever stored at `m_read_idx` or behind it. -/
def memory (conn : HttpConn) : List UInt8 := conn.readBuf ++ List.replicate (readBufferSize - conn.readIdx) 0

/-- `recv` is asked for so many bytes and then for what is left of them: with length 0 it
returns 0, so that it neither blocks nor fails. The list ends where the socket is empty. -/
def RecvAnswers : Nat → List Recv → Prop
  | asked, [] => 0 < asked
  | asked, .again :: _ => 0 < asked
  | asked, .error :: _ => 0 < asked
  | asked, .data received :: rest =>
    received.take asked = [] ∨ RecvAnswers (asked - (received.take asked).length) rest

/-- The places of `m_read_buf` that the loop of `parse_line` reads. -/
def scanReads : Nat → List UInt8 → Nat → List Nat
  | 0, _, _ => []
  | unchecked + 1, buf, checked =>
    let temp := buf.getD checked 0
    checked ::
      if temp = 13 then if checked + 1 = buf.length then [] else [checked + 1]
      else if temp = 10 then if 1 < checked then [checked - 1] else []
      else scanReads unchecked buf (checked + 1)

/-- The places that `parse_line` reads. -/
def parseLineReads (conn : HttpConn) : List Nat :=
  scanReads (conn.readIdx - conn.checkedIdx) conn.readBuf conn.checkedIdx

section Scan
variable {buf other : List UInt8} {checked unchecked : Nat}

theorem scanReads_lt (bound : checked + unchecked = buf.length) :
    ∀ index ∈ scanReads unchecked buf checked, index < buf.length := by
  induction unchecked generalizing checked with
  | zero => exact fun index member => absurd member List.not_mem_nil
  | succ unchecked ih =>
    have rest := @ih (checked + 1) (by omega)
    rw [scanReads, List.forall_mem_cons]
    refine ⟨by omega, ?_⟩
    split_ifs with carriage last feed behind
    · exact fun index member => absurd member List.not_mem_nil
    · rw [List.forall_mem_singleton]
      omega
    · rw [List.forall_mem_singleton]
      omega
    · exact fun index member => absurd member List.not_mem_nil
    · exact rest

/-- The line status and the new `m_checked_idx` depend on no other bytes. -/
theorem parseLineLoop_reads (length : other.length = buf.length)
    (same : ∀ index ∈ scanReads unchecked buf checked, other.getD index 0 = buf.getD index 0) :
    (parseLineLoop unchecked other checked).1 = (parseLineLoop unchecked buf checked).1 ∧
      (parseLineLoop unchecked other checked).2.2 = (parseLineLoop unchecked buf checked).2.2 := by
  induction unchecked generalizing checked with
  | zero => exact ⟨rfl, rfl⟩
  | succ unchecked ih =>
    rw [scanReads, List.forall_mem_cons] at same
    obtain ⟨here, rest⟩ := same
    unfold parseLineLoop
    dsimp only
    rw [here, length]
    by_cases carriage : buf.getD checked 0 = 13
    · rw [if_pos carriage] at rest
      rw [if_pos carriage, if_pos carriage]
      by_cases last : checked + 1 = buf.length
      · rw [if_pos last, if_pos last]
        exact ⟨rfl, rfl⟩
      · rw [if_neg last, List.forall_mem_singleton] at rest
        rw [if_neg last, if_neg last, rest]
        split_ifs <;> exact ⟨rfl, rfl⟩
    · rw [if_neg carriage] at rest
      rw [if_neg carriage, if_neg carriage]
      by_cases feed : buf.getD checked 0 = 10
      · rw [if_pos feed] at rest
        rw [if_pos feed, if_pos feed]
        by_cases behind : 1 < checked
        · rw [if_pos behind, List.forall_mem_singleton] at rest
          rw [rest]
          split_ifs <;> exact ⟨rfl, rfl⟩
        · rw [if_neg fun both => behind both.1, if_neg fun both => behind both.1]
          exact ⟨rfl, rfl⟩
      · rw [if_neg feed] at rest
        rw [if_neg feed, if_neg feed]
        exact ih rest

end Scan

section Indices
variable {conn : HttpConn} {outcomes : List Recv}

theorem Ordered.init (conn : HttpConn) : conn.init.Ordered := ⟨le_rfl, le_rfl, Nat.zero_le _⟩

theorem Ordered.parseLine (ordered : conn.Ordered) : conn.parseLine.2.Ordered := by
  have length := parseLineLoop_length (conn.readIdx - conn.checkedIdx) conn.readBuf conn.checkedIdx
  obtain ⟨further, inside, -⟩ := parseLineLoop_checked (conn.readIdx - conn.checkedIdx) conn.readBuf conn.checkedIdx
    (Nat.add_sub_cancel' ordered.checked)
  exact ⟨ordered.start.trans further, inside.trans length.ge, length.le.trans ordered.room⟩

theorem Ordered.processLine (fs : FileSystem) (ordered : conn.Ordered) : (processLine fs conn).2.Ordered := by
  have indices := processLine_indices fs conn
  simp only [HttpConn.indices, Prod.mk.injEq] at indices
  obtain ⟨readIdx, checkedIdx, startLine⟩ := indices
  refine ⟨?_, ?_, ?_⟩
  · rw [startLine, checkedIdx]
  · rw [checkedIdx, readIdx]
    exact ordered.checked
  · rw [readIdx]
    exact ordered.room

theorem Ordered.kept : Kept Ordered where
  scan _ ordered := ordered.parseLine
  line fs _ ordered := ordered.processLine fs

theorem Ordered.read (outcomes : List Recv) (ordered : conn.Ordered) : (conn.read outcomes).2.Ordered := by
  have room := read_room outcomes ordered.room
  obtain ⟨more, arrived⟩ := read_appends conn outcomes
  rw [arrived] at room ⊢
  refine ⟨ordered.start, ordered.checked.trans ?_, room⟩
  rw [readIdx_extend]
  exact Nat.le_add_right _ _

/-- In every run of calls the indices stay in order. -/
theorem Ordered.performAll (conn : HttpConn) (calls : List ConnCall) : (conn.init.performAll calls).Ordered :=
  Ordered.kept.performAll (fun _ outcomes ordered => ordered.read outcomes) (Ordered.init conn) calls

theorem Ordered.parseLineReads (ordered : conn.Ordered) : ∀ index ∈ conn.parseLineReads, index < conn.readIdx :=
  scanReads_lt (Nat.add_sub_cancel' ordered.checked)

/-- The loop of `read` comes to a full buffer only to be told of the end of the stream. -/
theorem readLoop_short (room : conn.readIdx ≤ readBufferSize) (answers : RecvAnswers (readBufferSize - conn.readIdx) outcomes)
    (goes : (conn.readLoop outcomes).1 = true) : (conn.readLoop outcomes).2.readIdx < readBufferSize := by
  fun_induction readLoop conn outcomes with
  | case1 conn => exact Nat.lt_of_sub_pos answers
  | case2 conn rest => exact Nat.lt_of_sub_pos answers
  | case3 conn rest => cases goes
  | case4 conn offered rest taken ended => cases goes
  | case5 conn offered rest taken going ih =>
    have bound : taken.length ≤ readBufferSize - conn.readIdx := List.length_take_le _ _
    have longer : (conn.extend taken).readIdx = conn.readIdx + taken.length := readIdx_extend conn taken
    have left : RecvAnswers (readBufferSize - conn.readIdx - taken.length) rest := answers.resolve_left going
    refine ih (by change (conn.extend taken).readIdx ≤ _; omega) ?_ goes
    change RecvAnswers (readBufferSize - (conn.extend taken).readIdx) rest
    rwa [longer, ← Nat.sub_sub]

theorem read_short (room : conn.readIdx ≤ readBufferSize) (answers : RecvAnswers (readBufferSize - conn.readIdx) outcomes)
    (goes : (conn.read outcomes).1 = true) : (conn.read outcomes).2.readIdx < readBufferSize := by
  unfold HttpConn.read at goes ⊢
  split_ifs at goes ⊢
  exact readLoop_short room answers goes

theorem kept_short : Kept fun conn => conn.Ordered ∧ conn.readIdx < readBufferSize where
  scan _ holds := ⟨holds.1.parseLine, (parseLineLoop_length _ _ _).trans_lt holds.2⟩
  line fs conn holds := ⟨holds.1.processLine fs, (congrArg Prod.fst (processLine_indices fs conn)).trans_lt holds.2⟩

/-- With room for a NUL behind the bytes in use, every string that starts in them ends in the buffer. -/
theorem Ordered.getLine (ordered : conn.Ordered) (short : conn.readIdx < readBufferSize) :
    conn.memory.length = readBufferSize ∧ Terminated conn.memory conn.startLine := by
  unfold memory Terminated
  refine ⟨?_, ?_⟩
  · rw [List.length_append, List.length_replicate]
    exact Nat.add_sub_cancel' ordered.room
  · rw [List.drop_append_of_le_length (ordered.start.trans ordered.checked)]
    refine List.mem_append_right _ (List.mem_replicate.mpr ⟨?_, rfl⟩)
    omega

theorem Kept.processReads {invariant : HttpConn → Prop} (kept : Kept invariant) (holds : invariant conn)
    (files : List FileSystem) : invariant (conn.performAll (files.map .processRead)) := by
  induction files generalizing conn with
  | nil => exact holds
  | cons fs rest ih => exact ih (kept.processReadLoop holds .ok)

end Indices

/-- The indices of the read buffer, after any calls since `init` and at every turn of the
`process_read` after them: they are in order and inside the buffer, and `parse_line` reads
below `m_read_idx` only. A `read` that returns true leaves room for a NUL, so that `get_line`
yields a string that ends in the buffer, in every `process_read` up to the next `read`. -/
theorem read_buffer_indices (conn : HttpConn) (calls : List ConnCall) :
    (conn.init.performAll calls).Ordered ∧
    (∀ fs turns, ∀ state ∈ LoopState.visits fs turns ⟨conn.init.performAll calls, .ok⟩,
      state.conn.Ordered ∧
      (∀ ready, state.ready = some ready → ready.Ordered ∧ (processLine fs ready).2.Ordered) ∧
      (state.Parses → ∀ index ∈ state.conn.parseLineReads, index < state.conn.readIdx)) ∧
    ∀ outcomes, RecvAnswers (readBufferSize - (conn.init.performAll calls).readIdx) outcomes →
      ((conn.init.performAll calls).read outcomes).1 = true →
      ((conn.init.performAll calls).read outcomes).2.readIdx ≤ readBufferSize - 1 ∧
      ∀ (files : List FileSystem) (fs : FileSystem) (turns : Nat),
        ∀ state ∈ LoopState.visits fs turns
          ⟨((conn.init.performAll calls).read outcomes).2.performAll (files.map .processRead), .ok⟩,
        ∀ ready, state.ready = some ready →
          ready.memory.length = readBufferSize ∧ Terminated ready.memory ready.startLine := by
  have ordered := Ordered.performAll conn calls
  refine ⟨ordered, fun fs turns state visited => ?_, fun outcomes answers goes => ?_⟩
  · have here := Ordered.kept.visits ordered visited
    refine ⟨here, fun ready found => ?_, fun _ => here.parseLineReads⟩
    have scanned := Ordered.kept.ready here found
    exact ⟨scanned, scanned.processLine fs⟩
  · have short := read_short ordered.room answers goes
    refine ⟨Nat.le_sub_one_of_lt short, fun files fs turns state visited ready found => ?_⟩
    have before := kept_short.processReads ⟨ordered.read outcomes, short⟩ files
    have holds := kept_short.ready (kept_short.visits before visited) found
    exact holds.1.getLine holds.2

/-- A first `read` of two lines. -/
theorem read_buffer_indices_lines :
    ((zeroed.init.performAll []).read [.data (bytes "GET / HTTP/1.1\r\nHost: a\r\n"), .again]).2.readIdx ≤ 2047 := by
  obtain ⟨-, -, reads⟩ := read_buffer_indices zeroed []
  refine (reads [.data (bytes "GET / HTTP/1.1\r\nHost: a\r\n"), .again] ?_ (by decide +kernel)).1
  refine Or.inr ?_
  change 0 < _
  decide +kernel

end UnixProgramming.Pool.HttpConn

import UnixProgramming.Pool.BufferIndices

/-! The branch of `parse_line` for an LF behind a CR. `m_checked_idx` never rests behind a CR:
the scan stops on every CR, and between the calls nothing but NULs is stored below it. -/

namespace UnixProgramming.Pool.HttpConn

open UnixProgramming.Lib

/-- The places the scan of `parse_line` stands on. -/
def scanPositions : Nat → List UInt8 → Nat → List Nat
  | 0, _, _ => []
  | unchecked + 1, buf, checked =>
    checked ::
      if buf.getD checked 0 = 13 ∨ buf.getD checked 0 = 10 then [] else scanPositions unchecked buf (checked + 1)

/-- The loop of `parse_line` with another guard on the branch for an LF behind a CR. -/
def parseLineLoopWith (guard : List UInt8 → Nat → Bool) : Nat → List UInt8 → Nat → LineStatus × List UInt8 × Nat
  | 0, buf, checked => (.open, buf, checked)
  | unchecked + 1, buf, checked =>
    let temp := buf.getD checked 0
    if temp = 13 then
      if checked + 1 = buf.length then (.open, buf, checked)
      else if buf.getD (checked + 1) 0 = 10 then
        (.ok, (buf.set checked 0).set (checked + 1) 0, checked + 2)
      else (.bad, buf, checked)
    else if temp = 10 then
      if guard buf checked then (.ok, (buf.set (checked - 1) 0).set checked 0, checked + 1)
      else (.bad, buf, checked)
    else parseLineLoopWith guard unchecked buf (checked + 1)

/-- The guard of the source. -/
def lineFeedGuard (buf : List UInt8) (checked : Nat) : Bool := 1 < checked && buf.getD (checked - 1) 0 == 13

theorem parseLineLoop_eq_with (unchecked : Nat) (buf : List UInt8) (checked : Nat) :
    parseLineLoop unchecked buf checked = parseLineLoopWith lineFeedGuard unchecked buf checked := by
  induction unchecked generalizing checked with
  | zero => rfl
  | succ unchecked ih =>
    unfold parseLineLoop parseLineLoopWith
    simp [ih, lineFeedGuard]

/-- The scan is at the start or behind a byte other than a CR. -/
def Clear (buf : List UInt8) (checked : Nat) : Prop := 0 < checked → buf.getD (checked - 1) 0 ≠ 13

section Scan
variable {before after buf : List UInt8} {checked unchecked : Nat}

theorem Clear.blanked (clear : Clear before checked) (blanked : Blanked before after) : Clear after checked :=
  fun positive => blanked.getD_ne (by decide) (clear positive)

theorem Clear.append (clear : Clear buf checked) (inside : checked ≤ buf.length) (more : List UInt8) :
    Clear (buf ++ more) checked := by
  intro positive
  rw [List.getD_append _ _ _ _ (by omega)]
  exact clear positive

theorem Clear.next (other : buf.getD checked 0 ≠ 13) : Clear buf (checked + 1) := fun _ => other

theorem scanPositions_clear (clear : Clear buf checked) :
    ∀ position ∈ scanPositions unchecked buf checked, Clear buf position := by
  induction unchecked generalizing checked with
  | zero => exact fun position member => absurd member List.not_mem_nil
  | succ unchecked ih =>
    rw [scanPositions, List.forall_mem_cons]
    refine ⟨clear, ?_⟩
    split_ifs with stops
    · exact fun position member => absurd member List.not_mem_nil
    · exact ih (Clear.next fun carriage => stops (.inl carriage))

/-- A guard that holds behind a CR only never holds where the scan stands. -/
theorem parseLineLoopWith_never {guard : List UInt8 → Nat → Bool} (clear : Clear buf checked)
    (sound : ∀ buf checked, guard buf checked = true → 0 < checked ∧ buf.getD (checked - 1) 0 = 13) :
    parseLineLoopWith guard unchecked buf checked = parseLineLoopWith (fun _ _ => false) unchecked buf checked := by
  induction unchecked generalizing checked with
  | zero => rfl
  | succ unchecked ih =>
    have refused : guard buf checked = false := by
      by_contra holds
      obtain ⟨positive, carriage⟩ := sound buf checked (Bool.not_eq_false _ ▸ holds)
      exact clear positive carriage
    unfold parseLineLoopWith
    dsimp only
    rw [refused]
    by_cases carriage : buf.getD checked 0 = 13
    · rw [if_pos carriage, if_pos carriage]
    · rw [if_neg carriage, if_neg carriage, ih (Clear.next carriage)]

theorem lineFeedGuard_sound (buf : List UInt8) (checked : Nat) (holds : lineFeedGuard buf checked = true) :
    0 < checked ∧ buf.getD (checked - 1) 0 = 13 := by
  unfold lineFeedGuard at holds
  rw [Bool.and_eq_true, decide_eq_true_iff, beq_iff_eq] at holds
  exact ⟨Nat.zero_lt_of_lt holds.1, holds.2⟩

/-- How the scan ends where it is not behind a CR: a complete line at a CR that it stands on,
or a place to rest that is again not behind a CR. -/
theorem parseLineLoop_cases (clear : Clear buf checked) :
    (∃ position, checked ≤ position ∧ buf.getD position 0 = 13 ∧ buf.getD (position + 1) 0 = 10 ∧
      parseLineLoop unchecked buf checked = (.ok, (buf.set position 0).set (position + 1) 0, position + 2)) ∨
    ∃ status position, status ≠ .ok ∧ Clear buf position ∧ parseLineLoop unchecked buf checked = (status, buf, position) := by
  rw [parseLineLoop_eq_with, parseLineLoopWith_never clear lineFeedGuard_sound]
  induction unchecked generalizing checked with
  | zero => exact .inr ⟨.open, checked, nofun, clear, rfl⟩
  | succ unchecked ih =>
    unfold parseLineLoopWith
    dsimp only
    split_ifs with carriage last feed feed guarded
    · exact .inr ⟨.open, checked, nofun, clear, rfl⟩
    · exact .inl ⟨checked, le_rfl, carriage, feed, rfl⟩
    · exact .inr ⟨.bad, checked, nofun, clear, rfl⟩
    · cases guarded
    · exact .inr ⟨.bad, checked, nofun, clear, rfl⟩
    · rcases ih (Clear.next carriage) with ⟨position, further, found⟩ | rests
      · exact .inl ⟨position, Nat.le_of_succ_le further, found⟩
      · exact .inr rests

end Scan

/-! ## The parsers of single lines -/

theorem paresHeaders_blanked (conn : HttpConn) (text : Nat) :
    Blanked conn.readBuf (paresHeaders conn text).2.readBuf := by
  rw [(paresHeaders_line_cases conn text).1]
  exact .refl _

theorem paresContent_blanked (conn : HttpConn) (text : Nat) :
    Blanked conn.readBuf (paresContent conn text).2.readBuf := by
  unfold paresContent
  dsimp only
  split_ifs
  · exact .set _ _
  · exact .refl _
  · exact .refl _

/-- The body of the loop stores nothing but NULs. -/
theorem processLine_blanked (fs : FileSystem) (conn : HttpConn) :
    Blanked conn.readBuf (processLine fs conn).2.readBuf := by
  have requestLine := parseRequestLine_blanked { conn with startLine := conn.checkedIdx } conn.startLine
  have header := paresHeaders_blanked { conn with startLine := conn.checkedIdx } conn.startLine
  have content := paresContent_blanked { conn with startLine := conn.checkedIdx } conn.startLine
  unfold processLine
  dsimp only
  split
  · split_ifs
    · exact requestLine
    · exact requestLine
  · split_ifs
    · exact header
    · dsimp only
      rw [doRequest_readBuf]
      exact header
    · exact header
  · split_ifs
    · dsimp only
      rw [doRequest_readBuf]
      exact content
    · exact content

/-! ## Runs -/

/-- The scan rests inside the bytes in use and not behind a CR. -/
structure Settled (conn : HttpConn) : Prop where
  ordered : conn.Ordered
  clear : Clear conn.readBuf conn.checkedIdx

theorem getD_set_self (buf : List UInt8) (position : Nat) : (buf.set position 0).getD position 0 = 0 := by
  rw [List.getD_eq_getElem?_getD, List.getElem?_set_self']
  cases buf[position]? <;> rfl

section Runs
variable {conn : HttpConn}

theorem Settled.init (conn : HttpConn) : conn.init.Settled :=
  ⟨Ordered.init conn, fun positive => absurd positive (Nat.lt_irrefl 0)⟩

theorem Settled.parseLine (settled : conn.Settled) : conn.parseLine.2.Settled := by
  refine ⟨settled.ordered.parseLine, ?_⟩
  change Clear (parseLineLoop _ _ _).2.1 (parseLineLoop _ _ _).2.2
  rcases @parseLineLoop_cases conn.readBuf conn.checkedIdx (conn.readIdx - conn.checkedIdx) settled.clear with
    ⟨position, further, carriage, feed, found⟩ | ⟨status, position, -, rests, found⟩
  · rw [found]
    refine Clear.next ?_
    rw [getD_set_self]
    decide
  · rw [found]
    exact rests

theorem Settled.processLine (fs : FileSystem) (settled : conn.Settled) : (processLine fs conn).2.Settled := by
  have indices := processLine_indices fs conn
  simp only [HttpConn.indices, Prod.mk.injEq] at indices
  refine ⟨settled.ordered.processLine fs, ?_⟩
  rw [indices.2.1]
  exact settled.clear.blanked (processLine_blanked fs conn)

theorem Settled.kept : Kept Settled where
  scan _ settled := settled.parseLine
  line fs _ settled := settled.processLine fs

theorem Settled.read (outcomes : List Recv) (settled : conn.Settled) : (conn.read outcomes).2.Settled := by
  obtain ⟨more, arrived⟩ := read_appends conn outcomes
  refine ⟨settled.ordered.read outcomes, ?_⟩
  rw [arrived]
  exact settled.clear.append settled.ordered.checked more

theorem Settled.performAll (conn : HttpConn) (calls : List ConnCall) : (conn.init.performAll calls).Settled :=
  Settled.kept.performAll (fun _ outcomes settled => settled.read outcomes) (Settled.init conn) calls

end Runs

/-- After any calls since `init`, and at every turn of the `process_read` after them, the scan
of `parse_line` stands on no LF behind a CR. Every guard that holds behind a CR only is as good
as the one the source has on that branch, and a complete line is one the other branch finds. -/
theorem line_feed_branch_dead (conn : HttpConn) (calls : List ConnCall) (fs : FileSystem) (turns : Nat) :
    ∀ state ∈ LoopState.visits fs turns ⟨conn.init.performAll calls, .ok⟩,
      (∀ position ∈ scanPositions (state.conn.readIdx - state.conn.checkedIdx) state.conn.readBuf state.conn.checkedIdx,
        state.conn.readBuf.getD position 0 = 10 → 0 < position → state.conn.readBuf.getD (position - 1) 0 ≠ 13) ∧
      (∀ guard : List UInt8 → Nat → Bool,
        (∀ buf checked, guard buf checked = true → 0 < checked ∧ buf.getD (checked - 1) 0 = 13) →
        parseLineLoop (state.conn.readIdx - state.conn.checkedIdx) state.conn.readBuf state.conn.checkedIdx =
          parseLineLoopWith guard (state.conn.readIdx - state.conn.checkedIdx) state.conn.readBuf state.conn.checkedIdx) ∧
      ∀ next, state.conn.parseLine = (.ok, next) →
        ∃ position, state.conn.checkedIdx ≤ position ∧ position + 1 < state.conn.readIdx ∧
          state.conn.readBuf.getD position 0 = 13 ∧ state.conn.readBuf.getD (position + 1) 0 = 10 ∧
          next = { state.conn with
            readBuf := (state.conn.readBuf.set position 0).set (position + 1) 0, checkedIdx := position + 2 } := by
  intro state visited
  have settled := Settled.kept.visits (Settled.performAll conn calls) visited
  refine ⟨fun position stands _ => scanPositions_clear settled.clear position stands, fun guard sound => ?_,
    fun next found => ?_⟩
  · rw [parseLineLoop_eq_with, parseLineLoopWith_never settled.clear lineFeedGuard_sound,
      parseLineLoopWith_never settled.clear sound]
  · unfold HttpConn.parseLine at found
    rcases @parseLineLoop_cases _ _ (state.conn.readIdx - state.conn.checkedIdx) settled.clear with
      ⟨position, further, carriage, feed, scanned⟩ | ⟨status, position, stopped, -, scanned⟩
    · rw [scanned, Prod.mk.injEq] at found
      refine ⟨position, further, ?_, carriage, feed, found.2.symm⟩
      by_contra outside
      rw [List.getD_eq_default _ _ (Nat.le_of_not_lt outside)] at feed
      cases feed
    · rw [scanned, Prod.mk.injEq] at found
      exact absurd found.1 stopped

/-- A cut between CR and LF, with the branch left out. -/
theorem line_feed_branch_dead_cut :
    let conn := zeroed.init.performAll
      [.read [.data (bytes "GET / HTTP/1.1\r")], .processRead ⟨fun _ => none, fun _ => none⟩, .read [.data (bytes "\n")]]
    parseLineLoop (conn.readIdx - conn.checkedIdx) conn.readBuf conn.checkedIdx =
      parseLineLoopWith (fun _ _ => false) (conn.readIdx - conn.checkedIdx) conn.readBuf conn.checkedIdx := by
  have dead := line_feed_branch_dead zeroed
    [.read [.data (bytes "GET / HTTP/1.1\r")], .processRead ⟨fun _ => none, fun _ => none⟩, .read [.data (bytes "\n")]]
    ⟨fun _ => none, fun _ => none⟩ 1 _ List.mem_cons_self
  exact dead.2.1 (fun _ _ => false) (fun _ _ holds => nomatch holds)

end UnixProgramming.Pool.HttpConn

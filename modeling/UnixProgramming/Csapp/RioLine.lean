import UnixProgramming.Csapp.RioDelivery

/-! The next line as a property of the bytes to come: the longest part at their front
that is short enough and has no newline but as its last byte. -/

namespace UnixProgramming.Csapp

open UnixProgramming.Lib

namespace Rio

/-- A part at the front of the stream that one call may deliver. -/
structure LinePart (room : Nat) (stream part : List UInt8) : Prop where
  front : part <+: stream
  short : part.length ≤ room
  inner : newline ∉ part.dropLast

/-- The longest such part. -/
def NextLine (room : Nat) (stream line : List UInt8) : Prop :=
  LinePart room stream line ∧ ∀ part, LinePart room stream part → part.length ≤ line.length

theorem LinePart.tail {room : Nat} {stream part : List UInt8} {byte : UInt8}
    (linePart : LinePart (room + 1) (byte :: stream) (byte :: part)) : LinePart room stream part := by
  obtain ⟨front, short, inner⟩ := linePart
  refine ⟨(List.cons_prefix_cons.mp front).2, by simpa using short, fun member => ?_⟩
  cases part with
  | nil => cases member
  | cons next rest => exact inner (List.mem_cons_of_mem byte member)

/-- Behind a newline a part cannot go on. -/
theorem LinePart.at_newline {room : Nat} {stream part : List UInt8}
    (linePart : LinePart room (newline :: stream) part) : part.length ≤ 1 := by
  obtain ⟨front, -, inner⟩ := linePart
  match part with
  | [] => exact Nat.zero_le 1
  | [byte] => exact Nat.le_refl 1
  | byte :: next :: rest =>
    obtain rfl := (List.cons_prefix_cons.mp front).1
    exact absurd List.mem_cons_self inner

theorem lineOf_next (room : Nat) (stream : List UInt8) : NextLine room stream (lineOf room stream) := by
  fun_induction lineOf room stream with
  | case1 stream => exact ⟨⟨List.nil_prefix, Nat.le_refl 0, by simp⟩, fun part linePart => linePart.short⟩
  | case2 room _ =>
    refine ⟨⟨List.nil_prefix, Nat.zero_le room, by simp⟩, fun part linePart => ?_⟩
    rw [List.prefix_nil.mp linePart.front]
  | case3 room rest =>
    exact ⟨⟨List.cons_prefix_cons.mpr ⟨rfl, List.nil_prefix⟩, by simp, by simp⟩, fun part linePart => linePart.at_newline⟩
  | case4 room byte rest inner ih =>
    obtain ⟨⟨front, short, none⟩, longest⟩ := ih
    refine ⟨⟨List.cons_prefix_cons.mpr ⟨rfl, front⟩, by simpa using short, ?_⟩, fun part linePart => ?_⟩
    · rcases line : lineOf room rest with _ | ⟨next, more⟩
      · simp
      · rw [line] at none
        rw [List.dropLast_cons_cons]
        exact List.not_mem_cons_of_ne_of_not_mem (Ne.symm inner) none
    · cases part with
      | nil => exact Nat.zero_le _
      | cons first part =>
        obtain rfl := (List.cons_prefix_cons.mp linePart.front).1
        exact Nat.succ_le_succ (longest part linePart.tail)

theorem NextLine.unique {room : Nat} {stream line other : List UInt8} (next : NextLine room stream line)
    (same : NextLine room stream other) : line = other := by
  have lengths := Nat.le_antisymm (same.2 line next.1) (next.2 other same.1)
  exact (List.prefix_of_prefix_length_le next.1.front same.1.front (Nat.le_of_eq lengths)).eq_of_length lengths

theorem NextLine.nil_iff {room : Nat} (positive : 0 < room) {stream line : List UInt8}
    (next : NextLine room stream line) : line = [] ↔ stream = [] := by
  refine ⟨fun empty => ?_, fun ended => ?_⟩
  · cases stream with
    | nil => rfl
    | cons byte rest =>
      have one := next.2 [byte] ⟨List.cons_prefix_cons.mpr ⟨rfl, List.nil_prefix⟩, positive, by simp⟩
      rw [empty] at one
      exact absurd one (by simp)
  · rw [ended] at next
    exact List.prefix_nil.mp next.1.front

/-! ## The bytes a call writes -/

/-- The bytes one call writes to `usrbuf`. -/
def Delivery.writes (delivery : Delivery) : Nat := delivery.data.length + delivery.terminated.toNat

theorem Copied.atMost {rp next : Rio} {n : Nat} {value : Option Int} {copied : List UInt8}
    (read : rp.Copied n (value, copied, next)) : copied.length ≤ n ∧ next.Sound := by
  cases value with
  | none => exact ⟨by simp [read.1], read.2.2.1⟩
  | some value => exact ⟨read.2.1, read.2.2.1⟩

theorem readline_writes (maxlen n : Nat) (stored : List UInt8) (rp : Rio) (sound : rp.Sound)
    (counter : n = stored.length + 1) (room : n ≤ maxlen) : (readline maxlen n stored rp).1.writes ≤ maxlen := by
  fun_induction readline maxlen n stored rp with
  | case1 n stored rp more copied next blocked => simp only [Delivery.writes, Bool.toNat_false]; omega
  | case2 n stored rp more next read =>
    simp only [Delivery.writes, List.length_append, List.length_singleton, Bool.toNat_true]
    omega
  | case3 n stored rp more copied next inner read ih =>
    obtain ⟨kept, -, ⟨zero, -⟩ | ⟨-, byte, rfl, -, -⟩⟩ := rioRead_one sound read
    · cases zero
    · exact ih kept (by simp [counter]) (by omega)
  | case4 stored rp copied next more read _ => simp only [Delivery.writes, Bool.toNat_false]; omega
  | case5 n stored rp more copied next later read _ => simp only [Delivery.writes, Bool.toNat_true]; omega
  | case6 n stored rp more rc copied next read notOne notZero => simp only [Delivery.writes, Bool.toNat_false]; omega
  | case7 n stored rp full => simp only [Delivery.writes, Bool.toNat_true]; omega

end Rio

namespace Session

/-- Between two calls of a benign run the reader is sound. -/
theorem reached_ready {rp : Rio} (size : rp.buf.length = rioBufsize) {stream : List UInt8}
    {schedule : List ReadOutcome} (benign : ∀ outcome ∈ schedule, outcome.Benign) {calls : List Call}
    (inRange : ∀ call ∈ calls, call.InRange) {session : Session}
    (reached : run Session.call (start rp stream schedule) calls = some session) (free : session.blocked = none) :
    session.Ready := by
  have delivers := (Ready.start size benign : Ready (start rp stream schedule)).run inRange reached
  exact ⟨delivers.sound, delivers.settled free, free⟩

/-- `rio_readlineb` returns exactly the next line, between any two calls of any benign run. It
stays blocked only when the schedule has no count left, and a count more than there are bytes
to read is enough to return. -/
theorem readlineb_next_line (rp : Rio) (size : rp.buf.length = rioBufsize) (stream : List UInt8)
    (schedule : List ReadOutcome) (benign : ∀ outcome ∈ schedule, outcome.Benign) (calls : List Call)
    (inRange : ∀ call ∈ calls, call.InRange) (session : Session)
    (reached : run Session.call (start rp stream schedule) calls = some session) (free : session.blocked = none)
    (maxlen : Nat) (positive : 1 ≤ maxlen) (small : maxlen ≤ 2 ^ 31 - 1) (delivery : Rio.Delivery) (next : Rio)
    (returned : session.rio.rioReadlineb maxlen = (delivery, next)) :
    (∀ value, delivery.value = some value →
      ∃ line, Rio.NextLine (maxlen - 1) session.rio.remaining line ∧
        value = line.length ∧ delivery.data = line ∧
        (delivery.terminated = false ↔ 1 < maxlen ∧ session.rio.remaining = []) ∧
        session.rio.remaining = line ++ next.remaining ∧
        (1 < maxlen → (value = 0 ↔ session.rio.remaining = []))) ∧
      delivery.writes ≤ maxlen ∧
      (delivery.value = none → next.fd.counts = 0) ∧
      (session.rio.fd.source.length < session.rio.fd.counts → delivery.value ≠ none) := by
  obtain ⟨sound, settled, -⟩ := reached_ready size benign inRange reached free
  have served := Rio.readline_served maxlen 1 [] session.rio sound settled rfl positive
  have writes := Rio.readline_writes maxlen 1 [] session.rio sound rfl positive
  change Rio.readline maxlen 1 [] session.rio = _ at returned
  rw [returned] at served writes
  obtain ⟨data, stored, -, ending⟩ := served
  refine ⟨fun value same => ?_, writes, fun waiting => ?_, fun enough waiting => ?_⟩
  · rcases ending with ⟨waiting, -⟩ | ⟨-, moved, -, expected⟩
    · rw [waiting] at same
      cases same
    · have line := Rio.lineOf_next (maxlen - 1) session.rio.remaining
      have left := moved.remaining
      rw [List.nil_append] at stored
      rw [← stored, expected] at left
      rw [expected] at same
      obtain rfl := Option.some.inj same
      refine ⟨_, line, rfl, by rw [expected]; rfl, ?_, left, fun more => ?_⟩
      · rw [expected]
        by_cases more : 1 < maxlen
        · have ended := line.nil_iff (by omega)
          simp [Rio.lineDelivery, more, ended]
        · simp [Rio.lineDelivery, more]
      · rw [← line.nil_iff (by omega)]
        simp
  · rcases ending with ⟨-, -, used⟩ | ⟨finished, -⟩
    · exact used
    · rw [waiting] at finished
      cases finished
  · rcases ending with ⟨-, ⟨fresh, -, source, -, paid⟩, used⟩ | ⟨finished, -⟩
    · rw [source, List.length_append] at enough
      omega
    · rw [waiting] at finished
      cases finished

/-- After one byte of a line the rest of it, refilled in two pieces. -/
theorem readlineb_next_line_pieces :
    ∃ session, run Session.call (start zeroed (bytes "abc\nd") [.count 2, .error .eintr, .count 1, .count 9])
        [.readnb 1] = some session ∧
      (session.rio.rioReadlineb 80).1.value = some 3 ∧ (session.rio.rioReadlineb 80).1.writes ≤ 80 ∧
      ∃ line, Rio.NextLine 79 session.rio.remaining line ∧ (session.rio.rioReadlineb 80).1.data = line := by
  have computed : (run Session.call (start zeroed (bytes "abc\nd") [.count 2, .error .eintr, .count 1, .count 9])
      [.readnb 1]).map (fun session => (session.blocked, (session.rio.rioReadlineb 80).1.value)) =
        some (none, some 3) := by
    decide +kernel
  obtain ⟨session, reached, same⟩ := Option.map_eq_some_iff.mp computed
  obtain ⟨free, value⟩ := Prod.mk.inj same
  obtain ⟨line, writes, -⟩ := readlineb_next_line zeroed (by simp [zeroed]) (bytes "abc\nd")
    [.count 2, .error .eintr, .count 1, .count 9] (by decide) [.readnb 1] (by decide) session reached free
    80 (by decide) (by decide) _ _ rfl
  obtain ⟨part, next, -, data, -⟩ := line 3 value
  exact ⟨session, reached, value, writes, part, next, data⟩

end Session
end UnixProgramming.Csapp

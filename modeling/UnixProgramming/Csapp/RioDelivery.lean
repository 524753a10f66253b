import UnixProgramming.Csapp.Rio

/-! Buffered reads deliver the bytes of the source in order. Every function of the
reader moves bytes from the source through the buffer to the caller; the moves compose,
and what a call returns is a function of the bytes still to come alone. -/

namespace UnixProgramming.Csapp

open UnixProgramming.Lib

/-- The outcome is a positive count or an interruption. -/
def ReadOutcome.Benign : ReadOutcome → Prop
  | .count limit => 0 < limit
  | .error errno => errno = .eintr

instance : DecidablePred ReadOutcome.Benign
  | .count limit => inferInstanceAs (Decidable (0 < limit))
  | .error errno => inferInstanceAs (Decidable (errno = .eintr))

def ReadOutcome.isCount : ReadOutcome → Bool
  | .count _ => true
  | .error _ => false

/-- How many of the outcomes to come are counts. -/
def Descriptor.counts (fd : Descriptor) : Nat := fd.schedule.countP ReadOutcome.isCount

def Descriptor.Benign (fd : Descriptor) : Prop := ∀ outcome ∈ fd.schedule, outcome.Benign

namespace Descriptor
variable {fd next : Descriptor}

theorem counts_of_blocked {size : Nat} (blocked : fd.read size = none) : fd.counts = 0 := by
  unfold read at blocked
  split at blocked
  · next same => simp [counts, same]
  · cases blocked
  · cases blocked

/-- A `read()` that fails changes nothing but the schedule. -/
theorem read_error {size : Nat} {errno : Errno} (taken : fd.read size = some (.error errno, next)) :
    fd.schedule = .error errno :: next.schedule ∧ next.source = fd.source ∧ next.obtained = fd.obtained ∧
      next.counts = fd.counts := by
  unfold read at taken
  split at taken
  · cases taken
  · next same =>
    cases taken
    exact ⟨same, rfl, rfl, by simp [counts, same, ReadOutcome.isCount]⟩
  · cases taken

/-- A `read()` that succeeds moves bytes from the source. -/
theorem read_ok {size : Nat} {got : List UInt8} (taken : fd.read size = some (.ok got, next)) :
    ∃ limit, fd.schedule = .count limit :: next.schedule ∧ got = fd.source.take (min limit size) ∧
      next.source = fd.source.drop (min limit size) ∧ next.obtained = fd.obtained ++ got ∧
      fd.counts = next.counts + 1 := by
  unfold read at taken
  split at taken
  · cases taken
  · cases taken
  · next limit rest same =>
    cases taken
    exact ⟨limit, same, rfl, rfl, rfl, by simp [counts, same, List.countP_cons, ReadOutcome.isCount]⟩

theorem Benign.error (benign : fd.Benign) {errno : Errno} (same : fd.schedule = .error errno :: next.schedule) :
    errno = .eintr ∧ next.Benign := by
  rw [Benign, same, List.forall_mem_cons] at benign
  exact benign

theorem Benign.count (benign : fd.Benign) {limit : Nat} (same : fd.schedule = .count limit :: next.schedule) :
    0 < limit ∧ next.Benign := by
  rw [Benign, same, List.forall_mem_cons] at benign
  exact benign

end Descriptor

namespace Rio

/-- The `rio_cnt` bytes at `rio_bufptr`. -/
def unread (rp : Rio) : List UInt8 := if 0 < rp.cnt then (rp.buf.drop rp.bufptr).take rp.cnt.toNat else []

/-- What the caller has yet to see. -/
def remaining (rp : Rio) : List UInt8 := rp.unread ++ rp.fd.source

structure Sound (rp : Rio) : Prop where
  size : rp.buf.length = rioBufsize
  pointer : rp.bufptr ≤ rioBufsize
  inside : rp.bufptr + rp.cnt ≤ rioBufsize
  benign : rp.fd.Benign

/-- From `rp` to `next` the caller got `data`: the bytes `read()` returned meanwhile went
behind the unread ones, and `ends` bounds the reads that found the end of the source. -/
def Moved (rp : Rio) (data : List UInt8) (ends : Nat) (next : Rio) : Prop :=
  ∃ fresh, next.fd.obtained = rp.fd.obtained ++ fresh ∧ rp.fd.source = fresh ++ next.fd.source ∧
    rp.unread ++ fresh = data ++ next.unread ∧ rp.fd.counts ≤ next.fd.counts + fresh.length + ends

theorem Moved.refl (rp : Rio) : rp.Moved [] 0 rp := ⟨[], by simp⟩

theorem Moved.trans {first second third : Rio} {data more : List UInt8} {ends others : Nat}
    (left : first.Moved data ends second) (right : second.Moved more others third) :
    first.Moved (data ++ more) (ends + others) third := by
  obtain ⟨fresh, obtained, source, bytes, paid⟩ := left
  obtain ⟨later, obtainedLater, sourceLater, bytesLater, paidLater⟩ := right
  refine ⟨fresh ++ later, ?_, ?_, ?_, ?_⟩
  · rw [obtainedLater, obtained, List.append_assoc]
  · rw [source, sourceLater, List.append_assoc]
  · rw [← List.append_assoc, bytes, List.append_assoc, bytesLater, List.append_assoc]
  · rw [List.length_append]
    omega

theorem Moved.mono {rp next : Rio} {data : List UInt8} {ends others : Nat} (moved : rp.Moved data ends next)
    (more : ends ≤ others) : rp.Moved data others next := by
  obtain ⟨fresh, obtained, source, bytes, paid⟩ := moved
  exact ⟨fresh, obtained, source, bytes, by omega⟩

theorem Moved.remaining {rp next : Rio} {data : List UInt8} {ends : Nat} (moved : rp.Moved data ends next) :
    rp.remaining = data ++ next.remaining := by
  obtain ⟨fresh, -, source, bytes, -⟩ := moved
  rw [Rio.remaining, source, ← List.append_assoc, bytes, List.append_assoc, Rio.remaining]

theorem unread_of_pos {rp : Rio} (positive : 0 < rp.cnt) :
    rp.unread = (rp.buf.drop rp.bufptr).take rp.cnt.toNat := if_pos positive

theorem unread_of_nonpos {rp : Rio} (empty : rp.cnt ≤ 0) : rp.unread = [] := if_neg (by omega)

/-! ## Refilling -/

/-- What one refilling loop leads to. -/
def Refilled (rp : Rio) : Refill × Rio → Prop
  | (.ready, next) => rp.Moved [] 0 next ∧ next.Sound ∧ 0 < next.cnt
  | (.returned value, next) => rp.Moved [] 1 next ∧ next.Sound ∧ value = 0 ∧ next.cnt = 0 ∧ next.fd.source = []
  | (.blocked, next) => rp.Moved [] 0 next ∧ next.Sound ∧ next.cnt ≤ 0 ∧ next.fd.counts = 0

theorem Refilled.after {first second : Rio} {result : Refill × Rio} (moved : first.Moved [] 0 second)
    (refilled : second.Refilled result) : first.Refilled result := by
  obtain ⟨ending, next⟩ := result
  cases ending with
  | ready => exact ⟨moved.trans refilled.1, refilled.2⟩
  | returned value => exact ⟨by simpa using moved.trans refilled.1, refilled.2⟩
  | blocked => exact ⟨moved.trans refilled.1, refilled.2⟩

/-- A failed `read()` moves no bytes. -/
theorem moved_error {rp : Rio} {errno : Errno} {fd : Descriptor} (empty : rp.cnt ≤ 0)
    (taken : rp.fd.read rioBufsize = some (.error errno, fd)) : rp.Moved [] 0 { rp with fd := fd, cnt := -1 } := by
  obtain ⟨-, source, obtained, counts⟩ := Descriptor.read_error taken
  refine ⟨[], ?_⟩
  rw [unread_of_nonpos empty, unread_of_nonpos (by simp)]
  simp [source, obtained, counts]

/-- The bytes of a `read()` fill the buffer. -/
theorem moved_ok {rp : Rio} {got : List UInt8} {fd : Descriptor} (empty : rp.cnt ≤ 0)
    (taken : rp.fd.read rioBufsize = some (.ok got, fd)) (more : got ≠ []) :
    rp.Moved [] 0 { fd := fd, cnt := got.length, bufptr := 0, buf := got ++ rp.buf.drop got.length } := by
  obtain ⟨limit, -, sent, source, obtained, counts⟩ := Descriptor.read_ok taken
  have positive := List.length_pos_iff.mpr more
  refine ⟨got, obtained, ?_, ?_, ?_⟩
  · rw [source, sent, List.take_append_drop]
  · rw [unread_of_nonpos empty, unread_of_pos (by simpa using positive)]
    simp
  · show rp.fd.counts ≤ fd.counts + got.length + 0
    omega

/-- The end of the source. -/
theorem moved_eof {rp : Rio} {fd : Descriptor} (empty : rp.cnt ≤ 0)
    (taken : rp.fd.read rioBufsize = some (.ok [], fd)) : rp.Moved [] 1 { rp with fd := fd, cnt := 0 } := by
  obtain ⟨limit, -, sent, source, obtained, counts⟩ := Descriptor.read_ok taken
  refine ⟨[], by simpa using obtained, ?_, ?_, ?_⟩
  · rw [List.nil_append, ← List.take_append_drop (min limit rioBufsize) rp.fd.source, ← sent, ← source]
    rfl
  · rw [unread_of_nonpos empty, unread_of_nonpos (by simp)]
  · show rp.fd.counts ≤ fd.counts + 0 + 1
    omega

theorem refill_refilled (rp : Rio) (sound : rp.Sound) : rp.Refilled rp.refill := by
  fun_induction refill rp with
  | case1 rp positive => exact ⟨.refl rp, sound, positive⟩
  | case2 rp empty blocked => exact ⟨.refl rp, sound, by omega, Descriptor.counts_of_blocked blocked⟩
  | case3 rp empty errno fd taken other => exact absurd (sound.benign.error (Descriptor.read_error taken).1).1 other
  | case4 rp empty errno fd taken same ih =>
    obtain ⟨-, benign⟩ := sound.benign.error (Descriptor.read_error taken).1
    have pointer := sound.pointer
    refine .after (moved_error (Int.not_lt.mp empty) taken) (ih ⟨sound.size, sound.pointer, ?_, benign⟩)
    show (rp.bufptr : Int) + -1 ≤ rioBufsize
    omega
  | case5 rp empty got fd taken filled eof =>
    obtain rfl : got = [] := by simpa [filled] using eof
    obtain ⟨limit, schedule, none, source, -, -⟩ := Descriptor.read_ok taken
    obtain ⟨positive, benign⟩ := sound.benign.count schedule
    have ended : fd.source = [] := by
      rcases List.take_eq_nil_iff.mp none.symm with zero | nothing
      · rw [rioBufsize] at zero
        omega
      · rw [source, nothing, List.drop_nil]
    refine ⟨moved_eof (Int.not_lt.mp empty) taken, ⟨sound.size, sound.pointer, ?_, benign⟩, rfl, rfl, ended⟩
    simpa [filled] using sound.pointer
  | case6 rp empty got fd taken filled more ih =>
    have nonempty : got ≠ [] := by
      rintro rfl
      exact more rfl
    obtain ⟨limit, schedule, sent, -, -, -⟩ := Descriptor.read_ok taken
    have fits : got.length ≤ rioBufsize := by
      rw [sent, List.length_take]
      omega
    have size := sound.size
    refine .after (moved_ok (Int.not_lt.mp empty) taken nonempty)
      (ih ⟨?_, Nat.zero_le _, ?_, (sound.benign.count schedule).2⟩)
    · simp only [filled, List.length_append, List.length_drop, size]
      omega
    · simpa [filled] using fits

/-! ## Reading from the buffer -/

/-- What one `rio_read` of `n` bytes leads to: nothing is copied only at the end of the source. -/
def Copied (rp : Rio) (n : Nat) : Option Int × List UInt8 × Rio → Prop
  | (none, copied, next) => copied = [] ∧ rp.Moved [] 0 next ∧ next.Sound ∧ next.fd.counts = 0
  | (some value, copied, next) => value = copied.length ∧ copied.length ≤ n ∧ next.Sound ∧ 0 ≤ next.cnt ∧
      ((copied = [] ∧ rp.Moved [] 1 next ∧ rp.remaining = []) ∨ (copied ≠ [] ∧ rp.Moved copied 0 next))

/-- The first `count` unread bytes go to the caller. -/
theorem consume {rp : Rio} (inside : rp.bufptr + rp.cnt ≤ rp.buf.length) {count : Nat} (positive : 0 < count)
    (available : count ≤ rp.cnt) :
    ((rp.buf.drop rp.bufptr).take count).length = count ∧
      rp.Moved ((rp.buf.drop rp.bufptr).take count) 0
        { rp with bufptr := rp.bufptr + count, cnt := rp.cnt - count } := by
  refine ⟨by rw [List.length_take, List.length_drop]; omega, [], by simp, by simp, ?_, by simp [Descriptor.counts]⟩
  rw [unread_of_pos (by omega), List.append_nil]
  by_cases more : 0 < rp.cnt - count
  · have split : rp.cnt.toNat = count + (rp.cnt - count).toNat := by omega
    rw [unread_of_pos more, split, List.take_add, List.drop_drop]
  · have all : rp.cnt.toNat = count := by omega
    rw [unread_of_nonpos (Int.not_lt.mp more), List.append_nil, all]

theorem toInt32_of_small {n : Nat} (small : n ≤ rioBufsize) : toInt32 n = n := by
  unfold toInt32
  rw [rioBufsize] at small
  omega

/-- The copied length is the smaller of `n` and `rio_cnt`, whatever the conversions do. -/
theorem rioRead_ready {rp next : Rio} (same : rp.refill = (.ready, next)) (positive : 0 < next.cnt)
    (small : next.cnt ≤ rioBufsize) (n : Nat) :
    rp.rioRead n = (some ((min next.cnt.toNat n : Nat) : Int), (next.buf.drop next.bufptr).take (min next.cnt.toNat n),
      { next with bufptr := next.bufptr + min next.cnt.toNat n, cnt := next.cnt - (min next.cnt.toNat n : Nat) }) := by
  rw [rioBufsize] at small
  have count : (if next.cnt % 2 ^ 64 < n then next.cnt else toInt32 n) = ((min next.cnt.toNat n : Nat) : Int) := by
    rw [Int.emod_eq_of_lt (by omega) (by omega)]
    split_ifs with short
    · omega
    · rw [toInt32_of_small (by rw [rioBufsize]; omega)]
      omega
  have unsigned : ((min next.cnt.toNat n : Nat) : Int) % 2 ^ 64 = (min next.cnt.toNat n : Nat) := by omega
  unfold rioRead
  rw [same]
  dsimp only
  rw [count, unsigned, Int.toNat_natCast, ← Int.natCast_add, Int.toNat_natCast]

theorem rioRead_copied (rp : Rio) (sound : rp.Sound) {n : Nat} (wanted : 0 < n) : rp.Copied n (rp.rioRead n) := by
  have refilled := refill_refilled rp sound
  match same : rp.refill with
  | (.blocked, next) =>
    rw [same] at refilled
    rw [rioRead, same]
    exact ⟨rfl, refilled.1, refilled.2.1, refilled.2.2.2⟩
  | (.returned value, next) =>
    rw [same] at refilled
    rw [rioRead, same]
    obtain ⟨moved, kept, rfl, empty, ended⟩ := refilled
    have nothing : rp.remaining = [] := by
      rw [moved.remaining, Rio.remaining, unread_of_nonpos (by omega), ended]
      rfl
    exact ⟨rfl, Nat.zero_le _, kept, by omega, .inl ⟨rfl, moved, nothing⟩⟩
  | (.ready, next) =>
    rw [same] at refilled
    obtain ⟨moved, kept, positive⟩ := refilled
    have inside := kept.inside
    rw [rioRead_ready same positive (by omega)]
    have room : 0 < min next.cnt.toNat n := by omega
    obtain ⟨length, consumed⟩ := consume (by rw [kept.size]; exact inside) room (by omega)
    refine ⟨by rw [length], by rw [length]; omega, ⟨kept.size, ?_, ?_, kept.benign⟩, ?_, .inr ⟨?_, ?_⟩⟩
    · show next.bufptr + min next.cnt.toNat n ≤ rioBufsize
      omega
    · show ((next.bufptr + min next.cnt.toNat n : Nat) : Int) + (next.cnt - _) ≤ rioBufsize
      omega
    · show 0 ≤ next.cnt - _
      omega
    · exact List.length_pos_iff.mp (by omega)
    · exact moved.trans consumed

/-! ## The two calls -/

/-- The next line of at most `room` bytes. -/
def lineOf : Nat → List UInt8 → List UInt8
  | 0, _ => []
  | _, [] => []
  | room + 1, byte :: rest => if byte = newline then [byte] else byte :: lineOf room rest

@[simp] theorem lineOf_zero (stream : List UInt8) : lineOf 0 stream = [] := rfl

@[simp] theorem lineOf_nil (room : Nat) : lineOf room [] = [] := by cases room <;> rfl

/-- What a loop leads to that had stored some bytes before and has an expected end. -/
def Served (rp : Rio) (stored : List UInt8) (expected : Delivery) : Delivery × Rio → Prop
  | (delivery, next) => ∃ data, delivery.data = stored ++ data ∧ next.Sound ∧
      ((delivery.value = none ∧ rp.Moved data 0 next ∧ next.fd.counts = 0) ∨
        (delivery.value.isSome ∧ rp.Moved data 1 next ∧ 0 ≤ next.cnt ∧ delivery = expected))

theorem Served.after {first second : Rio} {stored data : List UInt8} {expected : Delivery}
    {result : Delivery × Rio} (moved : first.Moved data 0 second)
    (served : second.Served (stored ++ data) expected result) : first.Served stored expected result := by
  obtain ⟨more, same, sound, ending⟩ := served
  refine ⟨data ++ more, by rw [same, List.append_assoc], sound, ?_⟩
  rcases ending with ⟨waiting, later, used⟩ | ⟨finished, later, settled, expected⟩
  · exact .inl ⟨waiting, moved.trans later, used⟩
  · exact .inr ⟨finished, by simpa using moved.trans later, settled, expected⟩

/-- A blocked `rio_read` blocks the call. -/
theorem Copied.blocked {rp next : Rio} {n : Nat} {copied : List UInt8} (read : rp.Copied n (none, copied, next))
    (stored : List UInt8) (expected : Delivery) : rp.Served stored expected (⟨none, stored, false⟩, next) := by
  obtain ⟨-, moved, sound, used⟩ := read
  exact ⟨[], by simp, sound, .inl ⟨rfl, moved, used⟩⟩

/-- What `rio_readlineb` returns when it has stored `stored` and `stream` is to come. -/
def lineDelivery (maxlen : Nat) (stored stream : List UInt8) : Delivery :=
  let line := stored ++ lineOf (maxlen - 1 - stored.length) stream
  ⟨some line.length, line, !(line.isEmpty && decide (1 < maxlen))⟩

/-- A `rio_read` of one byte that returned. -/
theorem rioRead_one {rp next : Rio} (sound : rp.Sound) {value : Int} {copied : List UInt8}
    (read : rp.rioRead 1 = (some value, copied, next)) :
    next.Sound ∧ 0 ≤ next.cnt ∧
      ((value = 0 ∧ copied = [] ∧ rp.Moved [] 1 next ∧ rp.remaining = []) ∨
        (value = 1 ∧ ∃ byte, copied = [byte] ∧ rp.Moved [byte] 0 next ∧ rp.remaining = byte :: next.remaining)) := by
  have outcome := rioRead_copied rp sound Nat.one_pos
  rw [read] at outcome
  obtain ⟨rfl, atMost, kept, settled, ⟨rfl, moved, ended⟩ | ⟨nonempty, moved⟩⟩ := outcome
  · exact ⟨kept, settled, .inl ⟨rfl, rfl, moved, ended⟩⟩
  · have positive := List.length_pos_iff.mpr nonempty
    obtain ⟨byte, rfl⟩ := List.length_eq_one_iff.mp (by omega : copied.length = 1)
    exact ⟨kept, settled, .inr ⟨rfl, byte, rfl, moved, moved.remaining⟩⟩

theorem lineDelivery_cons {maxlen : Nat} {stored : List UInt8} (room : stored.length + 1 < maxlen)
    {byte : UInt8} (inner : byte ≠ newline) (stream : List UInt8) :
    lineDelivery maxlen stored (byte :: stream) = lineDelivery maxlen (stored ++ [byte]) stream := by
  have fewer : maxlen - 1 - stored.length = maxlen - 1 - (stored ++ [byte]).length + 1 := by
    rw [List.length_append, List.length_singleton]
    omega
  simp only [lineDelivery, fewer, lineOf, if_neg inner, List.append_assoc, List.singleton_append]

theorem lineDelivery_newline {maxlen : Nat} {stored : List UInt8} (room : stored.length + 1 < maxlen)
    (stream : List UInt8) :
    lineDelivery maxlen stored (newline :: stream) =
      ⟨some (stored.length + 1 : Nat), stored ++ [newline], true⟩ := by
  obtain ⟨fewer, same⟩ : ∃ fewer, maxlen - 1 - stored.length = fewer + 1 := ⟨maxlen - 2 - stored.length, by omega⟩
  simp [lineDelivery, same, lineOf]

theorem readline_served (maxlen n : Nat) (stored : List UInt8) (rp : Rio) (sound : rp.Sound)
    (settled : 0 ≤ rp.cnt) (counter : n = stored.length + 1) (room : n ≤ maxlen) :
    rp.Served stored (lineDelivery maxlen stored rp.remaining) (readline maxlen n stored rp) := by
  fun_induction readline maxlen n stored rp with
  | case1 n stored rp more copied next blocked =>
    have read := rioRead_copied rp sound Nat.one_pos
    rw [blocked] at read
    exact read.blocked _ _
  | case2 n stored rp more next read =>
    obtain ⟨kept, settled, ⟨zero, -⟩ | ⟨-, byte, same, moved, stream⟩⟩ := rioRead_one sound read
    · cases zero
    · cases same
      refine ⟨[newline], rfl, kept, .inr ⟨rfl, moved.mono (Nat.zero_le 1), settled, ?_⟩⟩
      rw [stream, lineDelivery_newline (by omega), counter]
  | case3 n stored rp more copied next inner read ih =>
    obtain ⟨kept, settled, ⟨zero, -⟩ | ⟨-, byte, rfl, moved, stream⟩⟩ := rioRead_one sound read
    · cases zero
    · rw [stream, lineDelivery_cons (by omega) (by simpa using inner)]
      exact .after moved (ih kept settled (by simp [counter]) (by omega))
  | case4 stored rp copied next more read _ =>
    obtain ⟨kept, settled, ⟨-, rfl, moved, ended⟩ | ⟨one, -⟩⟩ := rioRead_one sound read
    · obtain rfl : stored = [] := List.eq_nil_of_length_eq_zero (by omega)
      refine ⟨[], rfl, kept, .inr ⟨rfl, moved, settled, ?_⟩⟩
      simp [lineDelivery, ended, more]
    · cases one
  | case5 n stored rp more copied next later read _ =>
    obtain ⟨kept, settled, ⟨-, rfl, moved, ended⟩ | ⟨one, -⟩⟩ := rioRead_one sound read
    · refine ⟨[], by simp, kept, .inr ⟨rfl, moved, settled, ?_⟩⟩
      have nonempty : stored ≠ [] := by
        rintro rfl
        exact later counter
      simp [lineDelivery, ended, counter, nonempty]
    · cases one
  | case6 n stored rp more rc copied next read notOne notZero =>
    obtain ⟨-, -, ⟨zero, -⟩ | ⟨one, -⟩⟩ := rioRead_one sound read
    · exact absurd zero notZero
    · exact absurd one notOne
  | case7 n stored rp full =>
    obtain rfl : n = maxlen := by omega
    refine ⟨[], by simp, sound, .inr ⟨rfl, (Moved.refl rp).mono (Nat.zero_le 1), settled, ?_⟩⟩
    subst counter
    cases stored <;> simp [lineDelivery]

/-- What `rio_readnb` returns when it has stored `stored` and `stream` is to come. -/
def blockDelivery (n : Nat) (stored stream : List UInt8) : Delivery :=
  let block := stored ++ stream.take (n - stored.length)
  ⟨some (toSsize block.length), block, false⟩

theorem blockDelivery_append {n : Nat} {stored copied : List UInt8} (room : stored.length + copied.length ≤ n)
    (stream : List UInt8) :
    blockDelivery n stored (copied ++ stream) = blockDelivery n (stored ++ copied) stream := by
  have whole : copied.take (n - stored.length) = copied := List.take_of_length_le (by omega)
  simp only [blockDelivery, List.take_append, whole, List.length_append, List.append_assoc, Nat.sub_add_eq]

theorem readBlock_served (n nleft : Nat) (stored : List UInt8) (rp : Rio) (sound : rp.Sound)
    (settled : 0 ≤ rp.cnt) (counter : nleft + stored.length = n) :
    rp.Served stored (blockDelivery n stored rp.remaining) (readBlock n nleft stored rp) := by
  fun_induction readBlock n nleft stored rp with
  | case1 nleft stored rp more copied next blocked =>
    have read := rioRead_copied rp sound more
    rw [blocked] at read
    exact read.blocked _ _
  | case2 nleft stored rp more nread copied next read negative =>
    have outcome := rioRead_copied rp sound more
    rw [read] at outcome
    have value : nread = copied.length := outcome.1
    omega
  | case3 nleft stored rp more copied next read _ =>
    have outcome := rioRead_copied rp sound more
    rw [read] at outcome
    obtain ⟨zero, -, kept, settled, ⟨rfl, moved, ended⟩ | ⟨nonempty, -⟩⟩ := outcome
    · refine ⟨[], by simp, kept, .inr ⟨rfl, moved, settled, ?_⟩⟩
      have stores : (n : Int) - nleft = stored.length := by omega
      simp [blockDelivery, ended, stores]
    · exact absurd (List.eq_nil_of_length_eq_zero (by omega)) nonempty
  | case4 nleft stored rp more nread copied next read notNegative notZero ih =>
    have outcome := rioRead_copied rp sound more
    rw [read] at outcome
    obtain ⟨rfl, atMost, kept, settled, ⟨rfl, -⟩ | ⟨-, moved⟩⟩ := outcome
    · exact absurd rfl notZero
    · rw [moved.remaining, blockDelivery_append (by omega)]
      refine .after moved (ih kept settled ?_)
      rw [List.length_append, Int.toNat_natCast]
      omega
  | case5 nleft stored rp full =>
    obtain rfl : nleft = 0 := by omega
    refine ⟨[], by simp, sound, .inr ⟨rfl, (Moved.refl rp).mono (Nat.zero_le 1), settled, ?_⟩⟩
    simp [blockDelivery, ← counter]

end Rio

/-! ## Sequences of calls -/

inductive Call where
  | readlineb (maxlen : Nat)
  | readnb (n : Nat)
  deriving DecidableEq, Repr

namespace Call

def perform (rp : Rio) : Call → Rio.Delivery × Rio
  | .readlineb maxlen => rp.rioReadlineb maxlen
  | .readnb n => rp.rioReadnb n

/-- The size is one the call can be given: at most `INT_MAX` for a line, a `size_t` for a block. -/
def InRange : Call → Prop
  | .readlineb maxlen => 1 ≤ maxlen ∧ maxlen ≤ 2 ^ 31 - 1
  | .readnb n => n < 2 ^ 64

instance : DecidablePred InRange
  | .readlineb maxlen => inferInstanceAs (Decidable (1 ≤ maxlen ∧ maxlen ≤ 2 ^ 31 - 1))
  | .readnb n => inferInstanceAs (Decidable (n < 2 ^ 64))

/-- What the call returns when `stream` is to come: no outcome of `read()` has a part in it. -/
def answer (stream : List UInt8) : Call → Rio.Delivery
  | .readlineb maxlen => Rio.lineDelivery maxlen [] stream
  | .readnb n => Rio.blockDelivery n [] stream

/-- What a sequence of calls returns, each for the bytes the ones before it left. -/
def answers (stream : List UInt8) : List Call → List Rio.Delivery
  | [] => []
  | call :: rest => answer stream call :: answers (stream.drop (answer stream call).data.length) rest

theorem perform_served {rp : Rio} (sound : rp.Sound) (settled : 0 ≤ rp.cnt) {call : Call} (inRange : call.InRange) :
    rp.Served [] (call.answer rp.remaining) (call.perform rp) := by
  cases call with
  | readlineb maxlen => exact Rio.readline_served maxlen 1 [] rp sound settled rfl inRange.1
  | readnb n => exact Rio.readBlock_served n n [] rp sound settled rfl

end Call

/-- One `rio_t` in use. -/
structure Session where
  rio : Rio
  /-- The calls that have returned, in order. -/
  returned : List Rio.Delivery
  /-- What a call has stored that is blocked in `read()`. -/
  blocked : Option (List UInt8)
  deriving DecidableEq, Repr

namespace Session

/-- The state after `rio_readinitb` on a `rio_t` that holds anything. -/
def start (rp : Rio) (stream : List UInt8) (schedule : List ReadOutcome) : Session where
  rio := rp.rioReadinitb ⟨stream, schedule, []⟩
  returned := []
  blocked := none

def call (session : Session) (call : Call) : Option Session :=
  match session.blocked with
  | some _ => none
  | none =>
    let (delivery, rio) := call.perform session.rio
    match delivery.value with
    | some _ => some { rio := rio, returned := session.returned ++ [delivery], blocked := none }
    | none => some { rio := rio, returned := session.returned, blocked := some delivery.data }

/-- The bytes stored for the caller so far. -/
def delivered (session : Session) : List UInt8 :=
  session.returned.flatMap (·.data) ++ session.blocked.getD []

/-- The session between two calls. -/
structure Ready (session : Session) : Prop where
  sound : session.rio.Sound
  settled : 0 ≤ session.rio.cnt
  free : session.blocked = none

theorem Ready.start {rp : Rio} (size : rp.buf.length = rioBufsize) {stream : List UInt8}
    {schedule : List ReadOutcome} (benign : ∀ outcome ∈ schedule, outcome.Benign) :
    Ready (start rp stream schedule) :=
  ⟨⟨size, Nat.zero_le _, by simp [Session.start, Rio.rioReadinitb], benign⟩, Int.le_refl 0, rfl⟩

/-- A call either returns its answer or stays blocked with no count left in the schedule. -/
theorem Ready.call {session : Session} (ready : session.Ready) {call : Call} (inRange : call.InRange) :
    ∃ next data, session.call call = some next ∧ next.delivered = session.delivered ++ data ∧ next.rio.Sound ∧
      ((next.Ready ∧ next.returned = session.returned ++ [call.answer session.rio.remaining] ∧
          data = (call.answer session.rio.remaining).data ∧ session.rio.Moved data 1 next.rio) ∨
        (next.blocked.isSome ∧ next.returned = session.returned ∧ session.rio.Moved data 0 next.rio ∧
          next.rio.fd.counts = 0)) := by
  obtain ⟨sound, settled, free⟩ := ready
  have served := Call.perform_served sound settled inRange
  unfold Session.call
  rw [free]
  generalize call.perform session.rio = result at served
  obtain ⟨delivery, rio⟩ := result
  obtain ⟨data, stored, kept, ⟨waiting, moved, used⟩ | ⟨finished, moved, calm, expected⟩⟩ := served
  · simp only [waiting]
    refine ⟨_, data, rfl, ?_, kept, .inr ⟨rfl, rfl, moved, used⟩⟩
    simp [delivered, free, stored]
  · obtain ⟨value, same⟩ := Option.isSome_iff_exists.mp finished
    simp only [same]
    refine ⟨_, data, rfl, ?_, kept, .inl ⟨⟨kept, calm, rfl⟩, by rw [expected], ?_, moved⟩⟩
    · simp [delivered, free, stored]
    · rw [← expected, stored, List.nil_append]

theorem run_blocked {session final : Session} (waiting : session.blocked.isSome) {calls : List Call}
    (reached : run Session.call session calls = some final) : calls = [] ∧ final = session := by
  cases calls with
  | nil => exact ⟨rfl, (Option.some.inj reached).symm⟩
  | cons call rest =>
    obtain ⟨next, taken, -⟩ := run_cons_some.mp reached
    obtain ⟨data, same⟩ := Option.isSome_iff_exists.mp waiting
    simp [Session.call, same] at taken

/-- What a sequence of calls has done when it came to its end or to a call that is blocked. -/
structure Delivers (session : Session) (calls : List Call) (final : Session) : Prop where
  moved : ∃ data ends, final.delivered = session.delivered ++ data ∧ session.rio.Moved data ends final.rio
  sound : final.rio.Sound
  answered : ∃ deliveries, final.returned = session.returned ++ deliveries ∧
    deliveries <+: Call.answers session.rio.remaining calls ∧
    (final.blocked = none → deliveries = Call.answers session.rio.remaining calls)
  settled : final.blocked = none → 0 ≤ final.rio.cnt

theorem Ready.run {session final : Session} (ready : session.Ready) {calls : List Call}
    (inRange : ∀ call ∈ calls, call.InRange) (reached : run Session.call session calls = some final) :
    session.Delivers calls final := by
  induction calls generalizing session with
  | nil =>
    cases Option.some.inj reached
    exact ⟨⟨[], 0, by simp, .refl _⟩, ready.sound, ⟨[], by simp, by simp, fun _ => rfl⟩, fun _ => ready.settled⟩
  | cons call rest ih =>
    obtain ⟨here, later⟩ := List.forall_mem_cons.mp inRange
    obtain ⟨next, taken, remaining⟩ := run_cons_some.mp reached
    obtain ⟨_, data, same, stored, sound, outcome⟩ := ready.call here
    cases Option.some.inj (taken.symm.trans same)
    rcases outcome with ⟨again, returned, answered, moved⟩ | ⟨waiting, returned, moved, -⟩
    · have stream : next.rio.remaining =
          session.rio.remaining.drop (call.answer session.rio.remaining).data.length := by
        rw [← answered, moved.remaining, List.drop_left]
      obtain ⟨⟨more, ends, stores, moves⟩, kept, ⟨deliveries, returns, initial, all⟩, calm⟩ :=
        ih again later remaining
      refine ⟨⟨data ++ more, 1 + ends, ?_, moved.trans moves⟩, kept,
        ⟨call.answer session.rio.remaining :: deliveries, ?_, ?_, fun free => ?_⟩, calm⟩
      · rw [stores, stored, List.append_assoc]
      · rw [returns, returned, List.append_assoc, List.singleton_append]
      · rw [Call.answers, ← stream]
        exact List.cons_prefix_cons.mpr ⟨rfl, initial⟩
      · rw [Call.answers, ← stream, all free]
    · obtain ⟨rfl, rfl⟩ := run_blocked waiting remaining
      have busy : final.blocked ≠ none := Option.isSome_iff_ne_none.mp waiting
      exact ⟨⟨data, 0, stored, moved⟩, sound, ⟨[], by simp [returned], by simp, fun free => absurd free busy⟩,
        fun free => absurd free busy⟩

/-- Every byte to come and every call cost at most one count of the schedule. -/
theorem Ready.run_total {session : Session} (ready : session.Ready) {calls : List Call}
    (inRange : ∀ call ∈ calls, call.InRange)
    (enough : session.rio.fd.source.length + calls.length ≤ session.rio.fd.counts) :
    ∃ final, Lib.run Session.call session calls = some final ∧ final.blocked = none := by
  induction calls generalizing session with
  | nil => exact ⟨session, rfl, ready.free⟩
  | cons call rest ih =>
    obtain ⟨here, later⟩ := List.forall_mem_cons.mp inRange
    obtain ⟨next, data, taken, -, -, outcome⟩ := ready.call here
    rw [List.length_cons] at enough
    rcases outcome with ⟨again, -, -, fresh, -, source, -, paid⟩ | ⟨-, -, ⟨fresh, -, source, -, paid⟩, used⟩
    · rw [source, List.length_append] at enough
      obtain ⟨final, reached, free⟩ := ih again later (by omega)
      exact ⟨final, run_cons_some.mpr ⟨next, taken, reached⟩, free⟩
    · rw [source, List.length_append] at enough
      omega

/-- Buffered input is exact. For every content of the `rio_t`, stream, benign schedule and
sequence of calls, what the calls delivered and the unread bytes are the bytes obtained, the
pointer stays in the buffer, and the calls return what the stream alone determines; with
enough outcomes every call returns. -/
theorem buffered_input_exact (rp : Rio) (size : rp.buf.length = rioBufsize) (stream : List UInt8)
    (schedule : List ReadOutcome) (benign : ∀ outcome ∈ schedule, outcome.Benign) (calls : List Call)
    (inRange : ∀ call ∈ calls, call.InRange) :
    (∀ final, Lib.run Session.call (start rp stream schedule) calls = some final →
      final.delivered ++ final.rio.unread = final.rio.fd.obtained ∧
      final.rio.fd.obtained ++ final.rio.fd.source = stream ∧
      final.rio.bufptr ≤ rioBufsize ∧ final.rio.bufptr + final.rio.cnt ≤ rioBufsize ∧
      final.returned <+: Call.answers stream calls ∧
      (final.blocked = none → 0 ≤ final.rio.cnt ∧ final.returned = Call.answers stream calls)) ∧
    (stream.length + calls.length ≤ schedule.countP ReadOutcome.isCount →
      ∃ final, Lib.run Session.call (start rp stream schedule) calls = some final ∧ final.blocked = none) := by
  have ready : Ready (start rp stream schedule) := .start size benign
  refine ⟨fun final reached => ?_, fun enough => ready.run_total inRange enough⟩
  obtain ⟨⟨data, ends, stored, fresh, obtained, source, bytes, -⟩, sound, ⟨deliveries, returned, initial, all⟩, calm⟩ :=
    ready.run inRange reached
  have stores : final.delivered = data := stored
  have returns : final.returned = deliveries := returned
  replace obtained : final.rio.fd.obtained = fresh := obtained
  replace source : stream = fresh ++ final.rio.fd.source := source
  replace bytes : fresh = data ++ final.rio.unread := bytes
  have whole : (start rp stream schedule).rio.remaining = stream := rfl
  rw [whole, ← returns] at initial all
  refine ⟨?_, ?_, sound.pointer, sound.inside, initial, fun free => ⟨calm free, all free⟩⟩
  · rw [obtained, stores, bytes]
  · rw [obtained, source]

/-- A `rio_t` whose buffer holds zeros. -/
def zeroed : Rio := ⟨⟨[], [], []⟩, 0, 0, List.replicate rioBufsize 0⟩

/-- Two lines read as a line and a block, in pieces and with an interruption. -/
theorem buffered_input_exact_interrupted :
    ∃ final, Lib.run Session.call
        (start zeroed (bytes "ab\ncd") [.count 1, .error .eintr, .count 4, .count 1, .count 9, .count 1, .count 1, .count 1])
        [.readlineb 80, .readnb 100] = some final ∧
      final.returned = [⟨some 3, bytes "ab\n", true⟩, ⟨some 2, bytes "cd", false⟩] ∧
      final.delivered ++ final.rio.unread = final.rio.fd.obtained := by
  obtain ⟨exact, total⟩ := buffered_input_exact zeroed (by simp [zeroed]) (bytes "ab\ncd")
    [.count 1, .error .eintr, .count 4, .count 1, .count 9, .count 1, .count 1, .count 1] (by decide)
    [.readlineb 80, .readnb 100] (by decide)
  obtain ⟨final, reached, free⟩ := total (by decide)
  obtain ⟨bytesExact, -, -, -, -, settled⟩ := exact final reached
  refine ⟨final, reached, ?_, bytesExact⟩
  rw [(settled free).2]
  decide +kernel

end Session
end UnixProgramming.Csapp

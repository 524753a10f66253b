import UnixProgramming.Csapp.EchoClients
import UnixProgramming.Csapp.RioDelivery

/-! What the echo server sends back. The copy of a client's `rio_t` is lost after one line, and
with it what `read()` returned beyond that line, so the echo is faithful only where no `read()`
goes further. -/

namespace UnixProgramming.Csapp

open UnixProgramming.Lib

namespace Rio
variable {rp next : Rio} {room : Nat}

/-! ## Reads that stay within a line -/

/-- The bytes do not go beyond the end of a line of at most `room` bytes. -/
def Within (room : Nat) (got : List UInt8) : Prop := got.length ≤ room ∧ newline ∉ got.dropLast

/-- The bytes reach the end of the line. -/
def Ends (room : Nat) (got : List UInt8) : Prop := got.length = room ∨ got.getLast? = some newline

instance : Decidable (Within room got) := inferInstanceAs (Decidable (_ ∧ _))

instance : Decidable (Ends room got) := inferInstanceAs (Decidable (_ ∨ _))

/-- The reads for a line of at most `room` bytes return no byte behind it and do not fail. -/
def LineReads : Nat → List UInt8 → List ReadOutcome → Prop
  | _, _, [] => True
  | room, source, .error errno :: rest => errno = .eintr ∧ LineReads room source rest
  | room, source, .count limit :: rest =>
    let got := source.take (min limit rioBufsize)
    got = [] ∨ Within room got ∧
      (Ends room got ∨ LineReads (room - got.length) (source.drop (min limit rioBufsize)) rest)

instance LineReads.decidable : ∀ room source schedule, Decidable (LineReads room source schedule)
  | _, _, [] => .isTrue trivial
  | room, source, .error _ :: rest =>
    have := LineReads.decidable room source rest
    inferInstanceAs (Decidable (_ ∧ _))
  | room, source, .count limit :: rest =>
    have := LineReads.decidable (room - (source.take (min limit rioBufsize)).length)
      (source.drop (min limit rioBufsize)) rest
    inferInstanceAs (Decidable (_ ∨ _ ∧ (_ ∨ _)))

/-- What is in the buffer belongs to the line, and so does what will be read for it. -/
structure Owes (rp : Rio) (room : Nat) : Prop where
  inside : 0 < rp.cnt → rp.bufptr + rp.cnt ≤ rp.buf.length
  small : rp.cnt ≤ rioBufsize
  within : Within room rp.unread
  reads : Ends room rp.unread ∨ LineReads (room - rp.unread.length) rp.fd.source rp.fd.schedule

/-- From `rp` to `next` the caller got `data`, at the cost of some reads. -/
def Took (rp next : Rio) (data : List UInt8) : Prop := ∃ ends, rp.Moved data ends next

theorem Took.refl (rp : Rio) : rp.Took rp [] := ⟨0, .refl rp⟩

theorem Took.trans {third : Rio} {data more : List UInt8} (first : rp.Took next data)
    (second : next.Took third more) : rp.Took third (data ++ more) := by
  obtain ⟨ends, moved⟩ := first
  obtain ⟨others, later⟩ := second
  exact ⟨ends + others, moved.trans later⟩

/-- An empty buffer, with room left in the line. -/
theorem Owes.empty (owes : rp.Owes room) (left : 0 < room) (empty : rp.cnt ≤ 0) :
    rp.unread = [] ∧ LineReads room rp.fd.source rp.fd.schedule := by
  have nothing : rp.unread = [] := unread_of_nonpos empty
  have reads := owes.reads
  rw [nothing] at reads
  refine ⟨nothing, reads.resolve_left ?_⟩
  rintro (none | newline)
  · exact absurd none (Nat.ne_of_lt left)
  · cases newline

/-- What refilling leads to. -/
def Supplied (rp : Rio) (room : Nat) : Refill × Rio → Prop
  | (.ready, next) => rp.Took next [] ∧ next.Owes room ∧ 0 < next.cnt
  | (.returned value, next) => value = 0 ∧ rp.Took next [] ∧ next.unread = []
  | (.blocked, next) => rp.Took next [] ∧ next.unread = []

theorem Supplied.after {third : Refill × Rio} (took : rp.Took next []) (supplied : next.Supplied room third) :
    rp.Supplied room third := by
  obtain ⟨ending, last⟩ := third
  cases ending with
  | ready => exact ⟨took.trans supplied.1, supplied.2⟩
  | returned value => exact ⟨supplied.1, took.trans supplied.2.1, supplied.2.2⟩
  | blocked => exact ⟨took.trans supplied.1, supplied.2⟩

theorem refill_supplied (rp : Rio) (owes : rp.Owes room) (left : 0 < room) : rp.Supplied room rp.refill := by
  fun_induction refill rp with
  | case1 rp positive => exact ⟨.refl rp, owes, positive⟩
  | case2 rp empty blocked => exact ⟨.refl rp, (owes.empty left (Int.not_lt.mp empty)).1⟩
  | case3 rp empty errno fd taken other =>
    obtain ⟨-, reads⟩ := owes.empty left (Int.not_lt.mp empty)
    rw [(Descriptor.read_error taken).1] at reads
    exact absurd reads.1 other
  | case4 rp empty errno fd taken same ih =>
    obtain ⟨nothing, reads⟩ := owes.empty left (Int.not_lt.mp empty)
    obtain ⟨schedule, source, -, -⟩ := Descriptor.read_error taken
    rw [schedule] at reads
    have still : unread { rp with fd := fd, cnt := -1 } = [] := unread_of_nonpos (by simp)
    refine .after ⟨0, moved_error (Int.not_lt.mp empty) taken⟩ (ih ⟨?_, ?_, ?_, .inr ?_⟩)
    · simp
    · simp [rioBufsize]
    · rw [still, ← nothing]
      exact owes.within
    · rw [still]
      show LineReads room fd.source fd.schedule
      rw [source]
      exact reads.2
  | case5 rp empty got fd taken filled eof =>
    obtain rfl : got = [] := by simpa [filled] using eof
    exact ⟨rfl, ⟨1, moved_eof (Int.not_lt.mp empty) taken⟩, unread_of_nonpos (by simp [filled])⟩
  | case6 rp empty got fd taken filled more ih =>
    have nonempty : got ≠ [] := by
      rintro rfl
      exact more rfl
    have positive := List.length_pos_iff.mpr nonempty
    obtain ⟨-, reads⟩ := owes.empty left (Int.not_lt.mp empty)
    obtain ⟨limit, schedule, sent, source, -, -⟩ := Descriptor.read_ok taken
    rw [schedule, LineReads, ← sent, ← source] at reads
    obtain ⟨within, rest⟩ := reads.resolve_left nonempty
    have unread : unread { filled with bufptr := 0 } = got := by
      rw [unread_of_pos (by simpa [filled] using positive)]
      simp [filled]
    refine .after ⟨0, moved_ok (Int.not_lt.mp empty) taken nonempty⟩ (ih ⟨?_, ?_, ?_, ?_⟩)
    · simp only [filled, List.length_append]
      omega
    · simp only [filled, sent, List.length_take]
      omega
    · rw [unread]
      exact within
    · rw [unread]
      exact rest

theorem Within.tail {byte : UInt8} {rest : List UInt8} (within : Within room (byte :: rest)) :
    Within (room - 1) rest ∧ (byte = newline → rest = []) := by
  obtain ⟨fits, inner⟩ := within
  cases rest with
  | nil => exact ⟨⟨Nat.zero_le _, by simp⟩, fun _ => rfl⟩
  | cons next more =>
    rw [List.dropLast_cons_cons, List.mem_cons, not_or] at inner
    refine ⟨⟨?_, inner.2⟩, fun same => absurd same.symm inner.1⟩
    rw [List.length_cons] at fits
    omega

theorem Ends.tail {byte : UInt8} {rest : List UInt8} (ends : Ends room (byte :: rest)) (inner : byte ≠ newline) :
    Ends (room - 1) rest := by
  rcases ends with full | last
  · left
    rw [List.length_cons] at full
    omega
  · right
    cases rest with
    | nil => exact absurd (Option.some.inj last) inner
    | cons next more => rwa [List.getLast?_cons_cons] at last

/-- What reading one byte of the line leads to. -/
def Gave (rp : Rio) (room : Nat) : Option Int × List UInt8 × Rio → Prop
  | (none, _, last) => rp.Took last [] ∧ last.unread = []
  | (some value, copied, last) =>
    (value = 0 ∧ rp.Took last [] ∧ last.unread = []) ∨
      (value = 1 ∧ ∃ byte, copied = [byte] ∧ rp.Took last [byte] ∧
        if byte = newline then last.unread = [] else last.Owes (room - 1))

theorem rioRead_gave (owes : rp.Owes room) (left : 0 < room) : rp.Gave room (rp.rioRead 1) := by
  have supplied := refill_supplied rp owes left
  match same : rp.refill with
  | (.blocked, last) =>
    rw [same] at supplied
    rw [rioRead, same]
    exact supplied
  | (.returned value, last) =>
    rw [same] at supplied
    obtain ⟨rfl, took, nothing⟩ := supplied
    rw [rioRead, same]
    exact .inl ⟨rfl, took, nothing⟩
  | (.ready, next) =>
    rw [same] at supplied
    obtain ⟨took, owed, positive⟩ := supplied
    have one : min next.cnt.toNat 1 = 1 := by omega
    have read := rioRead_ready same positive owed.small 1
    rw [one] at read
    obtain ⟨length, consumed⟩ := consume (owed.inside positive) Nat.one_pos (by omega)
    obtain ⟨byte, single⟩ := List.length_eq_one_iff.mp length
    rw [single] at read consumed
    rw [read]
    refine .inr ⟨rfl, byte, rfl, took.trans ⟨0, consumed⟩, ?_⟩
    generalize rest : ({ next with bufptr := next.bufptr + 1, cnt := next.cnt - (1 : Nat) } : Rio) = last at consumed
    have split : next.unread = byte :: last.unread := by
      obtain ⟨fresh, obtained, -, bytes, -⟩ := consumed
      have nothing : fresh = [] := by simpa [← rest] using obtained
      simpa [nothing] using bytes
    have within := owed.within
    have reads := owed.reads
    rw [split] at within reads
    split_ifs with newline
    · exact within.tail.2 newline
    · refine ⟨fun more => ?_, ?_, within.tail.1, ?_⟩
      · have inside := owed.inside positive
        subst rest
        dsimp only at more ⊢
        omega
      · have small := owed.small
        subst rest
        dsimp only
        omega
      · have fd : last.fd = next.fd := by rw [← rest]
        rw [fd, Nat.sub_sub, Nat.add_comm 1]
        exact reads.imp_left fun ends => ends.tail newline

/-- A line that takes all there is: its length is returned and the buffer is empty. -/
structure Whole (rp : Rio) (maxlen : Nat) (stored : List UInt8) (result : Delivery × Rio) : Prop where
  empty : result.2.unread = []
  took : ∃ data, result.1.data = stored ++ data ∧ rp.Took result.2 data
  value : ∀ value ∈ result.1.value, value = result.1.data.length
  fits : result.1.data.length < maxlen

theorem Whole.after {result : Delivery × Rio} {maxlen : Nat} {stored data : List UInt8} (took : rp.Took next data)
    (whole : next.Whole maxlen (stored ++ data) result) : rp.Whole maxlen stored result := by
  obtain ⟨empty, ⟨more, stores, later⟩, value, fits⟩ := whole
  exact ⟨empty, ⟨data ++ more, by rw [stores, List.append_assoc], took.trans later⟩, value, fits⟩

theorem readline_whole (maxlen n : Nat) (stored : List UInt8) (rp : Rio) (owes : rp.Owes (maxlen - n))
    (counter : stored.length + 1 = n) (atMost : n ≤ maxlen) : rp.Whole maxlen stored (readline maxlen n stored rp) := by
  fun_induction readline maxlen n stored rp with
  | case1 n stored rp more copied next blocked =>
    have gave := rioRead_gave owes (by omega)
    rw [blocked] at gave
    exact ⟨gave.2, ⟨[], by simp, gave.1⟩, by simp, (by omega : stored.length < maxlen)⟩
  | case2 n stored rp more next read =>
    have gave := rioRead_gave owes (by omega)
    rw [read] at gave
    obtain ⟨zero, -⟩ | ⟨-, byte, same, took, rest⟩ := gave
    · cases zero
    · cases same
      refine ⟨rest, ⟨[newline], rfl, took⟩, ?_, ?_⟩
      · simp [← counter]
      · rw [List.length_append, List.length_singleton, counter]
        exact more
  | case3 n stored rp more copied next inner read ih =>
    have gave := rioRead_gave owes (by omega)
    rw [read] at gave
    obtain ⟨zero, -⟩ | ⟨-, byte, rfl, took, rest⟩ := gave
    · cases zero
    · rw [if_neg (by simpa using inner), Nat.sub_sub] at rest
      exact .after took (ih rest (by simp [counter]) (by omega))
  | case4 stored rp copied next more read _ =>
    have gave := rioRead_gave owes (by omega)
    rw [read] at gave
    obtain ⟨-, took, nothing⟩ | ⟨one, -⟩ := gave
    · obtain rfl : stored = [] := List.eq_nil_of_length_eq_zero (by omega)
      exact ⟨nothing, ⟨[], by simp, took⟩, by simp, (by omega : 0 < maxlen)⟩
    · cases one
  | case5 n stored rp more copied next later read _ =>
    have gave := rioRead_gave owes (by omega)
    rw [read] at gave
    obtain ⟨-, took, nothing⟩ | ⟨one, -⟩ := gave
    · refine ⟨nothing, ⟨[], by simp, took⟩, ?_, (by omega : stored.length < maxlen)⟩
      simp [← counter]
    · cases one
  | case6 n stored rp more rc copied next read notOne notZero =>
    have gave := rioRead_gave owes (by omega)
    rw [read] at gave
    obtain ⟨zero, -⟩ | ⟨one, -⟩ := gave
    · exact absurd zero notZero
    · exact absurd one notOne
  | case7 n stored rp full =>
    have nothing : rp.unread = [] := by
      have fits := owes.within.1
      exact List.eq_nil_of_length_eq_zero (by omega)
    refine ⟨nothing, ⟨[], by simp, .refl rp⟩, ?_, (by omega : stored.length < maxlen)⟩
    simp [← counter]

end Rio

namespace EchoServer
variable {server next : EchoServer}

/-- Whenever a client is read from, no `read()` goes beyond the line or fails, and no `write()`
fails. -/
def LineWise (server : EchoServer) : EchoLabel → Prop
  | .check =>
    match server.stage with
    | .checking i => 0 < server.pool.clientfd i → server.pool.clientfd i ∈ server.pool.readySet →
        Rio.LineReads (maxline - 1) (server.sockets (server.pool.clientfd i)).input.source
          (server.sockets (server.pool.clientfd i)).input.schedule
    | _ => True
  | .accept _ _ _ writes => ∀ outcome ∈ writes, outcome.Benign
  | .select _ _ => True

/-- All that was read has been written. -/
def Echoed (socket : Socket) : Prop := socket.output.written = socket.input.obtained

structure Faithful (server : EchoServer) : Prop where
  fresh : ∀ i, i < fdSetsize → 0 ≤ server.pool.clientfd i →
    (server.pool.clientrio i).fd = server.pool.clientfd i ∧ (server.pool.clientrio i).cnt = 0
  benign : ∀ i, i < fdSetsize → 0 ≤ server.pool.clientfd i →
    ∀ outcome ∈ (server.sockets (server.pool.clientfd i)).output.writes, outcome.Benign
  behind : ∀ i, i < fdSetsize → 0 ≤ server.pool.clientfd i →
    (server.sockets (server.pool.clientfd i)).output.written <+:
      (server.sockets (server.pool.clientfd i)).input.obtained
  echoed : server.stage ≠ .blocked → ∀ i, i < fdSetsize → 0 ≤ server.pool.clientfd i →
    Echoed (server.sockets (server.pool.clientfd i))
  closed : ∀ socket ∈ server.closed, Echoed socket

/-- A line is read on a copy of a fresh `rio_t`. -/
theorem readClient_whole {i : Nat} (same : (server.pool.clientrio i).fd = server.pool.clientfd i)
    (fresh : (server.pool.clientrio i).cnt = 0)
    (reads : Rio.LineReads (maxline - 1) (server.sockets (server.pool.clientfd i)).input.source
      (server.sockets (server.pool.clientfd i)).input.schedule) :
    ∃ delivery input, server.readClient i = (delivery, server.received i delivery input) ∧
      input.obtained = (server.sockets (server.pool.clientfd i)).input.obtained ++ delivery.data ∧
      (∀ value ∈ delivery.value, value = delivery.data.length) ∧ delivery.data.length < maxline := by
  rw [← same] at reads ⊢
  have empty : ((server.pool.clientrio i).copied (server.sockets (server.pool.clientrio i).fd).input).unread = [] :=
    Rio.unread_of_nonpos (le_of_eq fresh)
  have owes : ((server.pool.clientrio i).copied (server.sockets (server.pool.clientrio i).fd).input).Owes
      (maxline - 1) := by
    refine ⟨fun positive => ?_, ?_, ?_, .inr ?_⟩
    · exact absurd (fresh ▸ positive : (0 : Int) < 0) (by omega)
    · show (server.pool.clientrio i).cnt ≤ rioBufsize
      rw [fresh]
      omega
    · rw [empty]
      exact ⟨Nat.zero_le _, by simp⟩
    · rw [empty]
      exact reads
  obtain ⟨left, ⟨data, delivered, ends, more, obtained, -, bytes, -⟩, value, fits⟩ :=
    Rio.readline_whole maxline 1 [] _ owes rfl (by decide)
  rw [empty, left, List.nil_append, List.append_nil] at bytes
  refine ⟨_, _, rfl, ?_, value, fits⟩
  rw [obtained, bytes, delivered]
  rfl

/-- The connection of one client has changed. -/
theorem Faithful.answer (faithful : server.Faithful) (pooled : server.Pooled) {i : Nat} (small : i < fdSetsize)
    {socket : Socket} (clientfd : next.pool.clientfd = server.pool.clientfd)
    (clientrio : next.pool.clientrio = server.pool.clientrio)
    (sockets : next.sockets = Function.update server.sockets (server.pool.clientfd i) socket)
    (closed : next.closed = server.closed) (running : server.stage ≠ .blocked)
    (benign : ∀ outcome ∈ socket.output.writes, outcome.Benign)
    (behind : socket.output.written <+: socket.input.obtained) (echoed : next.stage ≠ .blocked → Echoed socket) :
    next.Faithful := by
  have others : ∀ j, j < fdSetsize → 0 ≤ server.pool.clientfd j → j ≠ i →
      next.sockets (next.pool.clientfd j) = server.sockets (server.pool.clientfd j) := by
    intro j smallJ valid apart
    rw [clientfd, sockets]
    exact Function.update_of_ne (fun same => apart (pooled.consistent.distinct j i smallJ small valid same)) _ _
  have own : next.sockets (next.pool.clientfd i) = socket := by rw [clientfd, sockets, Function.update_self]
  refine ⟨by rw [clientfd, clientrio]; exact faithful.fresh, fun j smallJ valid => ?_, fun j smallJ valid => ?_,
    fun awake j smallJ valid => ?_, closed ▸ faithful.closed⟩
  all_goals
    rw [clientfd] at valid
    by_cases here : j = i
  · rw [here, own]
    exact benign
  · rw [others j smallJ valid here]
    exact faithful.benign j smallJ valid
  · rw [here, own]
    exact behind
  · rw [others j smallJ valid here]
    exact faithful.behind j smallJ valid
  · rw [here, own]
    exact echoed awake
  · rw [others j smallJ valid here]
    exact faithful.echoed running j smallJ valid

theorem stretch_stored (buf : Nat → UInt8) (delivery : Rio.Delivery) :
    stretch (stored buf delivery) 0 delivery.data.length = delivery.data := by
  apply List.ext_getElem
  · simp [stretch]
  · intro offset _ below
    simp [stretch, stored, below]

/-- A client is closed whose bytes have all been written. -/
theorem Faithful.drop (faithful : server.Faithful) (running : server.stage ≠ .blocked) {i : Nat}
    (small : i < fdSetsize) (known : 0 ≤ server.pool.clientfd i) : (server.drop i).Faithful := by
  have kept : ∀ j, 0 ≤ (server.drop i).pool.clientfd j → (server.drop i).pool.clientfd j = server.pool.clientfd j := by
    intro j valid
    refine Function.update_of_ne ?_ _ _
    rintro rfl
    simp [EchoServer.drop] at valid
  refine ⟨fun j smallJ valid => ?_, fun j smallJ valid => ?_, fun j smallJ valid => ?_, fun _ j smallJ valid => ?_,
    fun socket member => ?_⟩
  · have same := kept j valid
    rw [same] at valid ⊢
    exact faithful.fresh j smallJ valid
  · have same := kept j valid
    rw [same] at valid ⊢
    exact faithful.benign j smallJ valid
  · have same := kept j valid
    rw [same] at valid ⊢
    exact faithful.behind j smallJ valid
  · have same := kept j valid
    rw [same] at valid ⊢
    exact faithful.echoed running j smallJ valid
  · rcases List.mem_append.mp member with old | new
    · exact faithful.closed socket old
    · rw [List.mem_singleton.mp new]
      exact faithful.echoed running i small known

/-- The client is answered after its line has been read. -/
theorem echo_sockets {i : Nat} (same : (server.pool.clientrio i).fd = server.pool.clientfd i)
    (delivery : Rio.Delivery) (fits : delivery.data.length < maxline) (input : Descriptor)
    (benign : ∀ outcome ∈ (server.sockets (server.pool.clientfd i)).output.writes, outcome.Benign) :
    ∃ writing : Writing, writing.Passes (Rio.toSsize delivery.data.length)
        (server.sockets (server.pool.clientfd i)).output.written delivery.data ∧
      ((server.received i delivery input).echo i delivery.data.length).sockets =
        Function.update server.sockets (server.pool.clientfd i) ⟨input, writing.sink⟩ ∧
      (((server.received i delivery input).echo i delivery.data.length).stage ≠ .blocked → writing.value ≠ none) := by
  have count : ((delivery.data.length : Int) % 2 ^ 64).toNat = delivery.data.length := by
    rw [maxline] at fits
    omega
  have passes := rioWriten_passes (stored server.buf delivery) delivery.data.length
    (errnoAfter server.errno (server.sockets (server.pool.clientfd i)).input input) benign
  rw [stretch_stored] at passes
  refine ⟨_, passes, ?_, fun awake => ?_⟩
  · simp only [echo, received, same, Function.update_self, Function.update_idem, count]
  · simp only [echo, received, same, Function.update_self, count] at awake
    split_ifs at awake with blocked
    · exact absurd rfl awake
    · exact blocked

theorem Faithful.serve (faithful : server.Faithful) (pooled : server.Pooled) {i : Nat}
    (checking : server.stage = .checking i) (small : i < fdSetsize) (positive : 0 < server.pool.clientfd i)
    (reads : Rio.LineReads (maxline - 1) (server.sockets (server.pool.clientfd i)).input.source
      (server.sockets (server.pool.clientfd i)).input.schedule) : (server.serve i).Faithful := by
  have known : 0 ≤ server.pool.clientfd i := Int.le_of_lt positive
  have running : server.stage ≠ .blocked := by simp [checking]
  obtain ⟨same, fresh⟩ := faithful.fresh i small known
  have benign := faithful.benign i small known
  have echoed : (server.sockets (server.pool.clientfd i)).output.written = _ := faithful.echoed running i small known
  obtain ⟨delivery, input, read, obtained, value, fits⟩ := readClient_whole same fresh reads
  rw [← echoed] at obtained
  have sockets : (server.received i delivery input).sockets = Function.update server.sockets (server.pool.clientfd i)
      { server.sockets (server.pool.clientfd i) with input := input } := by simp only [received, same]
  have behind : (server.sockets (server.pool.clientfd i)).output.written <+: input.obtained :=
    obtained ▸ List.prefix_append _ _
  unfold EchoServer.serve
  rw [read]
  dsimp only
  cases returned : delivery.value with
  | none =>
    exact faithful.answer pooled small rfl rfl sockets rfl running benign behind fun awake => absurd rfl awake
  | some n =>
    obtain rfl := value n returned
    dsimp only
    split_ifs with some
    · obtain ⟨writing, passes, answered, awake⟩ := echo_sockets same delivery fits input benign
      refine faithful.answer pooled small rfl rfl answered rfl running passes.1 ?_ fun running => ?_
      · exact obtained ▸ passes.initial
      · exact (passes.all (awake running)).trans obtained.symm
    · have nothing : delivery.data = [] := List.eq_nil_of_length_eq_zero (by omega)
      have settled : (server.received i delivery input).Faithful := by
        refine faithful.answer pooled small rfl rfl sockets rfl running benign behind fun _ => ?_
        show (server.sockets (server.pool.clientfd i)).output.written = input.obtained
        rw [obtained, nothing, List.append_nil]
      exact settled.drop running small known

theorem Faithful.start (listenfd : Int) (errno : Errno) (sockets : Int → Socket) :
    (start listenfd errno sockets).Faithful := by
  have free : ∀ i, i < fdSetsize → ¬ 0 ≤ (EchoServer.start listenfd errno sockets).pool.clientfd i := by
    intro i small
    rw [show (EchoServer.start listenfd errno sockets).pool.clientfd i = -1 from if_pos small]
    omega
  exact ⟨fun i small known => absurd known (free i small), fun i small known => absurd known (free i small),
    fun i small known => absurd known (free i small), fun _ i small known => absurd known (free i small),
    fun socket member => by cases member⟩

theorem Faithful.accept (faithful : server.Faithful) (pooled : server.Pooled) (running : server.stage ≠ .blocked)
    {connfd : Int} (fresh : connfd ∉ server.opened) (stream : List UInt8) (reads : List ReadOutcome)
    {writes : List WriteOutcome} (benign : ∀ outcome ∈ writes, outcome.Benign) :
    (server.onAccept connfd ⟨⟨stream, reads, []⟩, ⟨writes, []⟩⟩).Faithful := by
  -- a client of before keeps its entry and its connection
  have cases : ∀ i, i < fdSetsize → 0 ≤ (server.pool.addClient connfd).clientfd i →
      (0 ≤ server.pool.clientfd i ∧ (server.pool.addClient connfd).clientfd i = server.pool.clientfd i ∧
        (server.pool.addClient connfd).clientrio i = server.pool.clientrio i ∧
        Function.update server.sockets connfd ⟨⟨stream, reads, []⟩, ⟨writes, []⟩⟩ (server.pool.clientfd i) =
          server.sockets (server.pool.clientfd i)) ∨
      ((server.pool.addClient connfd).clientfd i = connfd ∧
        (server.pool.addClient connfd).clientrio i = (server.pool.clientrio i).rioReadinitb connfd) := by
    intro i small known
    refine (Pool.slot_addClient known).imp_left fun ⟨old, same, rio⟩ => ⟨old, same, rio, ?_⟩
    refine Function.update_of_ne (fun equal => fresh ?_) _ _
    exact equal ▸ (pooled.consistent.clients i small old).2
  simp only [onAccept]
  refine ⟨fun i small known => ?_, fun i small known => ?_, fun i small known => ?_, fun _ i small known => ?_,
    faithful.closed⟩
  · rcases cases i small known with ⟨old, same, rio, -⟩ | ⟨same, rio⟩
    · rw [same, rio]
      exact faithful.fresh i small old
    · rw [same, rio]
      exact ⟨rfl, rfl⟩
  · dsimp only
    rcases cases i small known with ⟨old, same, -, socket⟩ | ⟨same, -⟩
    · rw [same, socket]
      exact faithful.benign i small old
    · rw [same, Function.update_self]
      exact benign
  · dsimp only
    rcases cases i small known with ⟨old, same, -, socket⟩ | ⟨same, -⟩
    · rw [same, socket]
      exact faithful.behind i small old
    · rw [same, Function.update_self]
  · dsimp only
    rcases cases i small known with ⟨old, same, -, socket⟩ | ⟨same, -⟩
    · rw [same, socket]
      exact faithful.echoed running i small old
    · rw [same, Function.update_self]
      rfl

theorem Faithful.step (faithful : server.Faithful) (pooled : server.Pooled) {label : EchoLabel}
    (lineWise : server.LineWise label) (taken : server.step label = some next) : next.Faithful := by
  obtain ⟨fresh, benign, behind, echoed, closed⟩ := faithful
  cases step_change taken with
  | select ready stack selecting within done =>
    exact done ▸ ⟨fresh, benign, behind, fun _ => echoed (by simp [selecting]), closed⟩
  | accept connfd stream reads writes accepting positive new done =>
    exact done ▸ Faithful.accept ⟨fresh, benign, behind, echoed, closed⟩ pooled (by simp [accepting]) new stream reads
      lineWise
  | finish i checking ended done =>
    exact done ▸ ⟨fresh, benign, behind, fun _ => echoed (by simp [checking]), closed⟩
  | pass i checking inside quiet done =>
    exact done ▸ ⟨fresh, benign, behind, fun _ => echoed (by simp [checking]), closed⟩
  | serve i checking inside positive ready done =>
    have slots := pooled.consistent.slots
    rw [LineWise, checking] at lineWise
    exact done ▸ Faithful.serve ⟨fresh, benign, behind, echoed, closed⟩ pooled checking (by omega) positive
      (lineWise positive ready)

/-- In a run in which no `read()` returns bytes behind the line it is for, and none fails, what
is written to a client is the beginning of what was read from it, and all of it when the
client has been closed. -/
theorem echo_faithful (listenfd : Int) (errno : Errno) (sockets : Int → Socket) (labels : List EchoLabel)
    (meets : Meets EchoServer.step LineWise (start listenfd errno sockets) labels)
    (reached : run EchoServer.step (start listenfd errno sockets) labels = some server) :
    (∀ i, i < fdSetsize → 0 ≤ server.pool.clientfd i →
      (server.sockets (server.pool.clientfd i)).output.written <+:
        (server.sockets (server.pool.clientfd i)).input.obtained) ∧
    ∀ socket ∈ server.closed, socket.output.written = socket.input.obtained := by
  let invariant (server : EchoServer) : Prop := server.Pooled ∧ server.Faithful
  have kept : invariant server := by
    refine run_invariant_of_meets (fun state label next held guard taken => ?_)
      ⟨Pooled.start listenfd errno sockets, Faithful.start listenfd errno sockets⟩ meets reached
    exact ⟨held.1.step taken, held.2.step held.1 guard taken⟩
  exact ⟨kept.2.behind, kept.2.closed⟩

instance (server : EchoServer) : DecidablePred server.LineWise
  | .check =>
    match checking : server.stage with
    | .checking i =>
      decidable_of_iff (0 < server.pool.clientfd i → server.pool.clientfd i ∈ server.pool.readySet →
        Rio.LineReads (maxline - 1) (server.sockets (server.pool.clientfd i)).input.source
          (server.sockets (server.pool.clientfd i)).input.schedule) (by rw [LineWise, checking])
    | .selecting | .accepting | .blocked => .isTrue (by rw [LineWise, checking]; trivial)
  | .accept _ _ _ writes => inferInstanceAs (Decidable (∀ outcome ∈ writes, outcome.Benign))
  | .select _ _ => .isTrue trivial

/-- A client that sends all at once what it has to send, and is read from until it closes. -/
def visit (stream : List UInt8) (reads : List ReadOutcome) : List EchoLabel :=
  [.select {3} fun _ => 0, .accept 5 stream reads [.count 1, .error .eintr, .count 9], .check,
    .select {5} fun _ => 0, .check, .check, .select {5} fun _ => 0, .check, .check]

theorem echo_faithful_one_line :
    ∃ server, run step (start 3 .other fun _ => ⟨⟨[], [], []⟩, ⟨[], []⟩⟩)
        (visit (bytes "ab\n") [.count 2, .error .eintr, .count 1, .count 1]) = some server ∧
      server.closed.map (fun socket => socket.output.written) = [bytes "ab\n"] ∧
      ∀ socket ∈ server.closed, socket.output.written = socket.input.obtained := by
  have computed : (run step (start 3 .other fun _ => ⟨⟨[], [], []⟩, ⟨[], []⟩⟩)
      (visit (bytes "ab\n") [.count 2, .error .eintr, .count 1, .count 1])).map
      (fun server => server.closed.map (fun socket => socket.output.written)) = some [bytes "ab\n"] := by
    decide +kernel
  obtain ⟨server, reached, closed⟩ := Option.map_eq_some_iff.mp computed
  exact ⟨server, reached, closed, (echo_faithful 3 .other _ _ (by decide +kernel) reached).2⟩

/-- Two lines come in one `read()`: the second one is never echoed. -/
theorem second_line_lost :
    ∃ server, run step (start 3 .other fun _ => ⟨⟨[], [], []⟩, ⟨[], []⟩⟩)
        (visit (bytes "a\nb\n") [.count 4, .count 1]) = some server ∧
      ∃ socket ∈ server.closed, socket.output.written = bytes "a\n" ∧ socket.input.obtained = bytes "a\nb\n" ∧
        socket.output.written ≠ socket.input.obtained := by
  have computed : (run step (start 3 .other fun _ => ⟨⟨[], [], []⟩, ⟨[], []⟩⟩)
      (visit (bytes "a\nb\n") [.count 4, .count 1])).map (·.closed) =
      some [⟨⟨[], [], bytes "a\nb\n"⟩, ⟨[], bytes "a\n"⟩⟩] := by decide +kernel
  obtain ⟨server, reached, closed⟩ := Option.map_eq_some_iff.mp computed
  refine ⟨server, reached, _, closed ▸ List.mem_singleton_self _, rfl, rfl, by decide⟩

end EchoServer
end UnixProgramming.Csapp
